import LogRef.FileSystem.Tree
import LogRef.Reference.Id
import LogRef.Syntax.Token
import LogRef.Text.Quote

/-!
# Faults

Failures that no command turns into a result of its own: they end whatever is running.
-/
namespace LogRef

inductive Fault
  /-- A syntax tree reaches past its source. -/
  | outOfSource (e : OutOfSource)
  | tooManyDigits (e : TooManyDigits)
  /-- A text that has to be UTF-8 is not. -/
  | undecodable (e : Utf8.DecodeError)
  /-- A pattern or number has no first character left to look at. -/
  | emptyText
  /-- A character class of an ignore pattern makes no sense. -/
  | badPattern (why : String)
  /-- A value cannot be what its notation says. -/
  | badValue (why : String)
  /-- A whole number is too large for one with a fraction. -/
  | tooLarge
  /-- A word that is no truth value. -/
  | badTruth (word : String)
  /-- A text that is no date. -/
  | badDate
  /-- A collection where a text has to be read. -/
  | notReadable
  /-- Nothing where a path has to be. -/
  | notPath
  /-- A path lies outside the directory it is looked at from. -/
  | outside (path directory : String)
  | symlinkLoop (path : String)
  /-- A file operation fails where it should not. -/
  | file (e : FileError)
  | noHome
  deriving DecidableEq, Repr

def Fault.message : Fault → String
  | outOfSource e => e.message
  | tooManyDigits e => e.message
  | undecodable e => e.message
  | emptyText => "string index out of range"
  | badPattern why => why
  | badValue why => why
  | tooLarge => "int too large to convert to float"
  | badTruth word => Text.quoted word
  | badDate => "'NoneType' object has no attribute 'groupdict'"
  | notReadable => "expected string or bytes-like object, got 'list'"
  | notPath => "expected str, bytes or os.PathLike object, not list"
  | outside path directory =>
    Text.quoted path ++ " is not in the subpath of " ++ Text.quoted directory ++
      " OR one path is relative and the other is absolute."
  | symlinkLoop path => "Symlink loop from " ++ Text.quoted path
  | file e => e.message
  | noHome => "Could not determine home directory."

/-- The fault of a path that cannot be resolved. -/
def Fault.ofUnresolved (e : FileError) : Fault :=
  if e.kind = .tooManyLinks then .symlinkLoop e.path else .file e

/-- Whether a fault is about the form of a value, and not about something else along the way. -/
def Fault.isBadValue : Fault → Bool
  | tooManyDigits _ | undecodable _ | badValue _ | outside _ _ => true
  | _ => false

end LogRef
