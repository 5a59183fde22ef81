import LogRef.Text.Blank
import LogRef.Text.LowerCase
import LogRef.Directive.Comment

/-!
# Directives

A directive is a comment that stands alone on the nearest line with text on it before the line it is
about.
-/
namespace LogRef

/-- Leaves the call out. -/
def ignoreDirective : List Char := "breadlog:ignore".toList

/-- Keeps the reference of a call in its message. -/
def messageOnlyDirective : List Char := "breadlog:no-kvp".toList

/-- Where the line that holds `offset` begins: behind the last line feed before it, if there is one. -/
def lineStart (code : List Char) (offset : Nat) : Nat :=
  ((code.take offset).reverse.dropWhile (· != '\n')).length

/-- The lines strictly before the one that holds `offset`. -/
def linesBefore (code : List Char) (offset : Nat) : List (List Char) :=
  (Text.splitOn '\n' (code.take (lineStart code offset))).dropLast

/-- The nearest line before the one that holds `offset` with text on it, trimmed. -/
def nearestLineBefore (code : List Char) (offset : Nat) : Option (List Char) :=
  ((linesBefore code offset).reverse.map Text.trim).find? (!·.isEmpty)

/-- Whether a line is a comment of which some captured text is `name`, case and blanks aside. -/
def isDirectiveLine (pattern : CommentPattern) (name line : List Char) : Bool :=
  match pattern line with
  | none => false
  | some groups => groups.any fun group =>
    group.any fun text => Text.trim (Text.lower text) == Text.lower name

/-- Whether the directive `name` is about the line that holds `offset`. -/
def isDirected (pattern : CommentPattern) (name code : List Char) (offset : Nat) : Bool :=
  (nearestLineBefore code offset).any (isDirectiveLine pattern name)

end LogRef
