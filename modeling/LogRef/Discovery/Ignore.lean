import LogRef.Discovery.Glob
import LogRef.Discovery.Regex
import LogRef.Fault
import LogRef.FileSystem.Path
import LogRef.Text.Lines

/-!
# Ignore files

The rules of a `.gitignore` file and the paths they match. A rule is looked for in the path relative to the
directory of its file; if any rule of a file takes back a match, the last rule that matches decides.
-/
namespace LogRef.Ignore

/-- A rule. What is wrong with its expression shows when the rule is first used. -/
structure Rule where
  isNegated : Bool
  regex : Except String Regex

/-- Whether a rule matches a relative path. -/
def Rule.matchesPath (r : Rule) (path : List Char) : Except Fault Bool :=
  match r.regex with
  | .error why => .error (.badPattern why)
  | .ok regex => .ok (regex.isFoundIn path)

/-! ## Reading rules -/

/-- A run of two or more `*` after a character that is no slash becomes a single one. -/
def shortenAfterChar : (skip : Nat) → List Char → List Char
  | _, [] => []
  | skip + 1, _ :: rest => shortenAfterChar skip rest
  | 0, c :: rest =>
    let stars := (rest.takeWhile (· == '*')).length
    if c != '/' && 2 ≤ stars then c :: '*' :: shortenAfterChar stars rest
    else c :: shortenAfterChar 0 rest

/-- A run of two or more `*` before a character that is no slash becomes a single one. -/
def shortenBeforeChar : (skip : Nat) → List Char → List Char
  | _, [] => []
  | skip + 1, _ :: rest => shortenBeforeChar skip rest
  | 0, c :: rest =>
    let stars := ((c :: rest).takeWhile (· == '*')).length
    match (c :: rest).drop stars with
    | next :: _ =>
      if 2 ≤ stars && next != '/' then '*' :: next :: shortenBeforeChar stars rest
      else if 3 ≤ stars then '*' :: '*' :: shortenBeforeChar (stars - 1) rest
      else c :: shortenBeforeChar 0 rest
    | [] =>
      if 3 ≤ stars then '*' :: '*' :: shortenBeforeChar (stars - 1) rest
      else c :: shortenBeforeChar 0 rest

/-- Spaces at the end fall away, down to the third character, unless a backslash stands before them; the
backslash falls away instead. `stripping` says whether no such space was met yet. -/
def dropTrailingSpaces : (index : Nat) → (stripping : Bool) → List Char → List Char
  | 0, _, pattern => pattern
  | 1, _, pattern => pattern
  | index + 2, stripping, pattern =>
    if pattern[index + 2]? = some ' ' then
      if pattern[index + 1]? = some '\\' then
        dropTrailingSpaces index false (pattern.take (index + 1) ++ pattern.drop (index + 2))
      else
        dropTrailingSpaces (index + 1) stripping
          (if stripping then pattern.take (index + 2) else pattern)
    else pattern

/-- Characters that a backslash guards in a regular expression. -/
def isSpecial (c : Char) : Bool := "()[]\x7b\x7d?*+-|^$\\.&~# \t\n\r\x0b\x0c".toList.contains c

/-- A character that stands for itself in a regular expression. -/
def plain (c : Char) : List Char := if isSpecial c then ['\\', c] else [c]

/-- One character that is no slash. -/
def nameChar : List Char := "[^/]".toList

def slash : List Char := "[/]".toList

/-- The set with the given text between its brackets. Slashes are taken out of it, which may leave nothing
to look at or nothing behind the `!`. -/
def setText (members : List Char) : Except Fault (List Char) :=
  let body := (members.filter (· != '/')).flatMap fun c => if c = '\\' then ['\\', '\\'] else [c]
  match body with
  | [] => .error .emptyText
  | c :: rest =>
    .ok ('[' :: (if c = '!' then '^' :: rest else if c = '^' then '\\' :: body else body) ++ [']'])

/-- The regular expression of a pattern, `skip` characters of which belong to a piece already read. -/
def bodyText : (skip : Nat) → List Char → Except Fault (List Char)
  | _, [] => .ok []
  | skip + 1, _ :: rest => bodyText skip rest
  | 0, c :: rest =>
    let put (piece : List Char) (skip : Nat) := do return piece ++ (← bodyText skip rest)
    if c = '*' then
      if ['*', '/'].isPrefixOf rest then put ("(.*".toList ++ slash ++ ")?".toList) 2
      else if ['*'].isPrefixOf rest then put ".*".toList 1
      else put (nameChar ++ ['*']) 0
    else if c = '?' then put nameChar 0
    else if c = '/' then put slash 0
    else if c = '[' then
      match Glob.setLength rest with
      | none => put (plain '[') 0
      | some n => do put (← setText (rest.take n)) (n + 1)
    else put (plain c) 0

/-- The regular expression of a pattern: it begins at the start of the path or, unless it is anchored,
behind a slash, and goes up to the end or, for directories, to a slash. -/
def regexText (isAnchored isDirectory isNegated : Bool) (pattern : List Char) :
    Except Fault (List Char) := do
  let opening := if isAnchored then ['^'] else "(^|".toList ++ slash ++ [')']
  let closing := if !isDirectory then "$" else if isNegated then "/$" else "($|\\/)"
  return opening ++ (← bodyText 0 pattern) ++ closing.toList

/-- The first character; there has to be one. -/
def firstOf (pattern : List Char) : Except Fault Char :=
  match pattern.head? with
  | some c => .ok c
  | none => .error .emptyText

/-- The last character; there has to be one. -/
def lastOf (pattern : List Char) : Except Fault Char :=
  match pattern.getLast? with
  | some c => .ok c
  | none => .error .emptyText

/-- The text of a pattern without the backslash that guards a leading `#` or `!`. -/
def dropGuard (pattern : List Char) : Except Fault (List Char) :=
  match pattern with
  | [] | ['\\'] => .error .emptyText
  | '\\' :: c :: rest => .ok (if c = '#' || c = '!' then c :: rest else pattern)
  | _ => .ok pattern

/-- The rule of a line; blank lines, comments and a lone slash give none. -/
def ruleOfLine (line : List Char) : Except Fault (Option Rule) := do
  if (Text.trim line).isEmpty || line.head? = some '#' then return none
  let isNegated := line.head? = some '!'
  let pattern := shortenBeforeChar 0 (shortenAfterChar 0 (if isNegated then line.drop 1 else line))
  if (pattern.reverse.dropWhile Text.isBlank).reverse = ['/'] then return none
  let isDirectory := (← lastOf pattern) = '/'
  let hasSlash := pattern.dropLast.contains '/'
  let pattern := if (← firstOf pattern) = '/' then pattern.drop 1 else pattern
  let _ ← firstOf pattern
  let isDeep := ['*', '*'].isPrefixOf pattern
  let pattern := if isDeep then pattern.drop 2 else pattern
  let pattern := if (← firstOf pattern) = '/' then pattern.drop 1 else pattern
  let pattern := if (← lastOf pattern) = '/' then pattern.dropLast else pattern
  let pattern ← dropGuard pattern
  let pattern := dropTrailingSpaces (pattern.length - 1) true pattern
  let text ← regexText (hasSlash && !isDeep) isDirectory isNegated pattern
  return some { isNegated, regex := Regex.ofText text }

/-- The rules of lines. -/
def rulesOfLines (lines : List (List Char)) : Except Fault (List Rule) := do
  let rules ← lines.mapM ruleOfLine
  return rules.filterMap id

/-- The rules of a file's contents. Lines before an incomplete character at the end are read before it is
found. -/
def rulesOfFile (data : Bytes) : Except Fault (List Rule) :=
  match Utf8.decode data with
  | .ok text => rulesOfLines (Text.lines text)
  | .error e => do
    if e.reason = .truncated then
      let text := Utf8.decodeLossy (data.take e.position)
      let _ ← rulesOfLines (Text.lines text).dropLast
      throw (.undecodable { e with position := 0 })
    else throw (.undecodable e)

/-- The rules of an ignore file with the directory it is in, an absolute path. -/
structure RuleFile where
  directory : Path
  rules : List Rule

/-- Whether some rule matches, the first ones tried first. -/
def anyMatches (path : List Char) : List Rule → Except Fault Bool
  | [] => .ok false
  | r :: rest => do
    if ← r.matchesPath path then return true else anyMatches path rest

/-- What the first rule that matches says. -/
def firstVerdict (path : List Char) : List Rule → Except Fault Bool
  | [] => .ok false
  | r :: rest => do
    if ← r.matchesPath path then return !r.isNegated else firstVerdict path rest

/-- Whether a rule file ignores an absolute path. -/
def RuleFile.ignores (f : RuleFile) (path : Path) : Except Fault Bool :=
  match path.relativeTo? f.directory with
  | none =>
    if f.rules.isEmpty then .ok false
    else .error (.outside path.toString f.directory.toString)
  | some steps =>
    let text := (joinSteps steps).toList
    if f.rules.any Rule.isNegated then firstVerdict text f.rules.reverse
    else anyMatches text f.rules

/-- What says of an absolute path whether it is ignored. -/
abbrev Verdict := Path → Except Fault Bool

/-- What makes a verdict of an ignore file, given the directory it is in, an absolute path, and its contents. -/
abbrev Reader := Path → Bytes → Except Fault Verdict

/-- The verdict by the rules of the file. -/
def reader : Reader := fun directory data => do
  return RuleFile.ignores ⟨directory, ← rulesOfFile data⟩

end LogRef.Ignore
