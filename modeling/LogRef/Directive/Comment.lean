/-!
# Comment patterns

A pattern looks for a comment in a line and gives the texts it captures, one for each of its groups, or
nothing if it finds none. The first place in the line where the pattern fits decides.
-/
namespace LogRef

/-- A search for a comment in a line: the captured texts, group by group. -/
abbrev CommentPattern := List Char → Option (List (Option (List Char)))

namespace CommentPattern

/-- The leftmost place where `fits` succeeds. -/
def leftmost {α : Type} (fits : List Char → Option α) : List Char → Option α
  | [] => fits []
  | c :: rest => (fits (c :: rest)).or (leftmost fits rest)

/-- What follows an opening, if the line begins with it and more follows. -/
def restAfter (opening : String) (line : List Char) : Option (List Char) :=
  let n := opening.toList.length
  if opening.toList.isPrefixOf line && n < line.length then some (line.drop n) else none

/-- The text before the last `*/` of a line. -/
def beforeLastEnd : List Char → Option (List Char)
  | [] => none
  | c :: rest =>
    match beforeLastEnd rest with
    | some text => some (c :: text)
    | none => if ['*', '/'].isPrefixOf (c :: rest) then some [] else none

/-- A line comment `// …` or a block comment `/* … */` on one line. -/
def slashes : CommentPattern := leftmost fun line =>
  match restAfter "//" line with
  | some text => some [some text, none]
  | none =>
    match (restAfter "/*" line).bind beforeLastEnd with
    | some (c :: text) => some [none, some (c :: text)]
    | _ => none

end CommentPattern

end LogRef
