import LogRef.Text.Blank

/-!
# Lines

A line feed, a carriage return or the two together end a line of a text file.
-/
namespace LogRef.Text

/-- A text with a line feed at the end of each line. -/
def unifyBreaks : List Char → List Char
  | [] => []
  | '\r' :: '\n' :: rest => '\n' :: unifyBreaks rest
  | '\r' :: rest => '\n' :: unifyBreaks rest
  | c :: rest => c :: unifyBreaks rest

/-- The lines of a text. -/
def lines (text : List Char) : List (List Char) := splitOn '\n' (unifyBreaks text)

end LogRef.Text
