import LogRef.Text.Ranges

/-!
# Blank characters

White space in the widest sense: the Unicode space characters together with the ASCII separators.
-/
namespace LogRef.Text

/-- The blank characters. -/
def blankRanges : List (Nat × Nat) := [
  (9, 13), (28, 32), (133, 133), (160, 160), (5760, 5760), (8192, 8202), (8232, 8233), (8239, 8239),
  (8287, 8287), (12288, 12288)]

def isBlank (c : Char) : Bool := inRanges blankRanges c.toNat

/-- A text without the blanks at its two ends. -/
def trim (text : List Char) : List Char :=
  ((text.dropWhile isBlank).reverse.dropWhile isBlank).reverse

/-- A text without any of its blanks. -/
def squeeze (text : List Char) : List Char := text.filter (!isBlank ·)

/-- A string without the blanks at its two ends. -/
def trimString (s : String) : String := String.ofList (trim s.toList)

/-- The pieces of a text between the occurrences of `sep`; there is always at least one. -/
def splitOn (sep : Char) : List Char → List (List Char)
  | [] => [[]]
  | c :: rest =>
    if c = sep then [] :: splitOn sep rest
    else match splitOn sep rest with
      | [] => [[c]]
      | piece :: pieces => (c :: piece) :: pieces

end LogRef.Text
