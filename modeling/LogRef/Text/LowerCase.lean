import LogRef.Text.CaseData

/-!
# Lower case

The lower-case form of a text. Two characters are not mapped one to one: the dotted capital I becomes
two characters, and a capital sigma becomes a final sigma at the end of a word.
-/
namespace LogRef.Text

/-- The lower-case form of a single character. -/
def lowerChar (c : Char) : Char :=
  let n := c.toNat
  match caseRuns.find? fun r => r.first ≤ n && n ≤ r.last && (n - r.first) % r.step == 0 with
  | some r => Char.ofNat (Int.toNat (n + r.shift))
  | none => c

def isCaseIgnorable (c : Char) : Bool := inRanges caseIgnorableRanges c.toNat

def isCased (c : Char) : Bool := inRanges casedRanges c.toNat

/-- Whether the nearest character that counts, going away from the sigma, is cased. -/
def nearestIsCased (neighbours : List Char) : Bool :=
  match neighbours.dropWhile isCaseIgnorable with
  | [] => false
  | c :: _ => isCased c

/-- Lower case with the text already passed, nearest character first. -/
def lowerFrom (before : List Char) : List Char → List Char
  | [] => []
  | c :: rest =>
    let mapped :=
      if c.toNat = 0x130 then [Char.ofNat 0x69, Char.ofNat 0x307]
      else if c.toNat = 0x3A3 then
        if nearestIsCased before && !nearestIsCased rest then [Char.ofNat 0x3C2]
        else [Char.ofNat 0x3C3]
      else [lowerChar c]
    mapped ++ lowerFrom (c :: before) rest

/-- The lower-case form of a text. -/
def lower (text : List Char) : List Char := lowerFrom [] text

end LogRef.Text
