import LogRef.Text.Utf8

/-!
# Binary scalars

Bytes written with sixty-four characters, six bits each. Characters outside the alphabet are passed over.
-/
namespace LogRef.Yaml

/-- The six bits that a character stands for. -/
def sixBits? (c : Char) : Option Nat :=
  if 'A' ≤ c ∧ c ≤ 'Z' then some (c.toNat - 65)
  else if 'a' ≤ c ∧ c ≤ 'z' then some (c.toNat - 71)
  else if '0' ≤ c ∧ c ≤ '9' then some (c.toNat + 4)
  else if c = '+' then some 62
  else if c = '/' then some 63
  else none

/-- What is known so far of four characters that make three bytes. -/
structure Quad where
  /-- How many of the four have been read. -/
  position : Nat
  /-- The bits that have not become a byte yet. -/
  bits : Nat
  /-- How many `=` in place of the last ones. -/
  pads : Nat

namespace Quad

def start : Quad := ⟨0, 0, 0⟩

/-- Takes six more bits: the byte they complete, if they do, and what is left. -/
def push (q : Quad) (six : Nat) : Option UInt8 × Quad :=
  let all := q.bits * 64 + six
  match q.position with
  | 0 => (none, ⟨1, six, 0⟩)
  | 1 => (some (UInt8.ofNat (all / 16)), ⟨2, all % 16, 0⟩)
  | 2 => (some (UInt8.ofNat (all / 4)), ⟨3, all % 4, 0⟩)
  | _ => (some (UInt8.ofNat all), ⟨0, 0, 0⟩)

end Quad

/-- The bytes of a text from some point on. The text is over when `=` fill up a group of four, and no
group may be left open. -/
def decodeBinaryFrom (q : Quad) : List Char → Option (List UInt8)
  | [] => if q.position = 0 then some [] else none
  | c :: rest =>
    if c = '=' then
      if 2 ≤ q.position then
        if 4 ≤ q.position + q.pads + 1 then some []
        else decodeBinaryFrom { q with pads := q.pads + 1 } rest
      else decodeBinaryFrom q rest
    else
      match sixBits? c with
      | none => decodeBinaryFrom q rest
      | some six =>
        match q.push six with
        | (some b, q) => (decodeBinaryFrom q rest).map (b :: ·)
        | (none, q) => decodeBinaryFrom q rest

/-- The bytes that a text stands for; it has to be ASCII. -/
def decodeBinary (text : List Char) : Option (List UInt8) :=
  if text.all fun c => c.toNat < 0x80 then decodeBinaryFrom .start text else none

end LogRef.Yaml
