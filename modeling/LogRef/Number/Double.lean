import LogRef.Text.Digit

/-!
# Binary floating point numbers

A finite number is a whole number below 2^53 times a power of two, exactly. Decimals are read to the nearest
one, a tie to the even neighbour, and written with the fewest digits that read back.
-/
namespace LogRef

/-- A number with 53 significant bits and exponents from -1074 to 971, or none. -/
inductive Double
  /-- The number `mantissa * 2 ^ exponent`, or its opposite. -/
  | finite (isNegative : Bool) (mantissa : Nat) (exponent : Int)
  | infinite (isNegative : Bool)
  | nan
  deriving DecidableEq, Repr

namespace Double

/-- The quotient of `num` and `den` rounded to a whole number, a tie to the even one. -/
def roundQuotient (num den : Nat) : Nat :=
  let q := num / den
  let twice := 2 * (num % den)
  if den < twice || (den = twice && q % 2 = 1) then q + 1 else q

/-- The least exponent. -/
def minExponent : Int := -1074

/-- The largest exponent. -/
def maxExponent : Int := 971

/-- The quotient of `num` and `den` divided by `2 ^ e`, as a fraction. -/
def scaled (num den : Nat) (e : Int) : Nat × Nat :=
  if 0 ≤ e then (num, den * Nat.pow 2 e.toNat) else (num * Nat.pow 2 (-e).toNat, den)

/-- The number nearest to `num / den`. -/
def ofRatio (isNegative : Bool) (num den : Nat) : Double :=
  if num = 0 then .finite isNegative 0 0
  else
    let guess : Int := (Nat.log2 num : Int) - (Nat.log2 den : Int) - 52
    let (n, d) := scaled num den guess
    let e := max minExponent (if n < d * Nat.pow 2 52 then guess - 1 else guess)
    let (n, d) := scaled num den e
    let m := roundQuotient n d
    let (m, e) := if m = Nat.pow 2 53 then (Nat.pow 2 52, e + 1) else (m, e)
    if maxExponent < e then .infinite isNegative else .finite isNegative m e

/-- The number nearest to `digits * 10 ^ exponent`. -/
def ofDecimal (isNegative : Bool) (digits : Nat) (exponent : Int) : Double :=
  let size : Int := (Nat.toDigits 10 digits).length
  if digits = 0 then .finite isNegative 0 0
  else if 400 < size + exponent then .infinite isNegative
  else if size + exponent < -400 then .finite isNegative 0 0
  else if 0 ≤ exponent then ofRatio isNegative (digits * Nat.pow 10 exponent.toNat) 1
  else ofRatio isNegative digits (Nat.pow 10 (-exponent).toNat)

/-- The whole number that a number is, if it is one. -/
def toInt? : Double → Option Int
  | .finite isNegative m e =>
    let whole : Option Nat :=
      if 0 ≤ e then some (m * Nat.pow 2 e.toNat)
      else if m % Nat.pow 2 (-e).toNat = 0 then some (m / Nat.pow 2 (-e).toNat) else none
    whole.map fun n => if isNegative then -(n : Int) else n
  | _ => none

def isFinite : Double → Bool
  | .finite .. => true
  | _ => false

/-! ## Arithmetic -/

/-- The number as a fraction, if it is finite. -/
def toRatio? : Double → Option (Int × Nat)
  | .finite isNegative m e =>
    let (n, d) := scaled m 1 (-e)
    some (if isNegative then -(n : Int) else n, d)
  | _ => none

def isNegative : Double → Bool
  | .finite isNegative _ _ | .infinite isNegative => isNegative
  | .nan => false

/-- The number with the opposite sign. -/
def neg : Double → Double
  | .finite isNegative m e => .finite (!isNegative) m e
  | .infinite isNegative => .infinite (!isNegative)
  | .nan => .nan

/-- The sum of two numbers, rounded. -/
def add (a b : Double) : Double :=
  match a.toRatio?, b.toRatio? with
  | some (n, d), some (n', d') =>
    let sum := n * d' + n' * d
    ofRatio (if sum = 0 then a.isNegative && b.isNegative else sum < 0) sum.natAbs (d * d')
  | none, some _ => a
  | some _, none => b
  | none, none => if a = b then a else .nan

/-- The product of two numbers, rounded. -/
def mul (a b : Double) : Double :=
  let isNegative := a.isNegative != b.isNegative
  match a.toRatio?, b.toRatio? with
  | some (n, d), some (n', d') => ofRatio isNegative (n * n').natAbs (d * d')
  | some (n, _), none | none, some (n, _) =>
    if n = 0 || a = .nan || b = .nan then .nan else .infinite isNegative
  | none, none => if a = .nan || b = .nan then .nan else .infinite isNegative

/-! ## Reading -/

/-- Reads digits with an optional point and exponent: `12`, `1.5`, `.5`, `1.`, `2e-3`. -/
def readDecimal (isNegative : Bool) (text : List Char) : Option Double :=
  let whole := text.takeWhile isAsciiDigit
  let afterWhole := text.drop whole.length
  let hasPoint := afterWhole.head? = some '.'
  let fraction := if hasPoint then (afterWhole.drop 1).takeWhile isAsciiDigit else []
  let rest := afterWhole.drop (if hasPoint then 1 + fraction.length else 0)
  let value (exponent : Int) :=
    some (ofDecimal isNegative (digitsValue (whole ++ fraction)) (exponent - fraction.length))
  if whole.isEmpty && fraction.isEmpty then none
  else
    match rest with
    | [] => value 0
    | mark :: rest =>
      if mark != 'e' && mark != 'E' then none
      else
        let digits := if rest.head? = some '-' || rest.head? = some '+' then rest.drop 1 else rest
        if digits.isEmpty || !digits.all isAsciiDigit then none
        else value (if rest.head? = some '-' then -(digitsValue digits : Int) else digitsValue digits)

/-! ## Writing -/

/-- Whether `digits * 10 ^ exponent` reads back as the number. -/
def readsBack (m : Nat) (e : Int) (digits : Nat) (exponent : Int) : Bool :=
  ofDecimal false digits exponent == .finite false m e

/-- The neighbours of the positive fraction `num / den` among the multiples of `10 ^ exponent`, the
nearer one first; of two equally near the even one is. -/
def neighbours (num den : Nat) (exponent : Int) : List Nat :=
  let n := num * Nat.pow 10 (-exponent).toNat
  let d := den * Nat.pow 10 exponent.toNat
  let below := n / d
  if n % d = 0 then [below]
  else if roundQuotient n d = below then [below, below + 1] else [below + 1, below]

/-- The greatest `k ≤ start` with `10 ^ k ≤ num / den`, at most `fuel` steps below. -/
def orderFrom (num den : Nat) : (fuel : Nat) → Int → Int
  | 0, k => k
  | fuel + 1, k =>
    let reached := if 0 ≤ k then den * Nat.pow 10 k.toNat ≤ num else den ≤ num * Nat.pow 10 (-k).toNat
    if reached then k else orderFrom num den fuel (k - 1)

/-- The digits and the exponent of the shortest decimal that reads back, first with `n` digits, then
with more. -/
def shortestFrom (m : Nat) (e : Int) (num den : Nat) (order : Int) :
    (fuel n : Nat) → Nat × Int
  | 0, n =>
    let exponent := order + 1 - n
    ((neighbours num den exponent).headD 0, exponent)
  | fuel + 1, n =>
    let exponent := order + 1 - n
    match (neighbours num den exponent).find? fun digits => readsBack m e digits exponent with
    | some digits => (digits, exponent)
    | none => shortestFrom m e num den order fuel (n + 1)

/-- The exponents that are written without an exponent mark. -/
def isPositional (order : Int) : Bool := -4 ≤ order && order < 16

/-- Digits with a point after the first `n` of them. -/
def withPoint (digits : List Char) (n : Int) : List Char :=
  if n ≤ 0 then '0' :: '.' :: List.replicate (-n).toNat '0' ++ digits
  else if digits.length ≤ n.toNat then
    digits ++ List.replicate (n.toNat - digits.length) '0' ++ ['.', '0']
  else digits.take n.toNat ++ '.' :: digits.drop n.toNat

/-- Digits with a point after the first of them, if there are more, and an exponent of two digits at
least. -/
def withExponent (digits : List Char) (order : Int) : List Char :=
  let power := Nat.toDigits 10 order.natAbs
  digits.take 1 ++ (if digits.length ≤ 1 then [] else '.' :: digits.drop 1) ++
    ['e', if order < 0 then '-' else '+'] ++ List.replicate (2 - power.length) '0' ++ power

/-- The text of a number, with the fewest digits that read back. -/
def text : Double → String
  | .nan => "nan"
  | .infinite isNegative => if isNegative then "-inf" else "inf"
  | .finite isNegative m e =>
    let sign := if isNegative then ['-'] else []
    if m = 0 then String.ofList (sign ++ ['0', '.', '0'])
    else
      let (num, den) := scaled m 1 (-e)
      let order := orderFrom num den 660 330
      let (digits, exponent) := shortestFrom m e num den order 17 1
      let shown := ((Nat.toDigits 10 digits).reverse.dropWhile (· == '0')).reverse
      let order := (Nat.toDigits 10 digits).length - 1 + exponent
      String.ofList (sign ++
        if isPositional order then withPoint shown (order + 1) else withExponent shown order)

end Double

end LogRef
