import LogRef.Proofs.Text.Encoding
import LogRef.Rust.Lexeme

/-!
# How far lexemes reach

Every scanner answers a number of bytes that are there: no lexeme reaches past the end of the source.
-/
namespace LogRef

theorem Utf8.step_size_le {b : UInt8} {rest : Bytes} {c : Char} {size : Nat} (h : Utf8.step b rest = .char c size) :
    size ≤ rest.length + 1 := by
  obtain ⟨tail, more, rfl, _, rfl, _⟩ := Utf8.step_eq_char h
  rw [List.length_append]
  omega

namespace Rust

variable {bytes rest : Bytes} {b : UInt8} {n skip : Nat}

theorem beginsWith_length {text : String} (h : beginsWith text bytes = true) :
    (Bytes.ofString text).length ≤ bytes.length := (List.isPrefixOf_iff_prefix.mp h).length_le

/-- Where a single character is ahead, there is a byte. -/
theorem length_pos_of_beginsWith {text : String} (h : beginsWith text (bytes.drop n) = true)
    (htext : 0 < (Bytes.ofString text).length) : n < bytes.length := by
  have := beginsWith_length h
  rw [List.length_drop] at this
  omega

theorem takeWhile_drop_length (p : UInt8 → Bool) (bytes : Bytes) (n : Nat) :
    ((bytes.drop n).takeWhile p).length ≤ bytes.length - n := by
  have := (List.takeWhile_prefix p (l := bytes.drop n)).length_le
  rwa [List.length_drop] at this

/-- A lexeme at the front of `n` bytes does not reach past them, and a closing bracket is a single byte. -/
structure FitsIn (n : Nat) (first : Lexeme.Kind × Nat) : Prop where
  inside : first.2 ≤ n
  closer : ∀ bracket, first.1 = .closer bracket → first.2 = 1

theorem FitsIn.of_le {kind : Lexeme.Kind} {size : Nat} (h : size ≤ n) (hkind : ∀ bracket, kind ≠ .closer bracket) :
    FitsIn n (kind, size) := ⟨h, fun bracket hcloser => absurd hcloser (hkind bracket)⟩

/-! ## Words and characters -/

theorem identTail_le (skip : Nat) (bytes : Bytes) : identTail skip bytes ≤ bytes.length := by
  induction bytes generalizing skip with
  | nil => cases skip <;> exact Nat.le_refl 0
  | cons b rest ih =>
    cases skip with
    | succ skip => exact Nat.succ_le_succ (ih skip)
    | zero =>
      rw [identTail]
      split
      · split
        · exact Nat.succ_le_succ (ih _)
        · exact Nat.zero_le _
      · exact Nat.zero_le _

theorem wordLength_le (bytes : Bytes) : wordLength bytes ≤ bytes.length := by
  cases bytes with
  | nil => exact Nat.le_refl 0
  | cons b rest =>
    rw [wordLength]
    split
    · split
      · exact Nat.succ_le_succ (identTail_le _ rest)
      · exact Nat.zero_le _
    · exact Nat.zero_le _

theorem charSize_le (bytes : Bytes) : charSize bytes ≤ bytes.length := by
  cases bytes with
  | nil => exact Nat.le_refl 0
  | cons b rest =>
    rw [charSize]
    split
    · next h => exact Utf8.step_size_le h
    · exact Nat.succ_le_succ (Nat.zero_le _)

theorem charLiteralTail_le (h : charLiteralTail bytes = some n) : n ≤ bytes.length := by
  unfold charLiteralTail at h
  obtain ⟨m, _, hm⟩ := Option.bind_eq_some_iff.mp h
  split at hm
  · next hclose =>
    cases hm
    exact length_pos_of_beginsWith hclose (by decide)
  · cases hm

/-! ## Strings and comments -/

theorem stringTail_le : ∀ {bytes : Bytes} {n : Nat}, stringTail bytes = some n → n ≤ bytes.length
  | [], n, h => by cases h
  | b :: rest, n, h => by
    rw [stringTail.eq_def] at h
    dsimp only at h
    split at h
    · cases h
      exact Nat.succ_le_succ (Nat.zero_le _)
    · split at h
      · -- the byte behind a backslash is part of the string, whatever it is
        cases rest with
        | nil => cases h
        | cons c more =>
          obtain ⟨m, hm, rfl⟩ := Option.map_eq_some_iff.mp h
          exact Nat.succ_le_succ (Nat.succ_le_succ (stringTail_le hm))
      · obtain ⟨m, hm, rfl⟩ := Option.map_eq_some_iff.mp h
        exact Nat.succ_le_succ (stringTail_le hm)

theorem rawStringTail_le {hashes : Nat} (h : rawStringTail hashes bytes = some n) : n ≤ bytes.length := by
  induction bytes generalizing n with
  | nil => cases h
  | cons b rest ih =>
    rw [rawStringTail] at h
    split at h
    · next hclose =>
      cases h
      have hlen := congrArg List.length hclose.2
      rw [List.length_take, List.length_replicate] at hlen
      rw [List.length_cons]
      omega
    · obtain ⟨m, hm, rfl⟩ := Option.map_eq_some_iff.mp h
      exact Nat.succ_le_succ (ih hm)

theorem blockCommentTail_le {depth pair : Nat} {half : Half}
    (h : blockCommentTail skip depth half bytes = some (pair, n)) : n ≤ bytes.length := by
  induction bytes generalizing skip depth half pair n with
  | nil => cases skip <;> cases h
  | cons b rest ih =>
    have hnext {skip depth : Nat} {half : Half} {next : Nat × Nat → Nat × Nat}
        (hsnd : ∀ tail, (next tail).2 = tail.2 + 1)
        (h : (blockCommentTail skip depth half rest).map next = some (pair, n)) : n ≤ (b :: rest).length := by
      obtain ⟨tail, htail, heq⟩ := Option.map_eq_some_iff.mp h
      have hn : n = tail.2 + 1 := (congrArg Prod.snd heq).symm.trans (hsnd tail)
      rw [hn]
      exact Nat.succ_le_succ (ih htail)
    cases skip with
    | succ skip => exact hnext (fun _ => rfl) h
    | zero =>
      cases hs : Utf8.step b rest with
      | char c size =>
        have hsize := Utf8.step_size_le hs
        simp only [blockCommentTail, hs] at h
        repeat' split at h
        all_goals first
          | exact hnext (fun _ => rfl) h
          | cases h; exact hsize
      | bad size reason =>
        simp only [blockCommentTail, hs] at h
        repeat' split at h
        all_goals first
          | exact hnext (fun _ => rfl) h
          | cases h; exact Nat.succ_le_succ (Nat.zero_le _)

theorem commentLexeme_fits (bytes : Bytes) : FitsIn bytes.length (commentLexeme bytes) := by
  unfold commentLexeme
  split
  · next pair n h =>
    have hle := blockCommentTail_le h
    have hsome : bytes.drop 2 ≠ [] := fun hnil => by rw [hnil] at h; cases h
    have hlen := List.length_pos_iff.mpr hsome
    rw [List.length_drop] at hle hlen
    split
    · exact .of_le (by omega) nofun
    · exact .of_le (by omega) nofun
  · exact .of_le (Nat.le_refl _) nofun

theorem stringLexeme_fits (bytes : Bytes) (n : Nat) (hn : n ≤ bytes.length) :
    FitsIn bytes.length (stringLexeme bytes n) := by
  unfold stringLexeme
  dsimp only
  split
  · next h =>
    have hle := stringTail_le h
    rw [List.length_drop] at hle
    refine .of_le (by omega) fun bracket hkind => ?_
    split at hkind
    · cases hkind
    · cases hkind
  · exact .of_le (Nat.le_refl _) nofun

theorem rawStringHead_le {head hashes : Nat} (h : rawStringHead bytes = some (head, hashes)) :
    head ≤ bytes.length := by
  unfold rawStringHead at h
  extract_lets lead hashes' at h
  split at h
  · next hquote =>
    obtain ⟨rfl, rfl⟩ := Prod.mk.inj (Option.some.inj h)
    have := length_pos_of_beginsWith (Bool.and_eq_true_iff.mp hquote).2 (by decide)
    omega
  · cases h

theorem rawStringLexeme_fits (bytes : Bytes) (n hashes : Nat) (hn : n ≤ bytes.length) :
    FitsIn bytes.length (rawStringLexeme bytes n hashes) := by
  unfold rawStringLexeme
  split
  · next h =>
    have hle := rawStringTail_le h
    rw [List.length_drop] at hle
    exact .of_le (by omega) nofun
  · exact .of_le (Nat.le_refl _) nofun

/-! ## Numbers -/

theorem fraction_le (bytes : Bytes) :
    (if beginsWith "." bytes then ((bytes.drop 1).takeWhile isNumberByte).length + 1 else 0) ≤ bytes.length := by
  split
  · next h =>
    have hdigits := takeWhile_drop_length isNumberByte bytes 1
    have hdot := length_pos_of_beginsWith (n := 0) h (by decide)
    omega
  · exact Nat.zero_le _

/-- The sign of an exponent, if there is one. -/
def signLength (bytes : Bytes) : Nat :=
  if beginsWith "+" (bytes.drop 1) || beginsWith "-" (bytes.drop 1) then 1 else 0

theorem exponent_le (bytes : Bytes) :
    (if beginsWith "e" bytes || beginsWith "E" bytes then
      signLength bytes + 1 + ((bytes.drop (signLength bytes + 1)).takeWhile isNumberByte).length else 0) ≤
        bytes.length := by
  split
  · next h =>
    have hletter : 0 < bytes.length := by
      rcases Bool.or_eq_true_iff.mp h with h | h
      · exact length_pos_of_beginsWith (n := 0) h (by decide)
      · exact length_pos_of_beginsWith (n := 0) h (by decide)
    have hsign : signLength bytes < bytes.length := by
      unfold signLength
      split
      · next hsign =>
        rcases Bool.or_eq_true_iff.mp hsign with h | h
        · exact length_pos_of_beginsWith h (by decide)
        · exact length_pos_of_beginsWith h (by decide)
      · exact hletter
    have hpower := takeWhile_drop_length isNumberByte bytes (signLength bytes + 1)
    omega
  · exact Nat.zero_le _

theorem suffix_le (isSuffix : UInt8 → Bool) (bytes : Bytes) :
    (if bytes.head?.any isSuffix && decide (0 < ((bytes.drop 1).takeWhile isDigitByte).length) then
      ((bytes.drop 1).takeWhile isDigitByte).length + 1 else 0) ≤ bytes.length := by
  split
  · next h =>
    have hdigits := takeWhile_drop_length isDigitByte bytes 1
    have hsome := of_decide_eq_true (Bool.and_eq_true_iff.mp h).2
    omega
  · exact Nat.zero_le _

theorem floatLength_le (h : floatLength bytes = some n) : n ≤ bytes.length := by
  unfold floatLength at h
  extract_lets whole afterWhole hasFraction afterDot isField fraction afterFraction hasExponent sign power exponent
    afterExponent width hasSuffix suffix goOn goOn' at h
  have hwhole : whole ≤ bytes.length := (List.takeWhile_prefix isNumberByte).length_le
  have hfraction : fraction ≤ afterWhole.length := fraction_le afterWhole
  have hexponent : exponent ≤ afterFraction.length := exponent_le afterFraction
  have hsuffix : suffix ≤ afterExponent.length := suffix_le _ afterExponent
  have h1 : afterWhole.length = bytes.length - whole := List.length_drop
  have h2 : afterFraction.length = afterWhole.length - fraction := List.length_drop
  have h3 : afterExponent.length = afterFraction.length - exponent := List.length_drop
  split at h
  · cases h
  · simp only [goOn', goOn] at h
    split at h
    · cases h
    · split at h
      · cases h
        omega
      · cases h
        omega

theorem basedLength_le {mark : String} {isDigit : UInt8 → Bool} (h : basedLength mark isDigit bytes = some n) :
    n ≤ bytes.length := by
  unfold basedLength at h
  extract_lets digits at h
  have hdigits : digits ≤ bytes.length - 2 := takeWhile_drop_length _ bytes 2
  split at h
  · next hmark =>
    cases h
    have hsome := of_decide_eq_true (Bool.and_eq_true_iff.mp hmark).2
    omega
  · cases h

theorem orElse_le {x y : Option Nat} {most : Nat} (hx : ∀ n, x = some n → n ≤ most)
    (hy : ∀ n, y = some n → n ≤ most) : ∀ n, (x <|> y) = some n → n ≤ most := by
  cases x with
  | none => exact hy
  | some _ => exact hx

theorem getD_le {x : Option Nat} {other most : Nat} (hx : ∀ n, x = some n → n ≤ most) (hother : other ≤ most) :
    x.getD other ≤ most := by
  cases x with
  | none => exact hother
  | some n => exact hx n rfl

theorem intLength_le (bytes : Bytes) : intLength bytes ≤ bytes.length := by
  unfold intLength
  extract_lets body suffix
  have hbody : body ≤ bytes.length :=
    getD_le (orElse_le (fun _ => basedLength_le) (orElse_le (fun _ => basedLength_le) fun _ => basedLength_le))
      (List.takeWhile_prefix _).length_le
  cases hsuffix : suffix with
  | none => exact hbody
  | some text =>
    have hmem := List.mem_of_find?_eq_some hsuffix
    have hahead : beginsWith text (bytes.drop body) = true := by
      simpa using List.find?_some hsuffix
    -- the names of types are ASCII
    have hascii : ∀ text ∈ numberSuffixes, (Bytes.ofString text).length = text.length ∧ 0 < text.length := by decide
    have hlength := beginsWith_length hahead
    rw [(hascii text hmem).1, List.length_drop] at hlength
    have hpos := (hascii text hmem).2
    simp only [Option.map_some, Option.getD_some]
    omega

/-! ## The lexeme ahead -/

theorem metavariableLength_le (bytes : Bytes) : metavariableLength bytes ≤ bytes.length := by
  unfold metavariableLength
  extract_lets name
  split
  · next h =>
    have hdollar := length_pos_of_beginsWith (n := 0) (Bool.and_eq_true_iff.mp h).1 (by decide)
    have hname : (name.takeWhile isWordByte).length ≤ bytes.length - 1 := takeWhile_drop_length isWordByte bytes 1
    omega
  · exact Nat.zero_le _

theorem wideBlankLength_le (b : UInt8) (rest : Bytes) : wideBlankLength b rest ≤ rest.length + 1 := by
  unfold wideBlankLength
  split
  · next h =>
    split
    · exact Utf8.step_size_le h
    · exact Nat.zero_le _
  · exact Nat.zero_le _

theorem rawWordLength_le (bytes : Bytes)
    (h : 0 < if beginsWith "r#" bytes then wordLength (bytes.drop 2) else 0) :
    (if beginsWith "r#" bytes then wordLength (bytes.drop 2) else 0) + 2 ≤ bytes.length := by
  split at h
  · next hmark =>
    have hword := wordLength_le (bytes.drop 2)
    have htwo : 2 ≤ bytes.length := beginsWith_length hmark
    rw [List.length_drop] at hword
    rw [if_pos hmark]
    omega
  · exact absurd h (Nat.lt_irrefl 0)

theorem charLength_le (b : UInt8) (rest : Bytes) :
    ∀ n, (if beginsWith "'" (b :: rest) then (charLiteralTail rest).map (· + 1)
      else if beginsWith "b'" (b :: rest) then (charLiteralTail (rest.drop 1)).map (· + 2)
      else none) = some n → n ≤ (b :: rest).length := by
  intro n h
  split at h
  · obtain ⟨m, hm, rfl⟩ := Option.map_eq_some_iff.mp h
    exact Nat.succ_le_succ (charLiteralTail_le hm)
  · split at h
    · next hlead =>
      obtain ⟨m, hm, rfl⟩ := Option.map_eq_some_iff.mp h
      have htail := charLiteralTail_le hm
      have htwo : 2 ≤ (b :: rest).length := beginsWith_length hlead
      rw [List.length_drop] at htail
      rw [List.length_cons] at htwo ⊢
      omega
    · cases h

theorem firstLexeme_fits (m : Bool) (b : UInt8) (rest : Bytes) : FitsIn (b :: rest).length (firstLexeme m b rest) := by
  have hone : 1 ≤ (b :: rest).length := Nat.succ_le_succ (Nat.zero_le _)
  have htwo {text : String} (h : beginsWith text (b :: rest) = true) (htext : (Bytes.ofString text).length = 2) :
      2 ≤ (b :: rest).length := htext ▸ beginsWith_length h
  unfold firstLexeme
  refine iteInduction (fun _ => .of_le hone nofun) fun _ => ?_
  refine iteInduction (fun _ => .of_le (List.takeWhile_prefix _).length_le nofun) fun _ => ?_
  refine iteInduction (fun _ => commentLexeme_fits _) fun _ => ?_
  refine iteInduction (fun _ => .of_le (getD_le (fun _ => floatLength_le) (intLength_le _)) nofun) fun _ => ?_
  refine iteInduction (fun _ => .of_le (metavariableLength_le _) nofun) fun _ => ?_
  cases hraw : rawStringHead (b :: rest) with
  | some head => exact rawStringLexeme_fits _ _ _ (rawStringHead_le hraw)
  | none =>
    refine iteInduction (fun _ => stringLexeme_fits _ 1 hone) fun _ => ?_
    refine iteInduction (fun h => stringLexeme_fits _ 2 ?_) fun _ => ?_
    · rcases Bool.or_eq_true_iff.mp h with h | h
      · exact htwo h (by decide)
      · exact htwo h (by decide)
    · have hchar := charLength_le b rest
      have hword := rawWordLength_le (b :: rest)
      extract_lets char rawWord
      cases hliteral : char with
      | some n => exact .of_le (hchar n hliteral) nofun
      | none =>
        refine iteInduction (fun h => .of_le (hword h) nofun) fun _ => ?_
        refine iteInduction (fun _ => .of_le (wordLength_le _) nofun) fun _ => ?_
        refine iteInduction (fun _ => .of_le (wideBlankLength_le b rest) nofun) fun _ => ?_
        cases bracketKind b with
        | some kind => exact ⟨hone, fun _ _ => rfl⟩
        | none => exact iteInduction (fun _ => .of_le hone nofun) fun _ => .of_le (charSize_le _) nofun

end Rust

end LogRef
