import Mathlib.Data.List.TakeWhile
import LogRef.Text.Utf8

/-!
# UTF-8 reads back

Strict reading and writing are inverse to each other: `decode_encode` and `encode_of_decode`. Both rest on
`Follows`, which says when bytes are what a first byte asks for: every character is written as such a
sequence, and a step that finds a character has found one. The bytes below 128 stand for themselves only.
-/
namespace LogRef.Utf8

theorem toNat_ofNat {n : Nat} (h : n.isValidChar) : (Char.ofNat n).toNat = n := by
  rw [Char.ofNat, dif_pos h]
  rfl

theorem toUInt8_eq {n : Nat} {b : UInt8} (h : n = b.toNat) : n.toUInt8 = b := by
  subst h; simp

theorem toNat_toUInt8 {n : Nat} (h : n < 256) : n.toUInt8.toNat = n :=
  UInt8.toNat_ofNat_of_lt' h

/-- The bytes `tail` are what the byte `first` asks for. -/
structure Follows (first : UInt8) (tail : Bytes) : Prop where
  count : following first = some tail.length
  second : ∀ b bs, tail = b :: bs → isSecond first b = true
  others : ∀ b bs, tail = b :: bs → ∀ x ∈ bs, isContinuation x = true

theorem following_eq (b : UInt8) : following b =
    if b.toNat < 0x80 then some 0 else if b.toNat < 0xC2 then none
    else if b.toNat < 0xE0 then some 1 else if b.toNat < 0xF0 then some 2
    else if b.toNat < 0xF5 then some 3 else none := by
  simp [following, UInt8.lt_iff_toNat_lt]

/-- How many bytes follow decides the range of the first one. -/
theorem following_iff {b : UInt8} {n : Nat} : following b = some n ↔
    (n = 0 ∧ b.toNat < 0x80) ∨ (n = 1 ∧ 0xC2 ≤ b.toNat ∧ b.toNat < 0xE0) ∨
    (n = 2 ∧ 0xE0 ≤ b.toNat ∧ b.toNat < 0xF0) ∨ (n = 3 ∧ 0xF0 ≤ b.toNat ∧ b.toNat < 0xF5) := by
  rw [following_eq]
  split
  · rw [Option.some.injEq]; omega
  · split
    · simp only [reduceCtorEq, false_iff]; omega
    · split
      · rw [Option.some.injEq]; omega
      · split
        · rw [Option.some.injEq]; omega
        · split
          · rw [Option.some.injEq]; omega
          · simp only [reduceCtorEq, false_iff]; omega

theorem isContinuation_iff (b : UInt8) :
    isContinuation b = true ↔ 0x80 ≤ b.toNat ∧ b.toNat ≤ 0xBF := by
  simp [isContinuation, UInt8.le_iff_toNat_le]

/-- What the second byte may be, one condition for each first byte that narrows it down. -/
theorem isSecond_iff {first b : UInt8} : isSecond first b = true ↔
    0x80 ≤ b.toNat ∧ b.toNat ≤ 0xBF ∧ (first.toNat = 0xE0 → 0xA0 ≤ b.toNat) ∧
    (first.toNat = 0xF0 → 0x90 ≤ b.toNat) ∧ (first.toNat = 0xED → b.toNat ≤ 0x9F) ∧
    (first.toNat = 0xF4 → b.toNat ≤ 0x8F) := by
  have he (n : UInt8) : (first = n) = (first.toNat = n.toNat) := by rw [UInt8.toNat_inj]
  simp only [isSecond, he, Bool.and_eq_true, decide_eq_true_eq, UInt8.le_iff_toNat_le]
  simp only [show (0xE0 : UInt8).toNat = 0xE0 from rfl, show (0xF0 : UInt8).toNat = 0xF0 from rfl,
    show (0xED : UInt8).toNat = 0xED from rfl, show (0xF4 : UInt8).toNat = 0xF4 from rfl]
  split <;> split <;> (try split) <;> (try split) <;> (simp only [UInt8.reduceToNat]; omega)

theorem Follows.nil {first : UInt8} (hcount : following first = some 0) : Follows first [] where
  count := hcount
  second := by rintro _ _ ⟨⟩
  others := by rintro _ _ ⟨⟩

theorem Follows.cons {first b : UInt8} {bs : Bytes} (hcount : following first = some (bs.length + 1))
    (hsecond : isSecond first b = true) (hothers : ∀ x ∈ bs, isContinuation x = true) : Follows first (b :: bs) where
  count := hcount
  second := by rintro _ _ ⟨⟩; exact hsecond
  others := by rintro _ _ ⟨⟩; exact hothers

theorem continuation_append {first : UInt8} {tail : Bytes} (h : Follows first tail) (rest : Bytes) :
    continuation first tail.length (tail ++ rest) = tail := by
  unfold continuation
  rw [List.take_left' rfl]
  cases tail with
  | nil => rfl
  | cons b bs =>
    simp only [h.second b bs rfl, if_true, List.cons.injEq, true_and]
    exact List.takeWhile_eq_self_iff.mpr (h.others b bs rfl)

theorem step_append {first : UInt8} {tail : Bytes} (h : Follows first tail) (rest : Bytes) :
    step first (tail ++ rest) = .char (Char.ofNat (codePoint first tail)) (tail.length + 1) := by
  unfold step
  rw [h.count]
  simp only [continuation_append h, if_true]

theorem continuation_cases (first : UInt8) (n : Nat) (rest : Bytes) :
    continuation first n rest = [] ∨ ∃ b bs, rest.take n = b :: bs ∧ isSecond first b = true ∧
      continuation first n rest = b :: bs.takeWhile isContinuation := by
  unfold continuation
  split
  · exact .inl rfl
  · next b bs htake =>
    split
    · next hsecond => exact .inr ⟨b, bs, htake, hsecond, rfl⟩
    · exact .inl rfl

/-- Where as many bytes continue a sequence as its first byte asks for, nothing was cut off. -/
theorem continuation_full {first : UInt8} {n : Nat} {rest : Bytes} (hn : following first = some n)
    (hlen : (continuation first n rest).length = n) :
    continuation first n rest = rest.take n ∧ Follows first (continuation first n rest) := by
  rcases continuation_cases first n rest with hnil | ⟨b, bs, htake, hsecond, hcons⟩
  · rw [hnil] at hlen ⊢
    subst hlen
    exact ⟨rfl, .nil hn⟩
  · rw [hcons] at hlen ⊢
    have hshort : (b :: bs).length ≤ n := by rw [← htake]; exact List.length_take_le n rest
    have hwhole : bs.takeWhile isContinuation = bs := by
      apply (List.takeWhile_prefix isContinuation).eq_of_length_le
      simp only [List.length_cons] at hlen hshort
      omega
    rw [hwhole] at hlen ⊢
    exact ⟨htake.symm, .cons (by rw [hn, ← hlen]; rfl) hsecond (List.takeWhile_eq_self_iff.mp hwhole)⟩

/-- A step that finds a character has the bytes of one in front of it. -/
theorem step_eq_char {first : UInt8} {rest : Bytes} {c : Char} {size : Nat}
    (h : step first rest = .char c size) : ∃ tail more, rest = tail ++ more ∧ Follows first tail ∧
      size = tail.length + 1 ∧ c = Char.ofNat (codePoint first tail) := by
  unfold step at h
  split at h
  · cases h
  · next n hn =>
    dsimp only at h
    split at h
    · next hlen =>
      cases h
      obtain ⟨htake, hfollows⟩ := continuation_full hn hlen
      exact ⟨_, rest.drop n, by rw [htake, List.take_append_drop], hfollows, by rw [hlen], rfl⟩
    · split at h <;> cases h

theorem codePoint_one (first : UInt8) : codePoint first [] = first.toNat := rfl

theorem codePoint_two (first x : UInt8) :
    codePoint first [x] = (first.toNat - 0xC0) * 64 + (x.toNat - 0x80) := rfl

theorem codePoint_three (first x y : UInt8) :
    codePoint first [x, y] = ((first.toNat - 0xE0) * 64 + (x.toNat - 0x80)) * 64 + (y.toNat - 0x80) := rfl

theorem codePoint_four (first x y z : UInt8) : codePoint first [x, y, z] =
    (((first.toNat - 0xF0) * 64 + (x.toNat - 0x80)) * 64 + (y.toNat - 0x80)) * 64 + (z.toNat - 0x80) := rfl

/-- Every character is written as a first byte with the bytes it asks for. -/
theorem encodeChar_follows (c : Char) : ∃ b bs, encodeChar c = b :: bs ∧ Follows b bs ∧
    codePoint b bs = c.toNat := by
  have hv : c.toNat < 0xD800 ∨ (0xDFFF < c.toNat ∧ c.toNat < 0x110000) := c.valid
  have hlast := toNat_toUInt8 (n := 0x80 + c.toNat % 64) (by omega)
  have hlater := toNat_toUInt8 (n := 0x80 + c.toNat / 64 % 64) (by omega)
  unfold encodeChar
  dsimp only
  split
  · next h1 =>
    have hf := toNat_toUInt8 (n := c.toNat) (by omega)
    exact ⟨_, _, rfl, .nil (following_iff.mpr (by omega)), by rw [codePoint_one, hf]⟩
  split
  · next h1 h2 =>
    have hf := toNat_toUInt8 (n := 0xC0 + c.toNat / 64) (by omega)
    refine ⟨_, _, rfl, .cons ?_ (isSecond_iff.mpr (by omega)) (List.forall_mem_nil _), ?_⟩
    · exact following_iff.mpr (.inr (.inl ⟨rfl, by omega, by omega⟩))
    · rw [codePoint_two, hf, hlast]
      omega
  split
  · next h1 h2 h3 =>
    have hf := toNat_toUInt8 (n := 0xE0 + c.toNat / 4096) (by omega)
    refine ⟨_, _, rfl, .cons ?_ (isSecond_iff.mpr (by omega)) ?_, ?_⟩
    · exact following_iff.mpr (.inr (.inr (.inl ⟨rfl, by omega, by omega⟩)))
    · exact List.forall_mem_singleton.mpr ((isContinuation_iff _).mpr (by omega))
    · rw [codePoint_three, hf, hlater, hlast]
      omega
  · next h1 h2 h3 =>
    have hf := toNat_toUInt8 (n := 0xF0 + c.toNat / 262144) (by omega)
    have hs := toNat_toUInt8 (n := 0x80 + c.toNat / 4096 % 64) (by omega)
    refine ⟨_, _, rfl, .cons ?_ (isSecond_iff.mpr (by omega)) ?_, ?_⟩
    · exact following_iff.mpr (.inr (.inr (.inr ⟨rfl, by omega, by omega⟩)))
    · refine List.forall_mem_cons.mpr ⟨(isContinuation_iff _).mpr (by omega), ?_⟩
      exact List.forall_mem_singleton.mpr ((isContinuation_iff _).mpr (by omega))
    · rw [codePoint_four, hf, hs, hlater, hlast]
      omega

theorem encodeChar_ofNat {n : Nat} (h : n.isValidChar) : encodeChar (Char.ofNat n) =
    if n < 0x80 then [n.toUInt8]
    else if n < 0x800 then [(0xC0 + n / 64).toUInt8, (0x80 + n % 64).toUInt8]
    else if n < 0x10000 then
      [(0xE0 + n / 4096).toUInt8, (0x80 + n / 64 % 64).toUInt8, (0x80 + n % 64).toUInt8]
    else
      [(0xF0 + n / 262144).toUInt8, (0x80 + n / 4096 % 64).toUInt8, (0x80 + n / 64 % 64).toUInt8,
        (0x80 + n % 64).toUInt8] := by
  simp only [encodeChar, toNat_ofNat h]

/-- The bytes that a first byte asks for are those of the character they write. -/
theorem encodeChar_codePoint {first : UInt8} {tail : Bytes} (h : Follows first tail) :
    encodeChar (Char.ofNat (codePoint first tail)) = first :: tail := by
  have hr := following_iff.mp h.count
  match tail, h with
  | [], _ =>
    simp only [List.length_nil] at hr
    rw [codePoint_one, encodeChar_ofNat (Or.inl (by omega)), if_pos (by omega), toUInt8_eq rfl]
  | [x], h =>
    have hx := isSecond_iff.mp (h.second x [] rfl)
    simp only [List.length_cons, List.length_nil] at hr
    rw [codePoint_two, encodeChar_ofNat (Or.inl (by omega)), if_neg (by omega), if_pos (by omega),
      toUInt8_eq (b := first) (by omega), toUInt8_eq (b := x) (by omega)]
  | [x, y], h =>
    have hx := isSecond_iff.mp (h.second x [y] rfl)
    have hy := (isContinuation_iff y).mp (h.others x [y] rfl y (by simp))
    simp only [List.length_cons, List.length_nil] at hr
    have hv : (codePoint first [x, y]).isValidChar := by
      rw [codePoint_three]; unfold Nat.isValidChar; omega
    rw [encodeChar_ofNat hv, codePoint_three, if_neg (by omega), if_neg (by omega), if_pos (by omega),
      toUInt8_eq (b := first) (by omega), toUInt8_eq (b := x) (by omega),
      toUInt8_eq (b := y) (by omega)]
  | [x, y, z], h =>
    have hx := isSecond_iff.mp (h.second x [y, z] rfl)
    have hy := (isContinuation_iff y).mp (h.others x [y, z] rfl y (by simp))
    have hz := (isContinuation_iff z).mp (h.others x [y, z] rfl z (by simp))
    simp only [List.length_cons, List.length_nil] at hr
    have hv : (codePoint first [x, y, z]).isValidChar := by
      rw [codePoint_four]; unfold Nat.isValidChar; omega
    rw [encodeChar_ofNat hv, codePoint_four, if_neg (by omega), if_neg (by omega), if_neg (by omega),
      toUInt8_eq (b := first) (by omega), toUInt8_eq (b := x) (by omega),
      toUInt8_eq (b := y) (by omega), toUInt8_eq (b := z) (by omega)]
  | _ :: _ :: _ :: _ :: _, _ =>
    simp only [List.length_cons] at hr
    omega

theorem encode_cons (c : Char) (cs : List Char) : encode (c :: cs) = encodeChar c ++ encode cs := rfl

theorem encode_append (a b : List Char) : encode (a ++ b) = encode a ++ encode b := by
  simp [encode]

theorem decodeFrom_skip (position : Nat) (bs rest : Bytes) :
    decodeFrom position bs.length (bs ++ rest) = decodeFrom (position + bs.length) 0 rest := by
  induction bs generalizing position with
  | nil => cases rest <;> rfl
  | cons b bs ih =>
    simp only [List.length_cons, List.cons_append, decodeFrom]
    rw [ih, Nat.add_assoc, Nat.add_comm 1]

theorem decodeFrom_encode (position : Nat) (cs : List Char) :
    decodeFrom position 0 (encode cs) = .ok cs := by
  induction cs generalizing position with
  | nil => rfl
  | cons c cs ih =>
    obtain ⟨b, bs, he, hf, hp⟩ := encodeChar_follows c
    rw [encode_cons, he, List.cons_append]
    simp only [decodeFrom, step_append hf, hp, Char.ofNat_toNat, Nat.add_sub_cancel]
    rw [decodeFrom_skip, ih]
    rfl

theorem encode_of_decodeFrom {position : Nat} {b : Bytes} {cs : List Char}
    (h : decodeFrom position 0 b = .ok cs) : encode cs = b := by
  -- on the number of bytes: a step takes at least one
  induction hn : b.length using Nat.strongRecOn generalizing b cs position with
  | _ n ih =>
    cases b with
    | nil => cases h; rfl
    | cons first rest =>
      simp only [decodeFrom] at h
      split at h
      · next c size hs =>
        obtain ⟨tail, more, rfl, hf, rfl, rfl⟩ := step_eq_char hs
        rw [Nat.add_sub_cancel, decodeFrom_skip] at h
        cases hm : decodeFrom (position + 1 + tail.length) 0 more with
        | error e => rw [hm] at h; cases h
        | ok ds =>
          rw [hm] at h
          cases h
          have hlt : more.length < n := by
            rw [← hn]; simp only [List.length_cons, List.length_append]; omega
          rw [encode_cons, encodeChar_codePoint hf, ih more.length hlt hm rfl, List.cons_append]
      · cases h

theorem decode_encode (cs : List Char) : decode (encode cs) = .ok cs := decodeFrom_encode 0 cs

theorem encode_of_decode {b : Bytes} {cs : List Char} (h : decode b = .ok cs) : encode cs = b :=
  encode_of_decodeFrom h

/-- Strict reading succeeds on exactly what writing gives. -/
theorem decode_eq_ok_iff {b : Bytes} {cs : List Char} : decode b = .ok cs ↔ b = encode cs :=
  ⟨fun h => (encode_of_decode h).symm, fun h => h ▸ decode_encode cs⟩

/-- A byte below 128 is written by the character of that number alone, and is all there is of it. -/
theorem encodeChar_of_mem_ascii {c : Char} {b : UInt8} (hb : b ∈ encodeChar c)
    (h : b.toNat < 0x80) : encodeChar c = [b] ∧ c.toNat = b.toNat := by
  obtain ⟨first, tail, he, hf, hp⟩ := encodeChar_follows c
  have hr := following_iff.mp hf.count
  rw [he] at hb ⊢
  cases tail with
  | nil =>
    rw [List.mem_singleton] at hb
    subst hb
    exact ⟨rfl, hp.symm⟩
  | cons x xs =>
    exfalso
    rw [List.length_cons] at hr
    rw [List.mem_cons, List.mem_cons] at hb
    obtain rfl | rfl | hx := hb
    · omega
    · have := isSecond_iff.mp (hf.second b xs rfl); omega
    · have := (isContinuation_iff b).mp (hf.others x xs rfl b hx); omega

theorem encodeChar_ascii {c : Char} (h : c.toNat < 0x80) : encodeChar c = [c.toNat.toUInt8] := by
  unfold encodeChar
  exact if_pos h

theorem encodeChar_ne_nil (c : Char) : encodeChar c ≠ [] := by
  obtain ⟨b, bs, he, _⟩ := encodeChar_follows c
  rw [he]; exact List.cons_ne_nil b bs

theorem decodeLossyFrom_skip (tail rest : Bytes) :
    decodeLossyFrom tail.length (tail ++ rest) = decodeLossyFrom 0 rest := by
  induction tail with
  | nil => rfl
  | cons x tail ih => exact ih

theorem decodeLossy_encode_append (cs : List Char) (b : Bytes) :
    decodeLossy (encode cs ++ b) = cs ++ decodeLossy b := by
  unfold decodeLossy
  induction cs with
  | nil => rfl
  | cons c cs ih =>
    obtain ⟨first, tail, he, hf, hp⟩ := encodeChar_follows c
    rw [encode_cons, he, List.cons_append, List.cons_append, List.append_assoc]
    simp only [decodeLossyFrom, step_append hf, hp, Char.ofNat_toNat, Nat.add_sub_cancel]
    rw [decodeLossyFrom_skip, ih, List.cons_append]

theorem exists_continuation (first : UInt8) (n : Nat) (rest : Bytes) :
    ∃ more, rest = continuation first n rest ++ more ∧
      ∀ x ∈ continuation first n rest, 0x80 ≤ x.toNat := by
  rcases continuation_cases first n rest with hnil | ⟨b, bs, htake, hsecond, hcons⟩
  · rw [hnil]
    exact ⟨rest, rfl, List.forall_mem_nil _⟩
  · rw [hcons]
    refine ⟨bs.dropWhile isContinuation ++ rest.drop n, ?_, fun x hx => ?_⟩
    · rw [List.cons_append, ← List.append_assoc, List.takeWhile_append_dropWhile, ← List.cons_append, ← htake,
        List.take_append_drop]
    · rcases List.mem_cons.mp hx with rfl | hx
      · exact (isSecond_iff.mp hsecond).1
      · exact ((isContinuation_iff x).mp (List.mem_takeWhile_imp hx)).1

/-- What is read as one character: a byte, and bytes above 127 behind it. -/
theorem exists_decodeLossyFrom_cons (first : UInt8) (rest : Bytes) :
    ∃ tail more c, rest = tail ++ more ∧ (∀ x ∈ tail, 0x80 ≤ x.toNat) ∧
      decodeLossyFrom 0 (first :: rest) = c :: decodeLossyFrom 0 more ∧
        (first.toNat < 0x80 → c = Char.ofNat first.toNat) := by
  have hfirst (h : first.toNat < 0x80) : following first = some 0 := by rw [following_eq, if_pos h]
  rw [decodeLossyFrom, step]
  cases hn : following first with
  | none =>
    refine ⟨[], rest, _, rfl, fun _ hx => (List.not_mem_nil hx).elim, rfl, fun h => ?_⟩
    rw [hfirst h] at hn
    cases hn
  | some n =>
    obtain ⟨more, hrest, htail⟩ := exists_continuation first n rest
    have hskip : decodeLossyFrom (continuation first n rest).length rest = decodeLossyFrom 0 more := by
      conv => lhs; arg 2; rw [hrest]
      exact decodeLossyFrom_skip _ _
    dsimp only
    by_cases hlen : (continuation first n rest).length = n
    · rw [if_pos hlen]
      refine ⟨_, more, _, hrest, htail, by rw [← hskip, hlen]; rfl, fun h => ?_⟩
      obtain rfl : 0 = n := Option.some.inj ((hfirst h).symm.trans hn)
      rw [List.length_eq_zero_iff.mp hlen]
      rfl
    · rw [if_neg hlen]
      have hlong (h : first.toNat < 0x80) : False := by
        obtain rfl : 0 = n := Option.some.inj ((hfirst h).symm.trans hn)
        exact hlen rfl
      by_cases hmore : (continuation first n rest).length < rest.length
      · rw [if_pos hmore]
        exact ⟨_, more, _, hrest, htail, by rw [← hskip]; rfl, fun h => (hlong h).elim⟩
      · rw [if_neg hmore]
        exact ⟨_, more, _, hrest, htail, by rw [← hskip]; rfl, fun h => (hlong h).elim⟩

/-- A byte below 128 is read as its character, whatever is around it. -/
theorem mem_decodeLossy {b : UInt8} {bytes : Bytes} (hb : b.toNat < 0x80) (h : b ∈ bytes) :
    Char.ofNat b.toNat ∈ decodeLossy bytes := by
  unfold decodeLossy
  induction hlen : bytes.length using Nat.strongRecOn generalizing bytes with
  | ind size ih =>
    cases bytes with
    | nil => cases h
    | cons first rest =>
      obtain ⟨tail, more, c, rfl, htail, hstep, hc⟩ := exists_decodeLossyFrom_cons first rest
      rw [hstep]
      rcases List.mem_cons.mp h with rfl | h
      · rw [hc hb]
        exact List.mem_cons_self
      · have hmore : b ∈ more := by
          refine (List.mem_append.mp h).resolve_left fun hx => ?_
          have := htail b hx
          omega
        refine List.mem_cons_of_mem _ (ih more.length ?_ hmore rfl)
        rw [← hlen, List.length_cons, List.length_append]
        omega

end LogRef.Utf8
