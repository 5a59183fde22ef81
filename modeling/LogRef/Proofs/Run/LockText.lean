import LogRef.Proofs.Text.Encoding
import LogRef.Proofs.Yaml.Numbers
import LogRef.Run.Lock

/-!
# Lock files read back

The text that is written for an id is a document with one pair, and it is read as that id.
-/
namespace LogRef.Lock

open Yaml

variable {digits : List Char}

/-! ## Tokens -/

/-- What a lock file begins with, up to the id. -/
def opening : List Char := (banner ++ key ++ ": ").toList

theorem toList_text (n : Nat) : (text n).toList = opening ++ (digitsOf n ++ ['\n']) := by
  have h : text n = banner ++ key ++ ": " ++ toString n ++ "\n" := rfl
  rw [h, String.toList_append, String.toList_append, List.append_assoc,
    show (toString n).toList = digitsOf n from Nat.toList_repr]
  rfl

/-- What has been read of a lock file before its key, with what is left behind its colon. -/
def beforeKey (rest : List Char) : Layout :=
  { Layout.start [] with cursor := ⟨key.toList ++ (':' :: ' ' :: rest), 94, 2, 0⟩ }

/-- What has been read of it before its colon. -/
def afterKey (rest : List Char) : Layout where
  cursor := ⟨':' :: rest, 111, 2, 17⟩
  tokens := #[.scalar ⟨key, true, false⟩]
  level := 0
  indent := -1
  outer := []
  allowsKey := false
  keys := [⟨0, 0, false, 94, 2, 0⟩]

/-- What has been read of it behind its colon. -/
def afterColon (rest : List Char) : Layout where
  cursor := ⟨rest, 112, 2, 18⟩
  tokens := #[.blockMappingStart, .key, .scalar ⟨key, true, false⟩, .value]
  level := 0
  indent := 0
  outer := [-1]
  allowsKey := false
  keys := []

/-- What has been read of it when nothing is left. -/
def afterId (digits : List Char) : Layout where
  cursor := ⟨[], 113 + digits.length + 1, 3, 0⟩
  tokens := (afterColon []).tokens.push (.scalar ⟨String.ofList digits, true, false⟩)
  level := 0
  indent := 0
  outer := [-1]
  allowsKey := true
  keys := []

theorem skipToToken_opening (rest : List Char) :
    (Layout.start (opening ++ rest)).skipToToken ((opening ++ rest).length + 1) = beforeKey rest := by
  cbv

theorem plainScalar_key (rest : List Char) :
    plainScalar false 0 (beforeKey rest).cursor = ⟨key.toList, false, ⟨':' :: ' ' :: rest, 111, 2, 17⟩⟩ := by
  have hlength : plainLength false (key.toList ++ (':' :: ' ' :: rest)) = 17 := by cbv
  unfold plainScalar plainFrom
  simp only [beforeKey, hlength]
  rfl

theorem readPlain_beforeKey (rest : List Char) : (beforeKey rest).readPlain = .ok (afterKey (' ' :: rest)) :=
  let noted : Layout := { beforeKey rest with keys := [⟨0, 0, false, 94, 2, 0⟩] }
  congrArg (fun found : Scanned => Except.ok (((noted.allow found.allowsKey).moveTo found.cursor).put
    (.scalar ⟨String.ofList found.text, true, false⟩))) (plainScalar_key rest)

theorem readNext_opening (rest : List Char) :
    (Layout.start (opening ++ rest)).readNext = .ok (true, afterKey (' ' :: rest)) := by
  unfold Layout.readNext
  rw [show (Layout.start (opening ++ rest)).cursor.rest = opening ++ rest from rfl, skipToToken_opening]
  exact congrArg (Except.map (true, ·)) (readPlain_beforeKey rest)

/-- The colon behind the key opens the outermost block. -/
theorem readValue_afterKey (rest : List Char) : (afterKey rest).readValue = .ok (afterColon rest) := by
  have hopen : (afterKey rest).openBlock 0 = some { afterKey rest with indent := 0, outer := [-1] } :=
    if_pos (show (-1 : Int) < 0 by decide)
  unfold Layout.readValue
  rw [show (afterKey rest).keys.find? (·.level = (afterKey rest).level) = some ⟨0, 0, false, 94, 2, 0⟩ from rfl]
  simp only [show (afterKey rest).inFlow = false from rfl, Bool.false_eq_true, if_false, hopen]
  cbv

theorem readNext_afterKey (rest : List Char) :
    (afterKey (' ' :: rest)).readNext = .ok (true, afterColon (' ' :: rest)) :=
  congrArg (Except.map (true, ·)) (readValue_afterKey (' ' :: rest))

theorem readNext_afterColon (hne : digits ≠ []) (h : ∀ c ∈ digits, isAsciiDigit c = true) :
    (afterColon (' ' :: (digits ++ ['\n']))).readNext = .ok (true, afterId digits) := by
  rw [Layout.readNext_digits hne h rfl rfl rfl rfl rfl]
  rfl

/-- The tokens of a lock file. -/
def tokens (id : String) : List Yaml.Token :=
  [.blockMappingStart, .key, .scalar ⟨key, true, false⟩, .value, .scalar ⟨id, true, false⟩, .blockEnd, .streamEnd]

theorem readNext_afterId (digits : List Char) :
    ∃ last, (afterId digits).readNext = .ok (false, last) ∧ last.tokens.toList = tokens (String.ofList digits) :=
  ⟨_, rfl, rfl⟩

theorem readAll_opening (hne : digits ≠ []) (h : ∀ c ∈ digits, isAsciiDigit c = true) (fuel : Nat) :
    (Layout.start (opening ++ (digits ++ ['\n']))).readAll (fuel + 4) = ⟨tokens (String.ofList digits), none⟩ := by
  obtain ⟨last, hlast, htokens⟩ := readNext_afterId digits
  simp only [Layout.readAll, readNext_opening, readNext_afterKey, readNext_afterColon hne h, hlast, htokens]

theorem tokensOf_opening (hne : digits ≠ []) (h : ∀ c ∈ digits, isAsciiDigit c = true) :
    tokensOf (opening ++ (digits ++ ['\n'])) = ⟨tokens (String.ofList digits), none⟩ := by
  have hopening : opening.all isPrintable = true := by decide +kernel
  have hall : (opening ++ (digits ++ ['\n'])).all isPrintable = true := by
    rw [List.all_append, List.all_append, hopening, List.all_eq_true.mpr fun c hc => isPrintable_digit (h c hc)]
    rfl
  have hmark : ¬ (opening ++ (digits ++ ['\n'])).head? = some byteOrderMark := by
    simp [opening, banner, byteOrderMark]
  obtain ⟨fuel, hfuel⟩ : ∃ fuel, (opening ++ (digits ++ ['\n'])).length + 2 = fuel + 4 :=
    ⟨(opening ++ digits).length - 1, by
      have hlen := List.length_pos_iff.mpr hne
      simp only [List.length_append, List.length_singleton]
      omega⟩
  unfold tokensOf
  rw [hall, hfuel]
  simp only [Bool.not_true, Bool.false_eq_true, if_false]
  rw [if_neg hmark, readAll_opening hne h]

/-! ## The document -/

/-- The graph of a lock file: a mapping, its key and its value. -/
def graph (id : String) : Graph :=
  ⟨#[⟨none, .mapping [(1, 2)]⟩, ⟨none, .scalar ⟨key, true, false⟩⟩, ⟨none, .scalar ⟨id, true, false⟩⟩], 0⟩

theorem ofScan_tokens (id : String) : Graph.ofScan ⟨tokens id, none⟩ = .ok (some (graph id)) := rfl

section

variable {id : String} {n : Int}

theorem kind_key (id : String) : (graph id).kind 1 = .text := by
  have h : (graph id).kind 1 = Kind.ofPlain key := rfl
  rw [h]
  decide +kernel

theorem result_key (id : String) : (graph id).scalarResult 1 = .ok (.text key) := by
  unfold Graph.scalarResult
  rw [kind_key]
  rfl

theorem result_id (hkind : (graph id).kind 2 = .int) (hn : intValue id.toList = .ok n) :
    (graph id).scalarResult 2 = .ok (.int n) := by
  have hscalar : (graph id).scalarOf ((graph id).nodes.size + 1) 2 = .ok ⟨id, true, false⟩ := rfl
  have hvalue : scalarValue .int id = .ok (.int n) := by
    simp only [scalarValue, hn]
    rfl
  unfold Graph.scalarResult
  rw [hkind, hscalar]
  exact hvalue

theorem pairsOf_graph (id : String) : (graph id).pairsOf 0 = .ok [(1, 2)] := by
  have hcontent : ((graph id).node 0).content = .mapping [(1, 2)] := rfl
  unfold Graph.pairsOf
  rw [show 2 * (graph id).nodes.size + 2 = 7 + 1 from rfl, Graph.flatten, hcontent]
  simp [Graph.ownPairs, kind_key, bind, Except.bind]
  rfl

/-- All nodes are met, the key and the value when the mapping is entered, and nothing is wrong with them. -/
theorem check_graph (hkind : (graph id).kind 2 = .int) (hn : intValue id.toList = .ok n) :
    (graph id).check = .ok () := by
  have hmeetKey : (graph id).meet ⟨#[true, false, false], []⟩ 1 = .ok ⟨#[true, true, false], []⟩ := by
    unfold Graph.meet
    rw [kind_key, result_key]
    rfl
  have hmeetId : (graph id).meet ⟨#[true, true, false], []⟩ 2 = .ok ⟨#[true, true, true], []⟩ := by
    unfold Graph.meet
    rw [hkind, result_id hkind hn]
    rfl
  have hmeetPair : (graph id).meetPair ⟨#[true, false, false], []⟩ (1, 2) = .ok ⟨#[true, true, true], []⟩ := by
    unfold Graph.meetPair
    simp only [kind_key, hmeetKey]
    exact hmeetId
  have henter : (graph id).enter ⟨#[true, false, false], []⟩ 0 = .ok ⟨#[true, true, true], []⟩ := by
    unfold Graph.enter
    rw [pairsOf_graph]
    exact congrArg (· >>= fun v => [].foldlM _ v) hmeetPair
  have hroot : (graph id).meet ⟨Array.replicate 3 false, []⟩ 0 = .ok ⟨#[true, false, false], [0]⟩ := rfl
  unfold Graph.check
  rw [show (graph id).nodes.size = 3 from rfl, show (graph id).root = 0 from rfl, hroot]
  show (graph id).enterAll 4 #[true, false, false] [0] = _
  rw [Graph.enterAll, henter]
  rfl

theorem value_graph (hkind : (graph id).kind 2 = .int) (hn : intValue id.toList = .ok n) :
    (graph id).value levels = .ok (.map [(.text key, .int n)]) := by
  have hparts (l i : Nat) (hi : i < 3) : ((graph id).values (l + 1)).getD i .null =
      (graph id).valueWith (fun number => ((graph id).values l).getD number .null) i := by
    have hsize : (graph id).nodes.size = 3 := rfl
    simp [Graph.values, Array.getD, hsize, hi]
  have hkey : ((graph id).values 2).getD 1 .null = .text key := by
    rw [hparts 1 1 (by decide), Graph.valueWith, kind_key, result_key]
    rfl
  have hid : ((graph id).values 2).getD 2 .null = .int n := by
    rw [hparts 1 2 (by decide), Graph.valueWith, hkind, result_id hkind hn]
    rfl
  unfold Graph.value
  rw [check_graph hkind hn]
  show Except.ok (((graph id).values 3).getD 0 .null) = _
  rw [hparts 2 0 (by decide), Graph.valueWith, pairsOf_graph, ← hkey, ← hid]
  rfl

end

/-! ## The id -/

theorem bounded_of_le {n : Nat} (h : n ≤ greatestId) : bounded n = .ok n := by
  have hle : ¬ (greatestId : Int) < n := by omega
  rw [bounded, if_neg (by omega), if_neg hle]
  rfl

theorem ofValue_id {n : Nat} (h : n ≤ greatestId) : ofValue (.map [(.text key, .int n)]) = .ok n := by
  have hfield : Value.field? [(.text key, .int n)] key = some (.int n) := by simp [Value.field?]
  have hstrange : Check.strangeKeys [key] [(.text key, .int n)] = [] := by
    simp [Check.strangeKeys, Check.spelling?, hfield]
  unfold ofValue
  simp only [Check.fields, bind, Except.bind, Check.required, hfield, Check.number, bounded_of_le h, hstrange]
  rfl

/-- Line breaks are as they should be where there is no carriage return. -/
theorem unifyBreaks_eq {text : List Char} (h : '\r' ∉ text) : Text.unifyBreaks text = text := by
  fun_induction Text.unifyBreaks text with
  | case1 => rfl
  | case2 rest ih => exact absurd List.mem_cons_self h
  | case3 rest _ ih => exact absurd List.mem_cons_self h
  | case4 c rest _ _ ih => rw [ih fun hmem => h (List.mem_cons_of_mem _ hmem)]

/-- The text of a lock file is read as its id. -/
theorem parse_text {n : Nat} (h : n ≤ greatestId) : parse (Bytes.ofString (text n)) = .ok n := by
  have hbreak : '\r' ∉ opening ++ (digitsOf n ++ ['\n']) := by
    simp only [List.mem_append, not_or]
    exact ⟨by decide +kernel, not_mem_digitsOf (by decide) n, by decide⟩
  have htokens : tokensOf (opening ++ (digitsOf n ++ ['\n'])) = ⟨tokens (String.ofList (digitsOf n)), none⟩ :=
    tokensOf_opening (digitsOf_ne_nil n) fun c hc => isAsciiDigit_of_mem hc
  have hkind : (graph (String.ofList (digitsOf n))).kind 2 = .int := ofPlain_digitsOf n
  have hn : intValue (String.ofList (digitsOf n)).toList = .ok (n : Int) := by
    rw [String.toList_ofList, intValue_digitsOf h]
  have hvalue : valueOf levels (opening ++ (digitsOf n ++ ['\n'])) = .ok (.map [(.text key, .int n)]) := by
    rw [valueOf, htokens, ofScan_tokens]
    exact value_graph hkind hn
  unfold parse Bytes.ofString
  rw [Utf8.decode_encode, toList_text]
  simp only [unifyBreaks_eq hbreak, hvalue, ofValue_id h]
  rfl

end LogRef.Lock
