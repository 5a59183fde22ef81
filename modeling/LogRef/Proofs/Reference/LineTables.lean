import LogRef.Proofs.Reference.Reading
import LogRef.Proofs.Rust.Ranges

/-!
# Line tables

Lines are looked up in two tables, one over the bytes of a source and one over its characters. The two have the same
lines: where a line begins in characters, the bytes of the text before it end where the line begins in bytes. So the
line of a call, which comes from the byte table, can be looked up in the other one.
-/
namespace LogRef

/-! ## Columns -/

section

variable {α : Type} [DecidableEq α] {newline : α}

/-- How many elements stand behind the last `newline`. -/
def sinceNewline (newline : α) (xs : List α) : Nat := (xs.reverse.takeWhile (· != newline)).length

theorem sinceNewline_append (a b : List α) : sinceNewline newline (a ++ newline :: b) = sinceNewline newline b := by
  have hstop : (newline :: a.reverse).takeWhile (· != newline) = [] := by simp
  rw [sinceNewline, sinceNewline, List.reverse_append, List.reverse_cons, List.append_assoc, List.singleton_append,
    List.takeWhile_append]
  split
  · next hall => rw [hstop, List.append_nil, hall]
  · rfl

theorem sinceNewline_of_not_mem {xs : List α} (h : newline ∉ xs) : sinceNewline newline xs = xs.length := by
  have hall : xs.reverse.takeWhile (· != newline) = xs.reverse := by
    rw [List.takeWhile_eq_self_iff]
    intro x hx
    have hne : x ≠ newline := fun hxn => h (hxn ▸ List.mem_reverse.mp hx)
    simpa using hne
  rw [sinceNewline, hall, List.length_reverse]

theorem not_mem_drop_sinceNewline (xs : List α) : newline ∉ xs.drop (xs.length - sinceNewline newline xs) := by
  have htake : (xs.drop (xs.length - sinceNewline newline xs)).reverse = xs.reverse.takeWhile (· != newline) := by
    rw [← List.take_reverse, sinceNewline, List.prefix_iff_eq_take.mp (List.takeWhile_prefix _), List.length_take,
      Nat.min_eq_left (List.takeWhile_prefix _).length_le]
  intro hmem
  rw [← List.mem_reverse, htake] at hmem
  simpa using List.mem_takeWhile_imp hmem

/-- The last line begun up to an offset begins behind the last newline before it. The elements `line` are those of the
current line that have been passed already. -/
theorem getLastD_takeWhile_lineStartsFrom {last position : Nat} (line xs : List α) (hline : newline ∉ line)
    (hlast : last + line.length = position) {offset : Int} (h0 : position ≤ offset)
    (h1 : offset ≤ position + xs.length) :
    (((lineStartsFrom newline position xs).takeWhile fun (s : Nat) => (s : Int) ≤ offset).getLastD last : Int) +
      sinceNewline newline (line ++ xs.take (offset.toNat - position)) = offset := by
  induction xs generalizing last position line with
  | nil =>
    rw [lineStartsFrom, List.takeWhile_nil, List.getLastD_nil, List.take_nil, List.append_nil,
      sinceNewline_of_not_mem hline]
    rw [List.length_nil] at h1
    omega
  | cons x xs ih =>
    rw [List.length_cons] at h1
    by_cases hlt : (position : Int) < offset
    · have hn : offset.toNat - position = (offset.toNat - (position + 1)) + 1 := by omega
      rw [lineStartsFrom, hn, List.take_succ_cons]
      split
      · next hx =>
        subst hx
        rw [List.takeWhile_cons_of_pos (by simp only [decide_eq_true_eq]; omega), List.getLastD_cons,
          sinceNewline_append]
        exact ih [] List.not_mem_nil rfl (by omega) (by omega)
      · next hx =>
        have hmore : newline ∉ line ++ [x] := by
          simp only [List.mem_append, List.mem_singleton, not_or]
          exact ⟨hline, fun h => hx h.symm⟩
        have hlength : last + (line ++ [x]).length = position + 1 := by
          rw [List.length_append, List.length_singleton]
          omega
        have hstep := ih (line ++ [x]) hmore hlength (by omega) (by omega)
        rwa [List.append_assoc, List.singleton_append] at hstep
    · have hn : offset.toNat - position = 0 := by omega
      have hnone :
          ((lineStartsFrom newline position (x :: xs)).takeWhile fun (s : Nat) => (s : Int) ≤ offset) = [] := by
        rw [List.takeWhile_eq_nil_iff]
        intro hpos
        have := lt_of_mem_lineStartsFrom (List.get_mem _ ⟨0, hpos⟩)
        simp only [decide_eq_true_eq]
        omega
      rw [hnone, hn, List.getLastD_nil, List.take_zero, List.append_nil, sinceNewline_of_not_mem hline]
      omega

end

namespace Span

variable {source : Bytes} {start : Int}

/-- The lines of a source begun up to an offset. -/
def begun (source : Bytes) (start : Int) : List Nat :=
  (byteLineStarts source).takeWhile fun (s : Nat) => (s : Int) ≤ start

theorem begun_eq (h0 : 0 ≤ start) :
    begun source start = 0 :: (lineStartsFrom lineFeed 0 source).takeWhile fun (s : Nat) => (s : Int) ≤ start := by
  rw [begun, byteLineStarts, lineStarts, List.takeWhile_cons_of_pos (by simpa using h0)]

theorem length_begun (h0 : 0 ≤ start) :
    (begun source start).length = (source.take start.toNat).count lineFeed + 1 := by
  rw [begun_eq h0, List.length_cons, length_takeWhile_lineStartsFrom (by simpa using h0), Nat.sub_zero]

theorem getLastD_begun (h0 : 0 ≤ start) (h1 : start ≤ source.length) (d : Nat) :
    ((begun source start).getLastD d : Int) + sinceNewline lineFeed (source.take start.toNat) = start := by
  have hlast := @getLastD_takeWhile_lineStartsFrom _ _ lineFeed 0 0 [] source List.not_mem_nil rfl start
    (by simpa using h0) (by simpa using h1)
  rwa [begun_eq h0, List.getLastD_cons]

theorem column_ofRange (h0 : 0 ≤ start) (h1 : start ≤ source.length) (stop : Int) :
    (ofRange (byteLineStarts source) start stop).column = sinceNewline lineFeed (source.take start.toNat) + 1 := by
  have hlast := getLastD_begun h0 h1 ((byteLineStarts source).getLastD 0)
  unfold ofRange
  dsimp only
  rw [begun] at hlast
  omega

end Span

/-! ## The two tables -/

theorem lineStarts_append_of_not_mem {α : Type} [DecidableEq α] {newline : α} {a : List α} (h : newline ∉ a)
    (b : List α) :
    lineStarts newline (a ++ b) = 0 :: (lineStarts newline b).tail.map (· + a.length) := by
  induction a with
  | nil => simp [lineStarts]
  | cons x a ih =>
    have hx : x ≠ newline := fun hx => h (hx ▸ List.mem_cons_self)
    rw [List.cons_append, lineStarts_cons, if_neg hx, ih fun hmem => h (List.mem_cons_of_mem x hmem), List.tail_cons,
      List.map_map]
    congr 1

theorem Utf8.lineFeed_not_mem_encodeChar {c : Char} (h : c ≠ '\n') : lineFeed ∉ encodeChar c := by
  intro hmem
  obtain ⟨_, hn⟩ := encodeChar_of_mem_ascii hmem (by decide)
  exact h (Char.toNat_inj.mp hn)

/-- A line begins in bytes where the bytes of the text before it end. -/
theorem byteLineStarts_encode (code : List Char) :
    byteLineStarts (Utf8.encode code) = (charLineStarts code).map fun i => (Utf8.encode (code.take i)).length := by
  unfold byteLineStarts charLineStarts
  induction code with
  | nil => rfl
  | cons c code ih =>
    have hsize (i : Nat) : (Utf8.encode ((c :: code).take (i + 1))).length =
        (Utf8.encode (code.take i)).length + (Utf8.encodeChar c).length := by
      rw [List.take_succ_cons, Utf8.encode_cons, List.length_append, Nat.add_comm]
    rw [Utf8.encode_cons, lineStarts_cons, List.map_cons, List.map_map]
    by_cases hc : c = '\n'
    · subst hc
      have hbyte : Utf8.encodeChar '\n' = [lineFeed] := rfl
      rw [hbyte, List.singleton_append, lineStarts_cons, if_pos rfl, if_pos rfl, ih, List.map_map]
      refine congrArg (0 :: ·) (List.map_congr_left fun i _ => ?_)
      exact (hsize i).symm
    · rw [if_neg hc, lineStarts_append_of_not_mem (Utf8.lineFeed_not_mem_encodeChar hc), ih, ← List.map_tail,
        List.map_map]
      refine congrArg (0 :: ·) (List.map_congr_left fun i _ => ?_)
      exact (hsize i).symm

/-! ## The lines of calls -/

namespace Node

variable {source : Bytes} {n : Node} {v : Invocation}

/-- A token that begins inside of a source. -/
def Begins (source : Bytes) (t : Token) : Prop := 0 ≤ t.start ∧ t.start ≤ source.length

theorem begins_of_mem_gapTokens {start stop : Int} (h0 : 0 ≤ start) (hle : start ≤ stop) (h1 : stop ≤ source.length)
    {t : Token} (ht : t ∈ gapTokens source start stop) : Begins source t := by
  obtain ⟨hlo, hlt, hhi⟩ := (gapTokens_inOrder h0 hle h1).mem ht
  exact ⟨by omega, by omega⟩

mutual

theorem named_of_mem_forest (c : Node) (h0 : 0 ≤ c.start) (h1 : c.stop ≤ source.length)
    (hin : AllInRange source.length true c.children) (h : v ∈ invocationsAmong [] (c.forest source)) :
    0 ≤ v.nameStart ∧ v.nameStart ≤ source.length := by
  match c with
  | mk kind start stop isNamed hasError isMacroName children =>
    have hs := innerStart_cases source kind start
    have he := innerStop_cases source kind start stop
    simp only [Node.start, Node.stop, Node.children] at h0 h1 hin
    rw [forest] at h
    exact named_of_mem_among children (fun t ht => (List.not_mem_nil ht).elim) (by omega) (by omega) hin h

/-- A name begins with one of the tokens passed, and these are gaps and nodes inside of the source. -/
theorem named_of_mem_among (children : List Node) {before : List Token} (hbefore : ∀ t ∈ before, Begins source t)
    {stop cursor : Int} (h0 : 0 ≤ cursor) (h1 : stop ≤ source.length) (hin : AllInRange source.length true children)
    (h : v ∈ invocationsAmong before (forestAmong source stop cursor children)) :
    0 ≤ v.nameStart ∧ v.nameStart ≤ source.length := by
  match children with
  | [] =>
    have hl := invocationsAmong_leaves before (gapTokens source cursor stop) []
    rw [List.append_nil] at hl
    rw [forestAmong, hl] at h
    cases h
  | c :: rest =>
    rw [AllInRange] at hin
    cases hp : c.isPassedOver cursor stop with
    | true =>
      rw [forestAmong_of_passed hp] at h
      exact named_of_mem_among rest hbefore h0 h1 hin.2 h
    | false =>
      obtain ⟨_, _, hcur, hstop⟩ := isPassedOver_eq_false_iff.mp hp
      have hc := hin.1.bounds
      have hpassed : ∀ t ∈ (gapTokens source cursor c.start).reverse ++ before, Begins source t := by
        intro t ht
        rcases List.mem_append.mp ht with ht | ht
        · exact begins_of_mem_gapTokens h0 hcur (by omega) (List.mem_reverse.mp ht)
        · exact hbefore t ht
      have hown : ∀ t ∈ c.token source :: ((gapTokens source cursor c.start).reverse ++ before), Begins source t := by
        intro t ht
        rcases List.mem_cons.mp ht with rfl | ht
        · exact ⟨hc.1, Int.le_trans hc.2.1 hc.2.2⟩
        · exact hpassed t ht
      rw [forestAmong_of_kept hp, invocationsAmong_leaves, ownParts] at h
      by_cases hcomment : c.kind = .comment
      · rw [if_pos hcomment, List.nil_append] at h
        exact named_of_mem_among rest hpassed (by omega) h1 hin.2 h
      · rw [if_neg hcomment] at h
        cases htree : c.isTree with
        | false =>
          rw [htree, if_neg Bool.false_ne_true, List.singleton_append, invocationsAmong, Part.invocations,
            List.nil_append] at h
          exact named_of_mem_among rest hown (by omega) h1 hin.2 h
        | true =>
          rw [htree, if_pos rfl, List.singleton_append, invocationsAmong, Part.invocations, List.mem_append,
            List.mem_append] at h
          rcases h with (h | h) | h
          · obtain ⟨_, _, _, _, u, hu, hname⟩ := mem_invocationBefore h
            rw [hname]
            exact hpassed u hu
          · exact named_of_mem_forest c hc.1 hc.2.2 (hin.1.inside htree (.inl rfl)) h
          · exact named_of_mem_among rest hown (by omega) h1 hin.2 h

end

mutual

/-- The names of all invocations begin inside of the source. -/
theorem named_of_mem_invocations (n : Node) (h : n.InRange source.length false) (hv : v ∈ n.invocations source) :
    0 ≤ v.nameStart ∧ v.nameStart ≤ source.length := by
  match n with
  | mk kind start stop isNamed hasError isMacroName children =>
    by_cases hk : (mk kind start stop isNamed hasError isMacroName children).kind = .tokenTree
    · rw [invocations_of_tokenTree hk] at hv
      exact named_of_mem_forest _ h.bounds.1 h.bounds.2.2 (h.inside (isTree_of_tokenTree hk) (.inr hk)) hv
    · have hchildren : AllInRange source.length false children := by
        have hc := h.children rfl
        rwa [decide_eq_false hk, Bool.or_false] at hc
      rw [invocations_of_ne_tokenTree hk, List.mem_append] at hv
      rcases hv with hv | hv
      · rcases ownInvocations_cases source (mk kind start stop isNamed hasError isMacroName children) with
          hnone | ⟨name, hname, _, _, _, w, hown, hwname, _⟩
        · rw [hnone] at hv
          cases hv
        · rw [hown, List.mem_singleton] at hv
          have hbounds := (hchildren.mem hname).bounds
          rw [hv, hwname]
          exact ⟨hbounds.1, by omega⟩
      · exact named_of_mem_allInvocations children hchildren hv

theorem named_of_mem_allInvocations (ns : List Node) (h : AllInRange source.length false ns)
    (hv : v ∈ allInvocations source ns) : 0 ≤ v.nameStart ∧ v.nameStart ≤ source.length := by
  match ns with
  | [] => cases hv
  | n :: rest =>
    rw [AllInRange] at h
    rw [allInvocations, List.mem_append] at hv
    rcases hv with hv | hv
    · exact named_of_mem_invocations n h.1 hv
    · exact named_of_mem_allInvocations rest h.2 hv

end

end Node

/-- The two tables agree on where a line begins. -/
theorem encode_take_lineStart {source : Bytes} {code : List Char} (hcode : Utf8.decode source = .ok code) {k i j : Nat}
    (hi : (charLineStarts code)[k]? = some i) (hj : (byteLineStarts source)[k]? = some j) :
    Utf8.encode (code.take i) = source.take j := by
  obtain rfl := Utf8.encode_of_decode hcode
  rw [byteLineStarts_encode, List.getElem?_map, hi] at hj
  obtain rfl := Option.some.inj hj
  have hcut : Utf8.encode code = Utf8.encode (code.take i) ++ Utf8.encode (code.drop i) := by
    rw [← Utf8.encode_append, List.take_append_drop]
  rw [hcut, List.take_left' rfl]

theorem length_lineStarts {source : Bytes} {code : List Char} (hcode : Utf8.decode source = .ok code) :
    (charLineStarts code).length = (byteLineStarts source).length := by
  obtain rfl := Utf8.encode_of_decode hcode
  rw [byteLineStarts_encode, List.length_map]

/-- The line that an offset is on begins before it, and no line ends in between. -/
theorem byteLineStart_of_offset {source : Bytes} {start : Int} (h0 : 0 ≤ start) (h1 : start ≤ source.length) :
    ∃ j : Nat, (byteLineStarts source)[(source.take start.toNat).count lineFeed]? = some j ∧ j ≤ start ∧
      lineFeed ∉ source.slice j start := by
  have hlength : (Span.begun source start).length = _ := Span.length_begun h0
  have hlast := Span.getLastD_begun h0 h1 0
  have hsame : (byteLineStarts source)[(source.take start.toNat).count lineFeed]? =
      (Span.begun source start)[(source.take start.toNat).count lineFeed]? := by
    have hprefix : Span.begun source start <+: byteLineStarts source := List.takeWhile_prefix _
    rw [List.prefix_iff_getElem?.mp hprefix _ (by omega), List.getElem?_eq_getElem (by omega)]
  have hget : (byteLineStarts source)[(source.take start.toNat).count lineFeed]? =
      some ((Span.begun source start).getLastD 0) := by
    rw [hsame, List.getLastD_eq_getLast?, List.getLast?_eq_getElem?, hlength, Nat.add_sub_cancel,
      List.getElem?_eq_getElem (by omega)]
    rfl
  refine ⟨(Span.begun source start).getLastD 0, hget, by omega, ?_⟩
  have hdrop := @not_mem_drop_sinceNewline _ _ lineFeed (source.take start.toNat)
  have hn : (source.take start.toNat).length - sinceNewline lineFeed (source.take start.toNat) =
      (Span.begun source start).getLastD 0 := by
    rw [List.length_take]
    omega
  rw [hn] at hdrop
  rwa [Bytes.slice, clampOffset, if_neg (by omega), clampOffset, if_neg (by omega), Int.toNat_natCast]

/-- Lines and columns count line feeds and bytes, the two tables have the same lines, and these begin at the same places
of the text. So the line of every call is there in the table of the characters, and it is the line that the call's name
is on, for every tree inside of the source; the tree that a Rust source is read as is one. -/
theorem lines_agree {source : Bytes} {code : List Char} (hcode : Utf8.decode source = .ok code) :
    (∀ start stop : Int, 0 ≤ start → start ≤ source.length →
      (Span.ofRange (byteLineStarts source) start stop).line = 1 + (source.take start.toNat).count lineFeed ∧
        (Span.ofRange (byteLineStarts source) start stop).column =
          1 + sinceNewline lineFeed (source.take start.toNat)) ∧
      (charLineStarts code).length = (byteLineStarts source).length ∧
      (∀ k i j : Nat, (charLineStarts code)[k]? = some i → (byteLineStarts source)[k]? = some j →
        Utf8.encode (code.take i) = source.take j) ∧
      (∀ n : Node, n.InRange source.length false → ∃ parsed, callsOfTree source n = .ok parsed ∧
        ∀ call ∈ parsed.calls, ∃ k i j : Nat, call.nameSpan.line - 1 = k ∧
          (charLineStarts code)[k]? = some i ∧ call.lineOffset code = i ∧
          (byteLineStarts source)[k]? = some j ∧ j ≤ call.nameSpan.start ∧
          lineFeed ∉ source.slice j call.nameSpan.start) ∧
      (Rust.parse source).InRange source.length false := by
  refine ⟨fun start stop h0 h1 => ⟨?_, ?_⟩, length_lineStarts hcode, fun k i j => encode_take_lineStart hcode, ?_,
    Rust.inRange_parse source⟩
  · rw [Span.line_ofRange h0, Int.add_comm]
  · rw [Span.column_ofRange h0 h1, Int.add_comm]
  · intro n hn
    refine ⟨_, callsOfTree_eq hn, fun call hcall => ?_⟩
    obtain ⟨v, hv, rfl⟩ := List.mem_map.mp hcall
    obtain ⟨h0, h1⟩ := Node.named_of_mem_invocations n hn (List.mem_mergeSort.mp hv)
    obtain ⟨j, hj, hle, hline⟩ := byteLineStart_of_offset h0 h1
    have hlt : (source.take v.nameStart.toNat).count lineFeed < (charLineStarts code).length := by
      rw [length_lineStarts hcode]
      exact (List.getElem?_eq_some_iff.mp hj).1
    have hi := List.getElem?_eq_getElem hlt
    have hnumber : (v.call source (byteLineStarts source)).nameSpan.line - 1 =
        (source.take v.nameStart.toNat).count lineFeed := by
      rw [Invocation.call, Span.line_ofRange h0, Int.add_sub_cancel]
    refine ⟨_, _, j, hnumber, hi, ?_, hj, hle, hline⟩
    rw [Invocation.lineOffset_call h0, List.getD_eq_getElem?_getD, hi, Option.getD_some]

/-- Calls behind characters of two, three and four bytes, with an empty line before them and no line feed at the end. -/
def wideLines : String := "// é\n\nfn f() \x7b info!(\"→\");\n/* 🚀 */ warn!(\"x\"); \x7d"

def wideLinesTree : Node :=
  .mk .other 0 54 true false false
    [.mk .macroInvocation 16 28 true false false
      [.mk .identifier 16 20 true false true [],
        .mk .tokenTree 21 28 true false false [.mk .stringLiteral 22 27 true false false []]],
      .mk .macroInvocation 41 51 true false false
        [.mk .identifier 41 45 true false true [],
          .mk .tokenTree 46 51 true false false [.mk .stringLiteral 47 50 true false false []]]]

/-- The calls are on the third and the fourth line, which begin after 6 and 27 characters, or 7 and 30 bytes. -/
theorem wideLines_agree :
    let source := Bytes.ofString wideLines
    Utf8.decode source = .ok wideLines.toList ∧ wideLinesTree.InRange source.length false ∧
      charLineStarts wideLines.toList = [0, 5, 6, 27] ∧ byteLineStarts source = [0, 6, 7, 30] ∧
      ∃ parsed, callsOfTree source wideLinesTree = .ok parsed ∧
        parsed.calls.map (fun call => (call.nameSpan.line, call.nameSpan.column)) = [(3, 10), (4, 12)] ∧
        ∀ call ∈ parsed.calls, ∃ k i j : Nat, call.nameSpan.line - 1 = k ∧
          (charLineStarts wideLines.toList)[k]? = some i ∧ call.lineOffset wideLines.toList = i ∧
          (byteLineStarts source)[k]? = some j ∧ j ≤ call.nameSpan.start ∧
          lineFeed ∉ source.slice j call.nameSpan.start := by
  intro source
  have hcode : Utf8.decode source = .ok wideLines.toList := Utf8.decode_encode _
  have hfits : wideLinesTree.Fits source := by decide +kernel
  have hsorted : (wideLinesTree.invocations source).Pairwise fun a b => a.nameStart ≤ b.nameStart := by decide +kernel
  obtain ⟨_, _, _, hcalls, _⟩ := lines_agree hcode
  obtain ⟨parsed, hparsed, hall⟩ := hcalls wideLinesTree (hfits.inRange false)
  refine ⟨hcode, hfits.inRange false, by decide +kernel, by decide +kernel, parsed, hparsed, ?_, hall⟩
  rw [callsOfTree_eq (hfits.inRange false)] at hparsed
  obtain rfl := Except.ok.inj hparsed
  rw [List.mergeSort_of_pairwise (hsorted.imp fun hab => decide_eq_true hab)]
  decide +kernel

end LogRef
