import LogRef.Proofs.Yaml.Visits

/-!
# Faults of scalars

What is wrong with a scalar that has no value of its kind. Mostly its text has the wrong form, which is a bad value.
A few texts are no bad values but something else: an empty number, a word that is no truth value, a text that is no
date, and a number with so many parts between colons that their weights leave the range of numbers.
-/
namespace LogRef.Yaml

variable {text : List Char} {s : String} {f : Fault}

/-- Work that fails, if at all, because of the form of a value. -/
abbrev IsJudged {α : Type} (x : Except Fault α) : Prop := FailsOnly (fun f => f.isBadValue = true) x

theorem IsJudged.elim {α : Type} {x : Except Fault α} (h : IsJudged x) (hx : x = .error f)
    (hbad : f.isBadValue = false) : False := by
  have hjudged : f.isBadValue = true := h f hx
  rw [hbad] at hjudged
  cases hjudged

/-! ## Whole numbers -/

theorem isJudged_readWhole (base : Nat) (text : List Char) : IsJudged (readWhole base text) :=
  .ite (.error rfl) (.ite (.error rfl) (.ok _))

/-- A text without underscores, which do not count in numbers. -/
def bare (text : List Char) : List Char := text.filter (· != '_')

theorem splitSign_eq (h : text ≠ []) : ∃ sign, splitSign text = .ok (sign, dropSign text) := by
  unfold splitSign
  split
  · exact absurd rfl h
  · exact ⟨_, rfl⟩
  · exact ⟨_, rfl⟩
  · rename_i hminus hplus
    refine ⟨1, ?_⟩
    have hhead : ¬ (text.head? = some '-' ∨ text.head? = some '+') := by
      cases text with
      | nil => simp
      | cons c rest =>
        rintro (hc | hc)
        · exact hminus rest (by rw [Option.some.inj hc])
        · exact hplus rest (by rw [Option.some.inj hc])
    unfold dropSign
    simp [hhead]

theorem intValue_of_empty (h : dropSign (bare text) = []) : intValue text = .error .emptyText := by
  unfold intValue
  by_cases hbare : bare text = []
  · rw [show text.filter (· != '_') = [] from hbare]
    rfl
  · obtain ⟨sign, hsign⟩ := splitSign_eq hbare
    rw [show splitSign (text.filter (· != '_')) = .ok (sign, dropSign (bare text)) from hsign, h]
    rfl

theorem isJudged_intValue (h : dropSign (bare text) ≠ []) : IsJudged (intValue text) := by
  have hbare : bare text ≠ [] := fun hnil => h (by rw [hnil]; rfl)
  obtain ⟨sign, hsign⟩ := splitSign_eq hbare
  refine .ok_bind hsign ?_
  dsimp only
  split
  · exact absurd ‹_› h
  · exact .ok _
  · exact .bind (isJudged_readWhole _ _) fun _ => .pure _
  · exact .bind (isJudged_readWhole _ _) fun _ => .pure _
  · exact .bind (isJudged_readWhole _ _) fun _ => .pure _
  · exact .ite (.bind (.mapM (isJudged_readWhole 10)) fun _ => .pure _)
      (.bind (isJudged_readWhole _ _) fun _ => .pure _)

/-! ## Numbers with a fraction -/

theorem isJudged_readFloat (text : List Char) : IsJudged (readFloat text) := by
  refine .ite (.ok _) (.ite (.ok _) ?_)
  split
  · exact .ok _
  · exact .error rfl

theorem lower_ne_nil (h : text ≠ []) : Text.lower text ≠ [] := by
  unfold Text.lower
  cases text with
  | nil => exact absurd rfl h
  | cons c rest =>
    rw [Text.lowerFrom]
    split
    · simp
    · split
      · split <;> simp
      · simp

/-- How many parts between colons a number may have. -/
def mostParts : Nat := 174

theorem isFinite_weight (k : Nat) (h : k < mostParts) : (Double.ofRatio false (Nat.pow 60 k) 1).isFinite = true := by
  revert h k
  decide +kernel

theorem isFinite_mostParts : (Double.ofRatio false (Nat.pow 60 mostParts) 1).isFinite = false := by
  decide +kernel

section

variable {k : Nat} {sum : Double} {parts : List Double}

theorem sixtiesSum_of_le (h : k + parts.length ≤ mostParts) : ∃ d, sixtiesSum (Nat.pow 60 k) sum parts = .ok d := by
  induction parts generalizing k sum with
  | nil => exact ⟨sum, rfl⟩
  | cons d rest ih =>
    rw [List.length_cons] at h
    have hrest : k + 1 + rest.length ≤ mostParts := by omega
    rw [sixtiesSum, if_pos (isFinite_weight k (by omega))]
    exact ih hrest

theorem sixtiesSum_of_lt (hk : k ≤ mostParts) (h : mostParts < k + parts.length) :
    sixtiesSum (Nat.pow 60 k) sum parts = .error .tooLarge := by
  induction parts generalizing k sum with
  | nil =>
    rw [List.length_nil] at h
    omega
  | cons d rest ih =>
    rw [List.length_cons] at h
    rw [sixtiesSum]
    by_cases hlt : k < mostParts
    · rw [if_pos (isFinite_weight k hlt)]
      exact ih (Nat.succ_le_of_lt hlt) (by omega)
    · obtain rfl : k = mostParts := by omega
      rw [if_neg (by rw [isFinite_mostParts]; decide)]

end

/-- A text with numbers between colons, more of them than there may be. -/
def HasManyParts (text : List Char) : Prop :=
  mostParts < (Text.splitOn ':' text).length ∧ ∀ part ∈ Text.splitOn ':' text, ∃ d, readFloat part = .ok d

theorem sixtiesFloat_of_many (h : HasManyParts text) : sixtiesFloat text = .error .tooLarge := by
  obtain ⟨hmany, hall⟩ := h
  unfold sixtiesFloat
  cases hparts : (Text.splitOn ':' text).mapM readFloat with
  | error e =>
    obtain ⟨part, hpart, herror⟩ := mapM_error hparts
    obtain ⟨d, hd⟩ := hall part hpart
    rw [hd] at herror
    cases herror
  | ok parts =>
    exact sixtiesSum_of_lt (Nat.zero_le _) (by rw [List.length_reverse, length_mapM hparts]; omega)

theorem isJudged_sixtiesFloat (h : ¬ HasManyParts text) : IsJudged (sixtiesFloat text) := by
  intro f hf
  rcases bind_error hf with hparts | ⟨parts, hparts, hsum⟩
  · exact FailsOnly.mapM isJudged_readFloat f hparts
  · have hle : parts.reverse.length ≤ mostParts := by
      rw [List.length_reverse, length_mapM hparts]
      exact Nat.le_of_not_lt fun hlt => h ⟨hlt, (mapM_ok hparts).1⟩
    obtain ⟨d, hd⟩ := @sixtiesSum_of_le 0 (.finite false 0 0) parts.reverse (by omega)
    cases hsum.symm.trans hd

/-- The part of a number with a fraction that is read, in lower case and without the sign. -/
def fraction (text : List Char) : List Char := dropSign (Text.lower (bare text))

theorem floatValue_of_empty (h : bare text = []) : floatValue text = .error .emptyText := by
  unfold floatValue
  rw [show text.filter (· != '_') = [] from h]
  rfl

theorem splitSign_lower (h : bare text ≠ []) :
    ∃ sign, splitSign (Text.lower (text.filter (· != '_'))) = .ok (sign, fraction text) :=
  splitSign_eq (lower_ne_nil h)

theorem splitOn_of_not_mem {sep : Char} (h : sep ∉ text) : Text.splitOn sep text = [text] := by
  induction text with
  | nil => rfl
  | cons c rest ih =>
    have hc : c ≠ sep := fun heq => h (heq ▸ List.mem_cons_self)
    rw [Text.splitOn, if_neg hc, ih fun hmem => h (List.mem_cons_of_mem c hmem)]

theorem contains_of_many (h : HasManyParts text) : text.contains ':' = true := by
  refine List.contains_iff_mem.mpr (Decidable.byContradiction fun hnot => ?_)
  have hmany := h.1
  rw [splitOn_of_not_mem hnot, List.length_singleton] at hmany
  exact absurd hmany (by decide)

theorem floatValue_of_many (h : HasManyParts (fraction text)) : floatValue text = .error .tooLarge := by
  have hcolon := contains_of_many h
  have hbare : bare text ≠ [] := fun hnil => by
    rw [fraction, hnil] at hcolon
    exact absurd hcolon (by decide)
  obtain ⟨sign, hsign⟩ := splitSign_lower hbare
  have hinf : fraction text ≠ ".inf".toList := fun heq => by rw [heq] at hcolon; exact absurd hcolon (by decide)
  have hnan : fraction text ≠ ".nan".toList := fun heq => by rw [heq] at hcolon; exact absurd hcolon (by decide)
  unfold floatValue
  rw [hsign]
  simp only [bind, Except.bind, if_neg hinf, if_neg hnan, if_pos hcolon, sixtiesFloat_of_many h]

theorem isJudged_floatValue (hbare : bare text ≠ []) (h : ¬ HasManyParts (fraction text)) :
    IsJudged (floatValue text) := by
  obtain ⟨sign, hsign⟩ := splitSign_lower hbare
  refine .ok_bind hsign ?_
  exact .ite (.pure _) <| .ite (.pure _) <|
    .ite (.bind (isJudged_sixtiesFloat h) fun _ => .pure _) (.bind (isJudged_readFloat _) fun _ => .pure _)

/-! ## Dates and truth values -/

theorem isJudged_checkZone (zone : Int) : IsJudged (Date.checkZone zone) := .ite (.ok _) (.error rfl)

theorem isJudged_checkClock (c : Clock) : IsJudged (Date.checkClock c) :=
  .ite (.throw_bind rfl) <| .ite (.throw_bind rfl) <| .ite (.error rfl) (.pure _)

theorem isJudged_moment (d : Date) : IsJudged d.moment := by
  obtain ⟨year, month, day, clock⟩ := d
  cases clock with
  | none => exact .ite (.throw_bind rfl) <| .ite (.throw_bind rfl) <| .ite (.throw_bind rfl) (.pure _)
  | some c =>
    obtain ⟨hour, minute, second, micros, zone⟩ := c
    cases zone with
    | none =>
      exact .ite (.throw_bind rfl) <| .ite (.throw_bind rfl) <| .ite (.throw_bind rfl) <|
        .bind (isJudged_checkClock _) fun _ => .pure _
    | some zone =>
      exact .bind (isJudged_checkZone zone) fun _ =>
        .ite (.throw_bind rfl) <| .ite (.throw_bind rfl) <| .ite (.throw_bind rfl) <|
          .bind (isJudged_checkClock _) fun _ => .pure _

theorem dateValue_of_none (h : Date.read (dropLastBreak s).toList = none) : dateValue s = .error .badDate := by
  unfold dateValue
  rw [h]

theorem isJudged_dateValue (h : Date.read (dropLastBreak s).toList ≠ none) : IsJudged (dateValue s) := by
  unfold dateValue
  split
  · exact isJudged_moment _
  · exact absurd ‹_› h

/-! ## Kinds -/

/-- A text that is called a truth value, a number or a date and is none, in a way that does not count as a bad value. -/
inductive Defies : Kind → String → Fault → Prop
  | noTruth {s : String} (h : String.ofList (Text.lower s.toList) ∉ trueWords ++ falseWords) :
    Defies .bool s (.badTruth (String.ofList (Text.lower s.toList)))
  /-- A whole number has nothing but a sign, at most. -/
  | noDigits {s : String} (h : dropSign (bare s.toList) = []) : Defies .int s .emptyText
  /-- A number with a fraction has nothing at all. -/
  | nothing {s : String} (h : bare s.toList = []) : Defies .float s .emptyText
  | manyParts {s : String} (h : HasManyParts (fraction s.toList)) : Defies .float s .tooLarge
  | noDate {s : String} (h : Date.read (dropLastBreak s).toList = none) : Defies .date s .badDate

theorem Defies.isCollection {kind : Kind} (h : Defies kind s f) : kind.isCollection = false := by
  cases h <;> rfl

theorem Defies.ne_text {kind : Kind} (h : Defies kind s f) : kind ≠ .text := by
  rintro rfl
  cases h

theorem fault_of_scalar {α : Type} {x : Except Fault α} {make : α → Value} :
    (x.map make).mapError Problem.fault = .error (.fault f) ↔ x = .error f := by
  cases x with
  | ok a => exact iff_of_false (fun h => by cases h) (fun h => by cases h)
  | error f' =>
    constructor
    · intro h
      cases h
      rfl
    · intro h
      cases h
      rfl

/-- The faults of scalars that are no bad values are those of texts that defy their kind. -/
theorem scalarValue_fault_iff {kind : Kind} :
    (scalarValue kind s = .error (.fault f) ∧ f.isBadValue = false) ↔ Defies kind s f := by
  constructor
  · rintro ⟨hvalue, hbad⟩
    cases kind with
    | bool =>
      have hfault := fault_of_scalar.mp hvalue
      unfold boolValue at hfault
      dsimp only at hfault
      split at hfault
      · cases hfault
      · split at hfault
        · cases hfault
        · cases hfault
          exact .noTruth (by simp_all)
    | int =>
      have hfault := fault_of_scalar.mp hvalue
      by_cases hnone : dropSign (bare s.toList) = []
      · rw [intValue_of_empty hnone] at hfault
        cases hfault
        exact .noDigits hnone
      · exact (IsJudged.elim (isJudged_intValue hnone) hfault hbad).elim
    | float =>
      have hfault := fault_of_scalar.mp hvalue
      by_cases hnone : bare s.toList = []
      · rw [floatValue_of_empty hnone] at hfault
        cases hfault
        exact .nothing hnone
      · by_cases hmany : HasManyParts (fraction s.toList)
        · rw [floatValue_of_many hmany] at hfault
          cases hfault
          exact .manyParts hmany
        · exact (IsJudged.elim (isJudged_floatValue hnone hmany) hfault hbad).elim
    | date =>
      have hfault := fault_of_scalar.mp hvalue
      by_cases hnone : Date.read (dropLastBreak s).toList = none
      · rw [dateValue_of_none hnone] at hfault
        cases hfault
        exact .noDate hnone
      · exact (IsJudged.elim (isJudged_dateValue hnone) hfault hbad).elim
    | binary =>
      have hbinary : ((binaryValue s.toList).map Value.bytes) = .error (.fault f) := hvalue
      unfold binaryValue at hbinary
      split at hbinary <;> cases hbinary
    | _ => cases hvalue
  · rintro (hnone | hnone | hnone | hmany | hnone)
    · refine ⟨fault_of_scalar.mpr ?_, rfl⟩
      unfold boolValue
      simp_all
    · exact ⟨fault_of_scalar.mpr (intValue_of_empty hnone), rfl⟩
    · exact ⟨fault_of_scalar.mpr (floatValue_of_empty hnone), rfl⟩
    · exact ⟨fault_of_scalar.mpr (floatValue_of_many hmany), rfl⟩
    · exact ⟨fault_of_scalar.mpr (dateValue_of_none hnone), rfl⟩

/-! ## Nodes -/

namespace Graph

variable {g : Graph} {n : Nat}

theorem scalarOf_fails (fuel n : Nat) : FailsOnly (· = .malformed) (g.scalarOf fuel n) := by
  induction fuel generalizing n with
  | zero => exact .error rfl
  | succ fuel ih =>
    unfold scalarOf
    split
    · exact .ok _
    · exact .error rfl
    · split
      · exact ih _
      · exact .error rfl

/-- Whether a node is a scalar itself. -/
def isDirect (g : Graph) (n : Nat) : Bool :=
  match (g.node n).content with
  | .scalar _ => true
  | _ => false

/-- A node that can be given no value, in a way that does not count as a bad value. -/
inductive Trap (g : Graph) (n : Nat) : Fault → Prop
  /-- Its text defies its kind. -/
  | text {found : Scalar} {f : Fault} (hfound : g.scalarOf (g.nodes.size + 1) n = .ok found)
      (hdirect : g.kind n = .date → g.isDirect n = true) (h : Defies (g.kind n) found.text f) : Trap g n f
  /-- It is called a date and is no scalar. -/
  | indirect {found : Scalar} (hfound : g.scalarOf (g.nodes.size + 1) n = .ok found) (hdate : g.kind n = .date)
      (h : g.isDirect n = false) : Trap g n .notReadable

/-- The value of a node that holds some scalar. -/
theorem scalarResult_of_scalarOf {found : Scalar} (h : g.scalarOf (g.nodes.size + 1) n = .ok found) :
    g.scalarResult n =
      if g.kind n = .date && !g.isDirect n then .error (.fault .notReadable)
      else if g.kind n = .text && found.isRagged then .ok (.ragged found.text)
      else scalarValue (g.kind n) found.text := by
  unfold scalarResult
  rw [h]
  rfl

/-- The faults of nodes that are no bad values are traps. -/
theorem trap_iff : (g.HasProblem n (.fault f) ∧ f.isBadValue = false) ↔ g.Trap n f := by
  constructor
  · rintro ⟨⟨hkind, hresult⟩, hbad⟩
    rcases bind_error hresult with hscalar | ⟨found, hfound, -⟩
    · cases scalarOf_fails _ _ _ hscalar
    · rw [scalarResult_of_scalarOf hfound] at hresult
      by_cases hindirect : g.kind n = .date ∧ g.isDirect n = false
      · rw [if_pos (by simp [hindirect])] at hresult
        cases hresult
        exact .indirect hfound hindirect.1 hindirect.2
      · have hdirect : g.kind n = .date → g.isDirect n = true := by
          intro hdate
          simpa using fun hnot => hindirect ⟨hdate, hnot⟩
        rw [if_neg (by simpa using hdirect)] at hresult
        split at hresult
        · cases hresult
        · exact .text hfound hdirect (scalarValue_fault_iff.mp ⟨hresult, hbad⟩)
  · rintro (⟨hfound, hdirect, hdefies⟩ | ⟨hfound, hdate, hindirect⟩)
    · obtain ⟨hvalue, hbad⟩ := scalarValue_fault_iff.mpr hdefies
      refine ⟨.scalar hdefies.isCollection ?_, hbad⟩
      rw [scalarResult_of_scalarOf hfound, if_neg (by simpa using hdirect), if_neg (by simp [hdefies.ne_text])]
      exact hvalue
    · refine ⟨.scalar (by rw [hdate]; rfl) ?_, rfl⟩
      rw [scalarResult_of_scalarOf hfound, if_pos (by simp [hdate, hindirect])]

end Graph

/-! ## Documents -/

/-- A text whose document has a trap among its nodes. -/
def Trapped (text : List Char) (f : Fault) : Prop :=
  ∃ g n, Graph.ofScan (tokensOf text) = .ok (some g) ∧ g.Reached n ∧ g.Trap n f

/-- Tokens bring bad values only, so the other faults of a text are the traps of its document. -/
theorem trapped_iff : Trapped text f ↔ Flaw text (.fault f) ∧ f.isBadValue = false := by
  constructor
  · rintro ⟨g, n, hg, hn, htrap⟩
    obtain ⟨hproblem, hbad⟩ := Graph.trap_iff.mpr htrap
    exact ⟨.node hg hn hproblem, hbad⟩
  · rintro ⟨htokens | ⟨hg, hn, hproblem⟩, hbad⟩
    · cases Graph.ofScan_tokensOf htokens <;> cases hbad
    · exact ⟨_, _, hg, hn, Graph.trap_iff.mp ⟨hproblem, hbad⟩⟩

end LogRef.Yaml
