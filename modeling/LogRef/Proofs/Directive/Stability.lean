import Mathlib.Data.List.Forall2
import LogRef.Proofs.Directive.Insertion
import LogRef.Proofs.Text.LineNumbers

/-!
# Directives of an edited source

Texts put into a source, each well guarded on its line, leave every line a directive or none, blank or not.
So a directive is about the same lines as before.
-/
namespace LogRef

open CommentPattern

/-- Lines that say the same to the calls behind them. -/
structure SameDirective (line' line : List Char) : Prop where
  blank : Text.trim line' = [] ↔ Text.trim line = []
  directive : ∀ name, Excludes name →
    isDirectiveLine slashes name (Text.trim line') = isDirectiveLine slashes name (Text.trim line)

/-- The line that a text breaks off in. -/
def lastLine (text : List Char) : List Char := (text.reverse.takeWhile (· != '\n')).reverse

/-- Lines with a text put before the first one. -/
def startWith (text : List Char) : List (List Char) → List (List Char)
  | [] => [text]
  | line :: lines => (text ++ line) :: lines

/-- A text at a position of the code is fit to be there. -/
structure FitsLine (code : List Char) (i : Nat) (text : List Char) : Prop where
  insertable : Insertable text
  oneLine : '\n' ∉ text
  guarded : Guards (lastLine (code.take i)) code[i]?

namespace SameDirective

variable {a b c : List Char}

theorem refl (line : List Char) : SameDirective line line := ⟨Iff.rfl, fun _ _ => rfl⟩

theorem trans (h1 : SameDirective a b) (h2 : SameDirective b c) : SameDirective a c :=
  ⟨h1.blank.trans h2.blank, fun name hn => (h1.directive name hn).trans (h2.directive name hn)⟩

theorem insert {front text rest : List Char} (ht : Insertable text) (hg : Guards front rest.head?) :
    SameDirective (front ++ (text ++ rest)) (front ++ rest) :=
  ⟨iff_of_false (ht.trim_ne_nil front rest) hg.trim_ne_nil,
    fun _ hn => isDirectiveLine_insert hn ht hg⟩

end SameDirective

theorem Guards.at_end {front : List Char} (h : Guards front (some '\n')) : Guards front none := by
  rcases h with ⟨_, c, hc, hblank⟩ | ⟨before, f, blanks, rfl, hf, hblanks, hslash⟩
  · obtain rfl : '\n' = c := by simpa using hc
    exact absurd hblank (by decide)
  · exact Or.inr ⟨before, f, blanks, rfl, hf, hblanks,
      fun h => ⟨(hslash h).1, fun _ c hc => by cases hc⟩⟩

theorem lastLine_newline (text : List Char) : lastLine (text ++ ['\n']) = [] := by
  simp [lastLine]

theorem lastLine_append {c : Char} (h : c ≠ '\n') (text : List Char) :
    lastLine (text ++ [c]) = lastLine text ++ [c] := by
  simp [lastLine, h]

theorem lastLine_suffix (text : List Char) : lastLine text <:+ text := by
  have h := List.takeWhile_prefix (l := text.reverse) (· != '\n')
  rwa [← List.reverse_suffix, List.reverse_reverse] at h

theorem splitOn_append {a : List Char} (h : '\n' ∉ a) (b : List Char) :
    Text.splitOn '\n' (a ++ b) = startWith a (Text.splitOn '\n' b) := by
  induction a with
  | nil =>
    rw [List.nil_append]
    cases hb : Text.splitOn '\n' b with
    | nil => exact absurd hb (Text.splitOn_ne_nil _ _)
    | cons line lines => rfl
  | cons c a ih =>
    rw [List.mem_cons, not_or] at h
    rw [List.cons_append, Text.splitOn, if_neg (Ne.symm h.1), ih h.2]
    cases Text.splitOn '\n' b <;> rfl

theorem startWith_startWith (a b : List Char) (lines : List (List Char)) :
    startWith a (startWith b lines) = startWith (a ++ b) lines := by
  cases lines with
  | nil => rfl
  | cons line lines => simp [startWith]

theorem exists_splitOn (text : List Char) : ∃ line lines, Text.splitOn '\n' text = line :: lines :=
  List.exists_cons_of_ne_nil (Text.splitOn_ne_nil '\n' text)

/-- The lines of the code with texts put in say what they said before. -/
theorem sameDirective_weave {code : List Char} {mark : Nat → List Char}
    (h : ∀ i, mark i ≠ [] → FitsLine code i (mark i)) {passed rest : List Char}
    (hcode : code = passed ++ rest) :
    List.Forall₂ SameDirective
      (startWith (lastLine passed) (Text.splitOn '\n' (weave mark passed.length rest)))
      (startWith (lastLine passed) (Text.splitOn '\n' rest)) := by
  induction rest generalizing passed with
  | nil => exact List.Forall₂.cons (SameDirective.refl _) List.Forall₂.nil
  | cons c rest ih =>
    have hnext := @ih (passed ++ [c]) (by rw [hcode]; simp)
    have htake : code.take passed.length = passed := by rw [hcode, List.take_left' rfl]
    have hget : code[passed.length]? = some c := by rw [hcode]; simp
    have hmark : '\n' ∉ mark passed.length := by
      intro hmem
      exact (h _ (List.ne_nil_of_mem hmem)).oneLine hmem
    -- the text put in here, with what follows on the line
    have hinsert (behind : List Char) (hbehind : Guards (lastLine passed) (some c) →
        Guards (lastLine passed) behind.head?) :
        SameDirective (lastLine passed ++ (mark passed.length ++ behind)) (lastLine passed ++ behind) := by
      by_cases hm : mark passed.length = []
      · rw [hm]
        exact SameDirective.refl _
      · have hfits := h _ hm
        have hguard := hfits.guarded
        rw [htake, hget] at hguard
        exact SameDirective.insert hfits.insertable (hbehind hguard)
    obtain ⟨line', lines', hlines'⟩ := exists_splitOn (weave mark (passed.length + 1) rest)
    obtain ⟨line, lines, hlines⟩ := exists_splitOn rest
    rw [List.length_append, List.length_singleton, hlines', hlines] at hnext
    rw [weave, splitOn_append hmark, startWith_startWith]
    by_cases hc : c = '\n'
    · subst hc
      rw [lastLine_newline] at hnext
      simp only [Text.splitOn, if_true, startWith, hlines', hlines, List.nil_append, List.append_nil]
        at hnext ⊢
      refine List.Forall₂.cons ?_ hnext
      have hend := hinsert [] Guards.at_end
      rwa [List.append_nil, List.append_nil] at hend
    · have hsingle : '\n' ∉ [c] := by simpa using Ne.symm hc
      rw [lastLine_append hc] at hnext
      rw [← List.singleton_append, splitOn_append hsingle, startWith_startWith,
        ← List.singleton_append (l := rest), splitOn_append hsingle, startWith_startWith, hlines', hlines]
      simp only [startWith] at hnext ⊢
      cases hnext with
      | cons hhead htail =>
        refine List.Forall₂.cons (SameDirective.trans ?_ hhead) htail
        have hmid := hinsert (c :: line') id
        simpa using hmid

/-- The nearest line with text on it is a directive in one list of lines if it is in the other. -/
theorem nearest_of_sameDirective {name : List Char} (hn : Excludes name) {lines' lines : List (List Char)}
    (h : List.Forall₂ SameDirective lines' lines) :
    ((lines'.map Text.trim).find? (!·.isEmpty)).any (isDirectiveLine slashes name) =
      ((lines.map Text.trim).find? (!·.isEmpty)).any (isDirectiveLine slashes name) := by
  induction h with
  | nil => rfl
  | @cons line' line lines' lines hline _ ih =>
    rw [List.map_cons, List.map_cons, List.find?_cons, List.find?_cons]
    by_cases hblank : Text.trim line = []
    · rw [hline.blank.mpr hblank, hblank]
      exact ih
    · have hblank' : Text.trim line' ≠ [] := fun h' => hblank (hline.blank.mp h')
      rw [List.isEmpty_eq_false_iff.mpr hblank, List.isEmpty_eq_false_iff.mpr hblank']
      exact hline.directive name hn

/-- A directive is about a line of the edited code if it was about it before. -/
theorem isDirected_weave {name : List Char} (hn : Excludes name) {code : List Char}
    {mark : Nat → List Char} (h : ∀ i, mark i ≠ [] → FitsLine code i (mark i)) {k : Nat}
    (hk : k ≤ code.count '\n') :
    isDirected slashes name (weave mark 0 code) ((charLineStarts (weave mark 0 code)).getD k 0) =
      isDirected slashes name code ((charLineStarts code).getD k 0) := by
  have hmark (i : Nat) : (mark i).count '\n' = 0 := by
    refine List.count_eq_zero.mpr fun hmem => ?_
    exact (h i (List.ne_nil_of_mem hmem)).oneLine hmem
  have hlines := sameDirective_weave h (show code = [] ++ code from rfl)
  simp only [lastLine, List.reverse_nil, List.takeWhile_nil, List.length_nil] at hlines
  obtain ⟨line', lines', hlines'⟩ := exists_splitOn (weave mark 0 code)
  obtain ⟨line, lines, hlines0⟩ := exists_splitOn code
  simp only [hlines', hlines0, startWith, List.nil_append] at hlines
  unfold isDirected nearestLineBefore
  rw [linesBefore_lineStart (by rwa [count_weave hmark]), linesBefore_lineStart hk, hlines', hlines0]
  exact nearest_of_sameDirective hn (List.rel_reverse (List.forall₂_take k hlines))

end LogRef
