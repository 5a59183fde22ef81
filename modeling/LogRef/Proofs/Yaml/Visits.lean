import LogRef.Proofs.Yaml.Problems

/-!
# Problems of graphs

Every node that can be reached from the root of a graph is looked at. So a graph without problems has none at any of
these nodes, and its problem is the problem of one of them, however they hang together: nodes may be reached on many
ways, and may be parts of themselves.
-/
namespace LogRef.Yaml

variable {g : Graph} {n m : Nat} {p : Problem}

namespace Graph

/-! ## Parts of nodes -/

/-- The key of a pair is looked at, unless it is `=`. -/
def keyParts (g : Graph) (key : Nat) : List Nat := if g.kind key = .equals then [] else [key]

/-- The nodes of a pair that are looked at. -/
def pairParts (g : Graph) (pair : Nat × Nat) : List Nat := g.keyParts pair.1 ++ [pair.2]

/-- The nodes of an item of pairs. -/
def itemParts (g : Graph) (number : Nat) : List Nat :=
  match g.singlePair number with
  | .ok pair => [pair.1, pair.2]
  | .error _ => []

/-- The nodes that a collection is made of. -/
def parts (g : Graph) (number : Nat) : List Nat :=
  match g.kind number, (g.node number).content with
  | .sequence, .sequence items => items
  | .mapping, .mapping _ | .set, .mapping _ => ((g.pairsOf number).toOption.getD []).flatMap g.pairParts
  | .pairs, .sequence items => items.flatMap g.itemParts
  | _, _ => []

/-- Whether a collection is made as its kind says. -/
def isMade (g : Graph) (number : Nat) : Bool :=
  match g.kind number, (g.node number).content with
  | .sequence, .sequence _ => true
  | .mapping, .mapping _ | .set, .mapping _ =>
    match g.pairsOf number with
    | .ok pairs => pairs.all fun p => !(g.kind p.1).isCollection
    | .error _ => false
  | .pairs, .sequence items => items.all fun i => (g.singlePair i).isOk
  | _, _ => false

/-- The nodes that belong to the document. -/
inductive Reached (g : Graph) : Nat → Prop
  | root (h : g.root < g.nodes.size) : Reached g g.root
  | part {n m : Nat} (hn : Reached g n) (hpart : m ∈ g.parts n) (h : m < g.nodes.size) : Reached g m

theorem Reached.lt (h : g.Reached n) : n < g.nodes.size := by
  cases h with
  | root h => exact h
  | part _ _ h => exact h

/-- What is wrong with a node itself, whatever its parts are. -/
inductive HasProblem (g : Graph) (n : Nat) : Problem → Prop
  | scalar {p : Problem} (hkind : (g.kind n).isCollection = false) (h : g.scalarResult n = .error p) : HasProblem g n p
  | shape (hkind : (g.kind n).isCollection = true) (h : g.isMade n = false) : HasProblem g n .malformed

/-- What is wrong with a node itself, if anything is. -/
def problem? (g : Graph) (n : Nat) : Option Problem :=
  if (g.kind n).isCollection then if g.isMade n then none else some .malformed
  else match g.scalarResult n with
    | .ok _ => none
    | .error p => some p

theorem problem?_of_hasProblem (h : g.HasProblem n p) : g.problem? n = some p := by
  unfold problem?
  cases h with
  | scalar hkind h => simp only [hkind, h, Bool.false_eq_true, if_false]
  | shape hkind h => simp only [hkind, h, Bool.false_eq_true, if_true, if_false]

/-- Nothing is wrong with a node itself. -/
def IsFine (g : Graph) (n : Nat) : Prop := ∀ p, ¬ g.HasProblem n p

theorem isFine_of_scalarResult {value : Value} (hkind : (g.kind n).isCollection = false)
    (h : g.scalarResult n = .ok value) : g.IsFine n := by
  rintro p (⟨-, herror⟩ | ⟨hcollection, -⟩)
  · rw [h] at herror
    cases herror
  · rw [hkind] at hcollection
    cases hcollection

theorem isFine_of_isMade (hkind : (g.kind n).isCollection = true) (h : g.isMade n = true) : g.IsFine n := by
  rintro p (⟨hscalar, -⟩ | ⟨-, hmade⟩)
  · rw [hkind] at hscalar
    cases hscalar
  · rw [h] at hmade
    cases hmade

theorem parts_of_scalar (h : (g.kind n).isCollection = false) : g.parts n = [] := by
  unfold parts
  split <;> simp_all [Kind.isCollection]

/-! ## Merge keys -/

theorem flatten_fails (g : Graph) (fuel : Nat) :
    (∀ around number, FailsOnly (· = .malformed) (g.flatten fuel around number)) ∧
    ∀ around number, FailsOnly (· = .malformed) (g.mergedPairs fuel around number) := by
  induction fuel with
  | zero => exact ⟨fun _ _ => .ok _, fun _ _ => .ok _⟩
  | succ fuel ih =>
    obtain ⟨hflatten, hmerged⟩ := ih
    constructor
    · intro around number
      unfold flatten
      split
      · exact .ite (.ok _) (.bind (.mapM fun _ => hmerged _ _) fun _ => .pure _)
      · exact .error rfl
    · intro around number
      unfold mergedPairs
      split
      · exact hflatten _ _
      · exact .bind (.mapM fun _ => hflatten _ _) fun _ => .pure _
      · exact .error rfl

/-- Pairs that cannot be told make a text no document. -/
theorem pairsOf_error (h : g.pairsOf n = .error p) : p = .malformed := (flatten_fails g _).1 _ _ p h

/-! ## Meeting nodes -/

section

variable {met : Array Bool}

/-- Whether a node needs no look: it has been met, or there is none. -/
def IsMet (met : Array Bool) (m : Nat) : Prop := met.getD m true = true

/-- How many nodes have not been met. -/
def unmet (met : Array Bool) : Nat := met.count false

theorem isMet_of_le (h : met.size ≤ m) : IsMet met m := by
  simp [IsMet, Array.getD_eq_getD_getElem?, h]

theorem isMet_set : IsMet (met.setIfInBounds n true) m ↔ m = n ∨ IsMet met m := by
  unfold IsMet
  rw [Array.getD_eq_getD_getElem?, Array.getD_eq_getD_getElem?, Array.getElem?_setIfInBounds]
  by_cases h : n = m
  · subst h
    by_cases hn : n < met.size <;> simp [hn]
  · simp [h, Ne.symm h]

theorem unmet_set (h : ¬ IsMet met n) : unmet (met.setIfInBounds n true) + 1 = unmet met := by
  have hn : n < met.size := Nat.lt_of_not_le fun hle => h (isMet_of_le hle)
  have hvalue : met[n] = false := by simpa [IsMet, Array.getD, hn] using h
  have hcount : 0 < met.count false := Array.count_pos_iff.mpr (hvalue ▸ Array.getElem_mem hn)
  unfold unmet
  rw [Array.setIfInBounds_def, dif_pos hn, Array.count_set, hvalue]
  simp
  omega

end

/-- Meeting some nodes leads from one visit to another: they have all been met then, and of those that are new, each is
a collection that waits or a scalar with nothing wrong. -/
structure Meets (g : Graph) (nodes : List Nat) (v w : Visit) : Prop where
  size : w.met.size = v.met.size
  keeps : ∀ m, IsMet v.met m → IsMet w.met m
  meets : ∀ m ∈ nodes, IsMet w.met m
  adds : ∀ m, IsMet w.met m → IsMet v.met m ∨ m ∈ w.waiting ∨ (g.kind m).isCollection = false ∧ g.IsFine m
  waits : ∀ m ∈ w.waiting, m ∈ v.waiting ∨ m ∈ nodes ∧ m < v.met.size ∧ (g.kind m).isCollection = true
  stays : ∀ m ∈ v.waiting, m ∈ w.waiting
  /-- A node that waits has been paid for when it was met. -/
  pays : unmet w.met + w.waiting.length ≤ unmet v.met + v.waiting.length

namespace Meets

variable {v w u : Visit} {ns ms : List Nat}

theorem of_isMet (h : ∀ m ∈ ns, IsMet v.met m) : Meets g ns v v where
  size := rfl
  keeps _ hm := hm
  meets := h
  adds _ hm := .inl hm
  waits _ hm := .inl hm
  stays _ hm := hm
  pays := Nat.le_refl _

theorem refl (v : Visit) : Meets g [] v v := .of_isMet fun _ hm => absurd hm List.not_mem_nil

theorem trans (h : Meets g ns v w) (h' : Meets g ms w u) : Meets g (ns ++ ms) v u where
  size := h'.size.trans h.size
  keeps m hm := h'.keeps m (h.keeps m hm)
  meets m hm := by
    rcases List.mem_append.mp hm with hn | hm
    · exact h'.keeps m (h.meets m hn)
    · exact h'.meets m hm
  adds m hm := by
    rcases h'.adds m hm with hw | hnew
    · rcases h.adds m hw with hv | hwaiting | hfine
      · exact .inl hv
      · exact .inr (.inl (h'.stays m hwaiting))
      · exact .inr (.inr hfine)
    · exact .inr hnew
  waits m hm := by
    rcases h'.waits m hm with hw | ⟨hms, hlt, hkind⟩
    · rcases h.waits m hw with hv | ⟨hns, hkind⟩
      · exact .inl hv
      · exact .inr ⟨List.mem_append_left _ hns, hkind⟩
    · exact .inr ⟨List.mem_append_right _ hms, h.size ▸ hlt, hkind⟩
  stays m hm := h'.stays m (h.stays m hm)
  pays := Nat.le_trans h'.pays h.pays

theorem of_new {waiting : List Nat} (hnew : ¬ IsMet v.met n)
    (hadds : n ∈ waiting ∨ (g.kind n).isCollection = false ∧ g.IsFine n)
    (hwaits : ∀ m ∈ waiting, m ∈ v.waiting ∨ m = n ∧ (g.kind n).isCollection = true)
    (hstays : ∀ m ∈ v.waiting, m ∈ waiting) (hlength : waiting.length ≤ v.waiting.length + 1) :
    Meets g [n] v ⟨v.met.setIfInBounds n true, waiting⟩ where
  size := Array.size_setIfInBounds
  keeps _ hm := isMet_set.mpr (.inr hm)
  meets _ hm := isMet_set.mpr (.inl (List.mem_singleton.mp hm))
  adds m hm := by
    rcases isMet_set.mp hm with rfl | hold
    · exact .inr hadds
    · exact .inl hold
  waits m hm := by
    rcases hwaits m hm with hold | ⟨rfl, hkind⟩
    · exact .inl hold
    · have hlt : m < v.met.size := Nat.lt_of_not_le fun hle => hnew (isMet_of_le hle)
      exact .inr ⟨List.mem_singleton_self m, hlt, hkind⟩
  stays := hstays
  pays := by
    have hunmet := unmet_set hnew
    dsimp only
    omega

end Meets

theorem meet_ok {v w : Visit} (h : g.meet v n = .ok w) : Meets g [n] v w := by
  unfold meet at h
  split at h
  · rename_i hmet
    cases h
    exact .of_isMet fun m hm => List.mem_singleton.mp hm ▸ hmet
  · rename_i hnew
    dsimp only at h
    split at h
    · rename_i hkind
      cases h
      refine .of_new hnew (.inl List.mem_cons_self) (fun m hm => ?_) (fun _ => List.mem_cons_of_mem _) (Nat.le_refl _)
      rcases List.mem_cons.mp hm with rfl | hold
      · exact .inr ⟨rfl, hkind⟩
      · exact .inl hold
    · rename_i hkind
      obtain ⟨value, hvalue, hdone⟩ := bind_ok h
      cases hdone
      have hscalar : (g.kind n).isCollection = false := by simpa using hkind
      exact .of_new hnew (.inr ⟨hscalar, isFine_of_scalarResult hscalar hvalue⟩) (fun _ => .inl) (fun _ => id)
        (Nat.le_succ _)

theorem meet_error {v : Visit} (hsize : v.met.size = g.nodes.size) (h : g.meet v n = .error p) :
    n < g.nodes.size ∧ g.HasProblem n p := by
  unfold meet at h
  split at h
  · cases h
  · rename_i hnew
    refine ⟨Nat.lt_of_not_le fun hle => hnew (isMet_of_le (hsize ▸ hle)), ?_⟩
    dsimp only at h
    split at h
    · cases h
    · rename_i hkind
      rcases bind_error h with hresult | ⟨value, -, hdone⟩
      · exact .scalar (by simpa using hkind) hresult
      · cases hdone

/-! ## Steps -/

section

variable {α : Type} {step : Visit → α → Except Problem Visit} {parts : α → List Nat} {isGood : α → Bool} {l : List α}
  {v w : Visit}

/-- A step that meets the parts of what it is taken on. It fails because of one of them, or because that is not good. -/
structure StepMeets (g : Graph) (step : Visit → α → Except Problem Visit) (parts : α → List Nat) (isGood : α → Bool) :
    Prop where
  ok : ∀ v w a, step v a = .ok w → isGood a = true ∧ Meets g (parts a) v w
  error : ∀ v a p, v.met.size = g.nodes.size → step v a = .error p →
    isGood a = false ∧ p = .malformed ∨ ∃ m ∈ parts a, m < g.nodes.size ∧ g.HasProblem m p

theorem StepMeets.foldlM_ok (hstep : StepMeets g step parts isGood) (h : l.foldlM step v = .ok w) :
    l.all isGood = true ∧ Meets g (l.flatMap parts) v w := by
  induction l generalizing v with
  | nil =>
    cases h
    exact ⟨rfl, .refl _⟩
  | cons a l ih =>
    rw [List.foldlM_cons] at h
    obtain ⟨u, hu, hrest⟩ := bind_ok h
    obtain ⟨hgood, hmeets⟩ := hstep.ok v u a hu
    obtain ⟨hall, hmore⟩ := ih hrest
    exact ⟨by rw [List.all_cons, hgood, hall]; rfl, List.flatMap_cons ▸ hmeets.trans hmore⟩

theorem StepMeets.foldlM_error (hstep : StepMeets g step parts isGood) (hsize : v.met.size = g.nodes.size)
    (h : l.foldlM step v = .error p) :
    l.all isGood = false ∧ p = .malformed ∨ ∃ m ∈ l.flatMap parts, m < g.nodes.size ∧ g.HasProblem m p := by
  induction l generalizing v with
  | nil => cases h
  | cons a l ih =>
    rw [List.foldlM_cons] at h
    rw [List.all_cons, List.flatMap_cons]
    rcases bind_error h with hhere | ⟨u, hu, hrest⟩
    · rcases hstep.error v a p hsize hhere with ⟨hgood, hp⟩ | ⟨m, hm, hproblem⟩
      · exact .inl ⟨by rw [hgood]; rfl, hp⟩
      · exact .inr ⟨m, List.mem_append_left _ hm, hproblem⟩
    · rcases ih ((hstep.ok v u a hu).2.size.trans hsize) hrest with ⟨hgood, hp⟩ | ⟨m, hm, hproblem⟩
      · exact .inl ⟨by rw [hgood, Bool.and_false], hp⟩
      · exact .inr ⟨m, List.mem_append_right _ hm, hproblem⟩

end

theorem stepMeets_meet (g : Graph) : StepMeets g g.meet (fun n => [n]) fun _ => true where
  ok _ _ _ h := ⟨rfl, meet_ok h⟩
  error _ _ _ hsize h := .inr ⟨_, List.mem_singleton_self _, meet_error hsize h⟩

/-- The key of a pair is met, then it is told whether it may be a key, then the value is met. -/
theorem meetPair_eq (g : Graph) (v : Visit) (pair : Nat × Nat) :
    g.meetPair v pair = (g.keyParts pair.1).foldlM g.meet v >>= fun u =>
      if (g.kind pair.1).isCollection then .error .malformed else g.meet u pair.2 := by
  unfold meetPair keyParts
  dsimp only
  by_cases hequals : g.kind pair.1 = .equals
  · rw [if_pos hequals, if_pos hequals]
    rfl
  · rw [if_neg hequals, if_neg hequals, List.foldlM_cons]
    cases g.meet v pair.1 <;> rfl

theorem stepMeets_meetPair (g : Graph) :
    StepMeets g g.meetPair g.pairParts fun pair => !(g.kind pair.1).isCollection where
  ok v w pair h := by
    rw [meetPair_eq] at h
    obtain ⟨u, hkey, hvalue⟩ := bind_ok h
    split at hvalue
    · cases hvalue
    · rename_i hkind
      have hfirst := ((stepMeets_meet g).foldlM_ok hkey).2
      rw [List.flatMap_singleton'] at hfirst
      exact ⟨by simpa using hkind, hfirst.trans (meet_ok hvalue)⟩
  error v pair p hsize h := by
    rw [meetPair_eq] at h
    rcases bind_error h with hkey | ⟨u, hkey, hvalue⟩
    · rcases (stepMeets_meet g).foldlM_error hsize hkey with ⟨hgood, -⟩ | ⟨m, hm, hproblem⟩
      · simp at hgood
      · rw [List.flatMap_singleton'] at hm
        exact .inr ⟨m, List.mem_append_left _ hm, hproblem⟩
    · split at hvalue
      · rename_i hkind
        cases hvalue
        exact .inl ⟨by simpa using hkind, rfl⟩
      · have hu := ((stepMeets_meet g).foldlM_ok hkey).2.size.trans hsize
        exact .inr ⟨pair.2, List.mem_append_right _ (List.mem_singleton_self _), meet_error hu hvalue⟩

theorem meetItem_eq (g : Graph) (v : Visit) (number : Nat) :
    g.meetItem v number = g.singlePair number >>= fun pair => [pair.1, pair.2].foldlM g.meet v := by
  unfold meetItem
  simp only [List.foldlM_cons, List.foldlM_nil, bind_pure]

theorem singlePair_error (h : g.singlePair n = .error p) : p = .malformed := by
  unfold singlePair at h
  split at h <;> cases h
  rfl

theorem stepMeets_meetItem (g : Graph) : StepMeets g g.meetItem g.itemParts fun i => (g.singlePair i).isOk where
  ok v w i h := by
    rw [meetItem_eq] at h
    obtain ⟨pair, hpair, hmeet⟩ := bind_ok h
    have hmeets := ((stepMeets_meet g).foldlM_ok hmeet).2
    unfold itemParts
    rw [hpair]
    exact ⟨rfl, hmeets⟩
  error v i p hsize h := by
    rw [meetItem_eq] at h
    unfold itemParts
    rcases bind_error h with hpair | ⟨pair, hpair, hmeet⟩
    · rw [hpair]
      exact .inl ⟨rfl, singlePair_error hpair⟩
    · rw [hpair]
      rcases (stepMeets_meet g).foldlM_error hsize hmeet with ⟨hgood, -⟩ | hproblem
      · simp at hgood
      · exact .inr hproblem

/-! ## Entering collections -/

/-- How a mapping is entered, or a set. -/
theorem foldlM_pairs_ok {v w : Visit} (h : (g.pairsOf n >>= fun pairs => pairs.foldlM g.meetPair v) = .ok w) :
    (match g.pairsOf n with
      | .ok pairs => pairs.all fun p => !(g.kind p.1).isCollection
      | .error _ => false) = true ∧
    Meets g (((g.pairsOf n).toOption.getD []).flatMap g.pairParts) v w := by
  obtain ⟨pairs, hpairs, hfold⟩ := bind_ok h
  rw [hpairs]
  exact (stepMeets_meetPair g).foldlM_ok hfold

theorem foldlM_pairs_error {v : Visit} (hsize : v.met.size = g.nodes.size)
    (h : (g.pairsOf n >>= fun pairs => pairs.foldlM g.meetPair v) = .error p) :
    (match g.pairsOf n with
      | .ok pairs => pairs.all fun p => !(g.kind p.1).isCollection
      | .error _ => false) = false ∧ p = .malformed ∨
    ∃ m ∈ ((g.pairsOf n).toOption.getD []).flatMap g.pairParts, m < g.nodes.size ∧ g.HasProblem m p := by
  rcases bind_error h with hpairs | ⟨pairs, hpairs, hfold⟩
  · rw [hpairs]
    exact .inl ⟨rfl, pairsOf_error hpairs⟩
  · rw [hpairs]
    exact (stepMeets_meetPair g).foldlM_error hsize hfold

/-- A collection that can be entered is made as its kind says, and its parts have been met then. -/
theorem enter_ok {v w : Visit} (h : g.enter v n = .ok w) : g.isMade n = true ∧ Meets g (g.parts n) v w := by
  unfold enter at h
  split at h
  · rename_i items hkind hcontent
    have hmeets := ((stepMeets_meet g).foldlM_ok h).2
    rw [List.flatMap_singleton'] at hmeets
    simp only [isMade, parts, hkind, hcontent]
    exact ⟨trivial, hmeets⟩
  · rename_i pairs hkind hcontent
    simp only [isMade, parts, hkind, hcontent]
    exact foldlM_pairs_ok h
  · rename_i pairs hkind hcontent
    simp only [isMade, parts, hkind, hcontent]
    exact foldlM_pairs_ok h
  · rename_i items hkind hcontent
    simp only [isMade, parts, hkind, hcontent]
    exact (stepMeets_meetItem g).foldlM_ok h
  · cases h

/-- What cannot be entered is not made as its kind says, or something is wrong with a part. -/
theorem enter_error {v : Visit} (hsize : v.met.size = g.nodes.size) (h : g.enter v n = .error p) :
    g.isMade n = false ∧ p = .malformed ∨ ∃ m ∈ g.parts n, m < g.nodes.size ∧ g.HasProblem m p := by
  unfold enter at h
  split at h
  · rename_i items hkind hcontent
    rcases (stepMeets_meet g).foldlM_error hsize h with ⟨hgood, -⟩ | hpart
    · simp at hgood
    · rw [List.flatMap_singleton'] at hpart
      simp only [parts, hkind, hcontent]
      exact .inr hpart
  · rename_i pairs hkind hcontent
    simp only [isMade, parts, hkind, hcontent]
    exact foldlM_pairs_error hsize h
  · rename_i pairs hkind hcontent
    simp only [isMade, parts, hkind, hcontent]
    exact foldlM_pairs_error hsize h
  · rename_i items hkind hcontent
    simp only [isMade, parts, hkind, hcontent]
    exact (stepMeets_meetItem g).foldlM_error hsize h
  · cases h
    refine .inl ⟨?_, rfl⟩
    unfold isMade
    split <;> simp_all

/-! ## The whole graph -/

/-- Where the look at a graph stands: but for the collections that wait, nothing is wrong with what has been met, and
its parts have been met too. -/
structure Ledger (g : Graph) (met : Array Bool) (waiting : List Nat) : Prop where
  size : met.size = g.nodes.size
  root : IsMet met g.root
  waits : ∀ m ∈ waiting, g.Reached m ∧ (g.kind m).isCollection = true
  settled : ∀ m, m < g.nodes.size → IsMet met m → m ∈ waiting ∨ g.IsFine m ∧ ∀ k ∈ g.parts m, IsMet met k

namespace Ledger

variable {met : Array Bool} {waiting : List Nat}

/-- Entering the first collection that waits settles it. -/
theorem step {v : Visit} (h : Ledger g met (n :: waiting)) (hv : g.enter ⟨met, []⟩ n = .ok v) :
    Ledger g v.met (waiting ++ v.waiting.reverse) := by
  obtain ⟨hreached, hkind⟩ := h.waits n List.mem_cons_self
  obtain ⟨hmade, hmeets⟩ := enter_ok hv
  constructor
  case size => exact hmeets.size.trans h.size
  case root => exact hmeets.keeps _ h.root
  case waits =>
    intro m hm
    rcases List.mem_append.mp hm with hold | hnew
    · exact h.waits m (List.mem_cons_of_mem _ hold)
    · rcases hmeets.waits m (List.mem_reverse.mp hnew) with hnone | ⟨hpart, hlt, hcollection⟩
      · cases hnone
      · exact ⟨.part hreached hpart (h.size ▸ hlt), hcollection⟩
  case settled =>
    intro m hm hmet
    rcases hmeets.adds m hmet with hold | hwaiting | ⟨hscalar, hfine⟩
    · rcases h.settled m hm hold with hwaiting | ⟨hfine, hparts⟩
      · rcases List.mem_cons.mp hwaiting with rfl | hwaiting
        · exact .inr ⟨isFine_of_isMade hkind hmade, hmeets.meets⟩
        · exact .inl (List.mem_append_left _ hwaiting)
      · exact .inr ⟨hfine, fun k hk => hmeets.keeps k (hparts k hk)⟩
    · exact .inl (List.mem_append_right _ (List.mem_reverse.mpr hwaiting))
    · exact .inr ⟨hfine, parts_of_scalar hscalar ▸ fun k hk => absurd hk List.not_mem_nil⟩

/-- Entering what waits settles everything: there is fuel for all nodes that wait or may come to wait. -/
theorem run {fuel : Nat} (h : Ledger g met waiting) (hfuel : waiting.length + unmet met ≤ fuel)
    (hrun : g.enterAll fuel met waiting = .ok ()) : ∃ met', Ledger g met' [] := by
  induction fuel generalizing met waiting with
  | zero =>
    obtain rfl : waiting = [] := List.eq_nil_of_length_eq_zero (by omega)
    exact ⟨met, h⟩
  | succ fuel ih =>
    cases waiting with
    | nil => exact ⟨met, h⟩
    | cons n rest =>
      rw [enterAll] at hrun
      obtain ⟨v, hv, hmore⟩ := bind_ok hrun
      refine ih (h.step hv) ?_ hmore
      have hpays := (enter_ok hv).2.pays
      simp only [List.length_cons, List.length_nil, List.length_append, List.length_reverse] at hfuel hpays ⊢
      omega

theorem run_error {fuel : Nat} (h : Ledger g met waiting) (hrun : g.enterAll fuel met waiting = .error p) :
    ∃ n, g.Reached n ∧ g.HasProblem n p := by
  induction fuel generalizing met waiting with
  | zero => cases hrun
  | succ fuel ih =>
    cases waiting with
    | nil => cases hrun
    | cons n rest =>
      rw [enterAll] at hrun
      rcases bind_error hrun with hhere | ⟨v, hv, hmore⟩
      · obtain ⟨hreached, hkind⟩ := h.waits n List.mem_cons_self
        rcases enter_error h.size hhere with ⟨hmade, rfl⟩ | ⟨m, hpart, hlt, hproblem⟩
        · exact ⟨n, hreached, .shape hkind hmade⟩
        · exact ⟨m, .part hreached hpart hlt, hproblem⟩
      · exact ih (h.step hv) hmore

/-- When nothing waits any more, nothing is wrong with the document. -/
theorem isFine_of_reached (h : Ledger g met []) (hn : g.Reached n) : g.IsFine n := by
  have hsettled {m : Nat} (hm : m < g.nodes.size) (hmet : IsMet met m) :
      g.IsFine m ∧ ∀ k ∈ g.parts m, IsMet met k :=
    (h.settled m hm hmet).resolve_left List.not_mem_nil
  have hmet : n < g.nodes.size ∧ IsMet met n := by
    induction hn with
    | root hlt => exact ⟨hlt, h.root⟩
    | part hn hpart hlt ih => exact ⟨hlt, (hsettled ih.1 ih.2).2 _ hpart⟩
  exact (hsettled hmet.1 hmet.2).1

theorem start {v : Visit} (hv : g.meet ⟨Array.replicate g.nodes.size false, []⟩ g.root = .ok v) :
    Ledger g v.met v.waiting := by
  have hmeets := meet_ok hv
  have hnone {m : Nat} (hm : m < g.nodes.size) : ¬ IsMet (Array.replicate g.nodes.size false) m := by
    simp [IsMet, Array.getD, hm]
  constructor
  case size => simpa using hmeets.size
  case root => exact hmeets.meets _ (List.mem_singleton_self _)
  case waits =>
    intro m hm
    rcases hmeets.waits m hm with hnil | ⟨hroot, hlt, hkind⟩
    · cases hnil
    · rw [List.mem_singleton.mp hroot] at hlt hkind ⊢
      exact ⟨.root (by simpa using hlt), hkind⟩
  case settled =>
    intro m hm hmet
    rcases hmeets.adds m hmet with hold | hwaiting | ⟨hscalar, hfine⟩
    · exact absurd hold (hnone hm)
    · exact .inl hwaiting
    · exact .inr ⟨hfine, parts_of_scalar hscalar ▸ fun k hk => absurd hk List.not_mem_nil⟩

end Ledger

/-- A graph passes only if nothing is wrong with any node of the document. -/
theorem isFine_of_check (h : g.check = .ok ()) (hn : g.Reached n) : g.IsFine n := by
  unfold check at h
  obtain ⟨v, hv, hrun⟩ := bind_ok h
  have hfuel : v.waiting.length + unmet v.met ≤ g.nodes.size + 1 := by
    have hpays := (meet_ok hv).pays
    have hcount : unmet (Array.replicate g.nodes.size false) = g.nodes.size := by simp [unmet]
    simp only [hcount, List.length_nil] at hpays
    omega
  obtain ⟨met, hledger⟩ := (Ledger.start hv).run hfuel hrun
  exact hledger.isFine_of_reached hn

/-- A graph that does not pass has the problem of a node of the document. -/
theorem problem_of_check (h : g.check = .error p) : ∃ n, g.Reached n ∧ g.HasProblem n p := by
  unfold check at h
  rcases bind_error h with hroot | ⟨v, hv, hrun⟩
  · obtain ⟨hlt, hproblem⟩ := meet_error (by simp) hroot
    exact ⟨g.root, .root hlt, hproblem⟩
  · exact (Ledger.start hv).run_error hrun

end Graph

/-! ## Documents -/

/-- What is wrong with a text that should be a document: it makes no graph, or one of the nodes has a problem. -/
inductive Flaw (text : List Char) : Problem → Prop
  | tokens {p : Problem} (h : Graph.ofScan (tokensOf text) = .error p) : Flaw text p
  | node {g : Graph} {n : Nat} {p : Problem} (hg : Graph.ofScan (tokensOf text) = .ok (some g)) (hn : g.Reached n)
      (h : g.HasProblem n p) : Flaw text p

/-- A text without a value has a flaw, and that is why. -/
theorem flaw_of_valueOf {levels : Nat} {text : List Char} (h : valueOf levels text = .error p) : Flaw text p := by
  unfold valueOf at h
  rcases bind_error h with hscan | ⟨found, hscan, hvalue⟩
  · exact .tokens hscan
  · cases found with
    | none => cases hvalue
    | some g =>
      rcases bind_error hvalue with hcheck | ⟨_, -, hdone⟩
      · obtain ⟨n, hn, hproblem⟩ := Graph.problem_of_check hcheck
        exact .node hscan hn hproblem
      · cases hdone

/-- A text with a value has no flaw. -/
theorem not_flaw_of_valueOf {levels : Nat} {text : List Char} {value : Value} (h : valueOf levels text = .ok value) :
    ¬ Flaw text p := by
  unfold valueOf at h
  obtain ⟨found, hscan, hvalue⟩ := bind_ok h
  rintro (herror | ⟨hg, hn, hproblem⟩)
  · rw [hscan] at herror
    cases herror
  · rw [hscan] at hg
    cases hg
    obtain ⟨_, hcheck, -⟩ := bind_ok hvalue
    exact Graph.isFine_of_check hcheck hn p hproblem

end LogRef.Yaml
