import LogRef.Proofs.Run.Writes

/-!
# Files that share a counter

Any number of files may be marked at once from one counter. Each takes its ids one fetch at a time, the fetches of
different files come in any order, and the counter may be looked at in between. Whatever the order, the ids are
handed out without a gap, a file gets its own in the order of its targets, and after a refusal the counter stands
still.
-/
namespace LogRef.Insertion

/-- A file being marked: the ids it has got and the text up to the last of them, the targets ahead, and the
overflow that stopped it, if one did. -/
structure Marking where
  contents : Bytes
  cursor : Nat
  text : Bytes
  marks : List (Entry × Int)
  ahead : List Entry
  overflow : Option Overflow

namespace Marking

def new (contents : Bytes) (targets : List Entry) : Marking := ⟨contents, 0, [], [], targets, none⟩

/-- The target that the next id is for; a file that was refused an id asks for no more. -/
def wanted (m : Marking) : Option Entry := if m.overflow.isSome then none else m.ahead.head?

/-- Writes the text up to a target, and the id at it. -/
def put (m : Marking) (e : Entry) (id : Int) : Marking :=
  let place := clampOffset m.contents.length e.position.offset
  { m with
    cursor := place
    text := m.text ++ ((m.contents.take place).drop m.cursor ++ Bytes.ofString (e.markFor id))
    marks := m.marks ++ [(e, id)]
    ahead := m.ahead.tail }

def stopAt (m : Marking) (o : Overflow) : Marking := { m with overflow := some o }

/-- What a file that asks for no more ids has come to. -/
def outcome (m : Marking) : Option (Except Overflow Bytes) :=
  match m.overflow, m.ahead with
  | some o, _ => some (.error o)
  | none, [] => some (.ok (m.text ++ m.contents.drop m.cursor))
  | none, _ :: _ => none

/-- The marks are for the first targets, in order, and whatever marks the rest of the contents marks the whole. -/
structure Sound (contents : Bytes) (targets : List Entry) (m : Marking) : Prop where
  contents_eq : m.contents = contents
  targets_eq : m.marks.map Prod.fst ++ m.ahead = targets
  marked : ∀ {marks data}, Marked contents m.cursor marks data → Marked contents 0 (m.marks ++ marks) (m.text ++ data)

variable {m : Marking} {e : Entry} {contents : Bytes} {targets : List Entry}

theorem ahead_of_wanted (h : m.wanted = some e) : m.overflow = none ∧ ∃ rest, m.ahead = e :: rest := by
  unfold wanted at h
  split at h
  · cases h
  · next hgo =>
    obtain ⟨rest, hrest⟩ := List.head?_eq_some_iff.mp h
    exact ⟨by simpa using hgo, rest, hrest⟩

theorem Sound.start (contents : Bytes) (targets : List Entry) : (new contents targets).Sound contents targets :=
  ⟨rfl, rfl, fun h => h⟩

theorem Sound.stopAt (h : m.Sound contents targets) (o : Overflow) : (m.stopAt o).Sound contents targets :=
  ⟨h.contents_eq, h.targets_eq, h.marked⟩

theorem Sound.put (h : m.Sound contents targets) (hwant : m.wanted = some e) (id : Int) :
    (m.put e id).Sound contents targets := by
  obtain ⟨_, rest, hahead⟩ := ahead_of_wanted hwant
  refine ⟨h.contents_eq, ?_, fun {marks data} hmarked => ?_⟩
  · rw [← h.targets_eq, hahead]
    simp [Marking.put, hahead]
  · rw [← h.contents_eq] at hmarked ⊢
    have hfrom : Marked m.contents m.cursor ((e, id) :: marks) _ := .mark hmarked
    have hwhole := h.contents_eq ▸ h.marked (h.contents_eq ▸ hfrom)
    simpa [Marking.put] using hwhole

/-- A file that got all its ids has its old contents with the marks put in. -/
theorem Sound.marked_of_outcome {data : Bytes} (h : m.Sound contents targets) (hout : m.outcome = some (.ok data)) :
    m.marks.map Prod.fst = targets ∧ Marked contents 0 m.marks data := by
  unfold outcome at hout
  split at hout
  · cases hout
  · next hahead =>
    obtain rfl := Except.ok.inj (Option.some.inj hout)
    refine ⟨by simpa [hahead] using h.targets_eq, ?_⟩
    simpa [h.contents_eq] using h.marked (.rest m.cursor)
  · cases hout

end Marking

/-- A call on the shared counter, for the next id of a file or for a look at the counter. -/
inductive Call (ι : Type)
  | fetch (file : ι)
  | peek
  deriving DecidableEq

/-- What a call gave. -/
inductive Answer (ι : Type)
  | handed (file : ι) (id : Int)
  | refused (file : ι) (o : Overflow)
  | shown (next : Int)
  deriving DecidableEq

namespace Answer

variable {ι : Type}

def id? : Answer ι → Option Int
  | handed _ id => some id
  | _ => none

def idFor? [DecidableEq ι] (i : ι) : Answer ι → Option Int
  | handed file id => if file = i then some id else none
  | _ => none

/-- The ids that were handed out. -/
def ids (answers : List (Answer ι)) : List Int := answers.filterMap id?

/-- The ids that were handed out to one file. -/
def idsFor [DecidableEq ι] (i : ι) (answers : List (Answer ι)) : List Int := answers.filterMap (idFor? i)

@[simp] theorem idsFor_append [DecidableEq ι] (i : ι) (as bs : List (Answer ι)) :
    idsFor i (as ++ bs) = idsFor i as ++ idsFor i bs := List.filterMap_append

@[simp] theorem idsFor_shown [DecidableEq ι] (i : ι) (n : Int) : idsFor i [.shown n] = [] := rfl

@[simp] theorem idsFor_refused [DecidableEq ι] (i j : ι) (o : Overflow) : idsFor i [.refused j o] = [] := rfl

@[simp] theorem idsFor_handed [DecidableEq ι] (i j : ι) (id : Int) :
    idsFor i [.handed j id] = if j = i then [id] else [] := by
  by_cases h : j = i <;> simp [idsFor, idFor?, h]

theorem idsFor_sublist [DecidableEq ι] (i : ι) (answers : List (Answer ι)) :
    (idsFor i answers).Sublist (ids answers) := by
  induction answers with
  | nil => exact .slnil
  | cons a answers ih =>
    cases a with
    | handed file id =>
      by_cases h : file = i
      · simpa [idsFor, ids, idFor?, id?, h] using ih
      · simpa [idsFor, ids, idFor?, id?, h] using ih.cons id
    | refused file o => exact ih
    | shown next => exact ih

end Answer

open Insertion.Answer (ids idsFor)

/-- Files that are marked at once, the counter they share, and what it has answered so far. -/
structure Pool (ι : Type) where
  counter : Counter
  marking : ι → Marking
  answers : List (Answer ι)

namespace Pool

variable {ι : Type} [DecidableEq ι]

def start (first : Int) (contents : ι → Bytes) (targets : ι → List Entry) : Pool ι where
  counter := ⟨first⟩
  marking i := .new (contents i) (targets i)
  answers := []

/-- One call, which nothing interrupts. A file that asks for no more ids makes none. -/
def serve (p : Pool ι) : Call ι → Pool ι
  | .peek => { p with answers := p.answers ++ [.shown p.counter.next] }
  | .fetch i =>
    match (p.marking i).wanted with
    | none => p
    | some e =>
      match p.counter.fetch with
      | .error o =>
        { p with
          marking := Function.update p.marking i ((p.marking i).stopAt o)
          answers := p.answers ++ [.refused i o] }
      | .ok (id, counter) =>
        { counter
          marking := Function.update p.marking i ((p.marking i).put e id)
          answers := p.answers ++ [.handed i id] }

def serveAll (p : Pool ι) (calls : List (Call ι)) : Pool ι := calls.foldl serve p

/-- All that one call can do. -/
inductive Step (p : Pool ι) : Pool ι → Prop
  | idle : Step p p
  | shown : Step p { p with answers := p.answers ++ [.shown p.counter.next] }
  | refused {i : ι} {e : Entry} (hwant : (p.marking i).wanted = some e) (hover : greatestId < p.counter.next) :
    Step p
      { p with
        marking := Function.update p.marking i ((p.marking i).stopAt ⟨p.counter.next⟩)
        answers := p.answers ++ [.refused i ⟨p.counter.next⟩] }
  | handed {i : ι} {e : Entry} (hwant : (p.marking i).wanted = some e) (hfits : p.counter.next ≤ greatestId) :
    Step p
      { counter := ⟨p.counter.next + 1⟩
        marking := Function.update p.marking i ((p.marking i).put e p.counter.next)
        answers := p.answers ++ [.handed i p.counter.next] }

theorem step_serve (p : Pool ι) (call : Call ι) : Step p (p.serve call) := by
  cases call with
  | peek => exact .shown
  | fetch i =>
    cases hwant : (p.marking i).wanted with
    | none =>
      simp only [serve, hwant]
      exact .idle
    | some e =>
      by_cases hover : (greatestId : Int) < p.counter.next
      · simp only [serve, hwant, Counter.fetch, if_pos hover]
        exact .refused hwant hover
      · simp only [serve, hwant, Counter.fetch, if_neg hover]
        exact .handed hwant (Int.not_lt.mp hover)

/-- What every call keeps, every run of calls keeps. -/
theorem serveAll_induct {P : Pool ι → Prop} (hstep : ∀ {p p'}, Step p p' → P p → P p') {p : Pool ι} (hp : P p)
    (calls : List (Call ι)) : P (p.serveAll calls) := by
  induction calls generalizing p with
  | nil => exact hp
  | cons call calls ih => exact ih (hstep (step_serve p call) hp)

/-! ## What the counter answers -/

/-- Answers of a counter that goes from one value to another. -/
inductive Told : Int → List (Answer ι) → Int → Prop
  | nil (n : Int) : Told n [] n
  | handed {n n' : Int} {as : List (Answer ι)} (i : ι) (hfits : n ≤ greatestId) (h : Told (n + 1) as n') :
    Told n (.handed i n :: as) n'
  | refused {n n' : Int} {as : List (Answer ι)} (i : ι) (hover : greatestId < n) (h : Told n as n') :
    Told n (.refused i ⟨n⟩ :: as) n'
  | shown {n n' : Int} {as : List (Answer ι)} (h : Told n as n') : Told n (.shown n :: as) n'

namespace Told

variable {n m n' : Int} {as bs : List (Answer ι)}

omit [DecidableEq ι] in
theorem append (h : Told n as m) (h' : Told m bs n') : Told n (as ++ bs) n' := by
  induction h with
  | nil => exact h'
  | handed i hfits _ ih => exact .handed i hfits (ih h')
  | refused i hover _ ih => exact .refused i hover (ih h')
  | shown _ ih => exact .shown (ih h')

omit [DecidableEq ι] in
theorem split (h : Told n (as ++ bs) n') : ∃ m, Told n as m ∧ Told m bs n' := by
  induction as generalizing n with
  | nil => exact ⟨n, .nil n, h⟩
  | cons a as ih =>
    cases h with
    | handed i hfits h =>
      obtain ⟨m, has, hbs⟩ := ih h
      exact ⟨m, .handed i hfits has, hbs⟩
    | refused i hover h =>
      obtain ⟨m, has, hbs⟩ := ih h
      exact ⟨m, .refused i hover has, hbs⟩
    | shown h =>
      obtain ⟨m, has, hbs⟩ := ih h
      exact ⟨m, .shown has, hbs⟩

omit [DecidableEq ι] in
/-- The counter has moved by the number of ids handed out. -/
theorem next_eq (h : Told n as n') : n' = n + (ids as).length := by
  induction h with
  | nil n => simp [ids]
  | handed i _ _ ih =>
    simp only [ids, List.filterMap_cons, Answer.id?, List.length_cons] at ih ⊢
    omega
  | refused _ _ _ ih => exact ih
  | shown _ ih => exact ih

omit [DecidableEq ι] in
/-- The ids handed out are consecutive. -/
theorem ids_eq (h : Told n as n') : ids as = (List.range (ids as).length).map fun k : Nat => n + k := by
  induction h with
  | nil n => rfl
  | @handed n _ as i _ _ ih =>
    have hcons : ids (.handed i n :: as) = n :: ids as := rfl
    rw [hcons, List.length_cons, List.range_succ_eq_map, List.map_cons, List.map_map]
    refine List.cons_eq_cons.mpr ⟨by simp, ih.trans (List.map_congr_left fun k _ => ?_)⟩
    simp only [Function.comp, Nat.succ_eq_add_one]
    omega
  | refused _ _ _ ih => exact ih
  | shown _ ih => exact ih

omit [DecidableEq ι] in
theorem fits (h : Told n as n') : ∀ id ∈ ids as, id ≤ greatestId := by
  induction h with
  | nil n => exact fun id hid => (List.not_mem_nil hid).elim
  | handed i hfits _ ih =>
    intro id hid
    rcases List.mem_cons.mp hid with rfl | hid
    · exact hfits
    · exact ih id hid
  | refused _ _ _ ih => exact ih
  | shown _ ih => exact ih

omit [DecidableEq ι] in
/-- Past the greatest id, the counter stands still and refuses. -/
theorem stuck (h : Told n as n') (hover : greatestId < n) :
    n' = n ∧ ∀ a ∈ as, a = .shown n ∨ ∃ i, a = .refused i ⟨n⟩ := by
  induction h with
  | nil n => exact ⟨rfl, fun a ha => (List.not_mem_nil ha).elim⟩
  | handed i hfits _ _ => omega
  | refused i _ _ ih =>
    obtain ⟨hn, hall⟩ := ih hover
    refine ⟨hn, fun a ha => ?_⟩
    rcases List.mem_cons.mp ha with rfl | ha
    · exact .inr ⟨i, rfl⟩
    · exact hall a ha
  | shown _ ih =>
    obtain ⟨hn, hall⟩ := ih hover
    refine ⟨hn, fun a ha => ?_⟩
    rcases List.mem_cons.mp ha with rfl | ha
    · exact .inl rfl
    · exact hall a ha

end Told

theorem Step.told {p p' : Pool ι} {first : Int} (h : Step p p') (hp : Told first p.answers p.counter.next) :
    Told first p'.answers p'.counter.next := by
  cases h with
  | idle => exact hp
  | shown => exact hp.append (.shown (.nil _))
  | refused _ hover => exact hp.append (.refused _ hover (.nil _))
  | handed _ hfits => exact hp.append (.handed _ hfits (.nil _))

/-! ## What each file gets -/

/-- Each file holds the ids that it was handed, at its first targets. -/
structure Shared (contents : ι → Bytes) (targets : ι → List Entry) (p : Pool ι) : Prop where
  sound : ∀ i, (p.marking i).Sound (contents i) (targets i)
  own : ∀ i, idsFor i p.answers = (p.marking i).marks.map Prod.snd

theorem Step.shared {contents : ι → Bytes} {targets : ι → List Entry} {p p' : Pool ι} (h : Step p p')
    (hp : p.Shared contents targets) : p'.Shared contents targets := by
  cases h with
  | idle => exact hp
  | shown => exact ⟨hp.sound, fun i => by simpa using hp.own i⟩
  | @refused i e hwant hover =>
    constructor
    · intro j
      by_cases h : j = i
      · subst h
        simpa using (hp.sound j).stopAt ⟨p.counter.next⟩
      · simpa [h] using hp.sound j
    · intro j
      have hown := hp.own j
      by_cases h : j = i
      · subst h
        simpa [Marking.stopAt] using hown
      · simpa [h] using hown
  | @handed i e hwant hfits =>
    constructor
    · intro j
      by_cases h : j = i
      · subst h
        simpa using (hp.sound j).put hwant p.counter.next
      · simpa [h] using hp.sound j
    · intro j
      have hown := hp.own j
      by_cases h : j = i
      · subst h
        simpa [Marking.put] using hown
      · simpa [h, Ne.symm h] using hown

/-! ## One file on its own -/

theorem serveAll_replicate_of_idle {p : Pool ι} {i : ι} (h : (p.marking i).wanted = none) (n : Nat) :
    p.serveAll (.replicate n (.fetch i)) = p := by
  have hidle : p.serve (.fetch i) = p := by simp only [serve, h]
  induction n with
  | zero => rfl
  | succ n ih =>
    rw [List.replicate_succ]
    exact (congrArg (fun p => serveAll p (.replicate n (.fetch i))) hidle).trans ih

/-- A file that has the counter to itself comes to what splicing gives. -/
theorem serveAll_alone {p : Pool ι} {i : ι} {targets : List Entry} (hahead : (p.marking i).ahead = targets)
    (hgo : (p.marking i).overflow = none) :
    ((p.serveAll (.replicate targets.length (.fetch i))).marking i).outcome =
        some ((splice (p.marking i).contents (p.marking i).cursor targets p.counter).1.map
          ((p.marking i).text ++ ·)) ∧
      (p.serveAll (.replicate targets.length (.fetch i))).counter =
        (splice (p.marking i).contents (p.marking i).cursor targets p.counter).2 := by
  induction targets generalizing p with
  | nil =>
    simp [splice, Marking.outcome, serveAll, hahead, hgo, Except.map]
  | cons e targets ih =>
    have hwant : (p.marking i).wanted = some e := by simp [Marking.wanted, hgo, hahead]
    have hnext : p.serveAll (.replicate (e :: targets).length (.fetch i)) =
        (p.serve (.fetch i)).serveAll (.replicate targets.length (.fetch i)) := rfl
    rw [hnext]
    by_cases hover : (greatestId : Int) < p.counter.next
    · have hserve : p.serve (.fetch i) =
          { p with
            marking := Function.update p.marking i ((p.marking i).stopAt ⟨p.counter.next⟩)
            answers := p.answers ++ [.refused i ⟨p.counter.next⟩] } := by
        simp only [serve, hwant, Counter.fetch, if_pos hover]
      rw [hserve, serveAll_replicate_of_idle (by simp [Marking.wanted, Marking.stopAt])]
      simp [splice, Counter.fetch, hover, Marking.outcome, Marking.stopAt, Except.map]
    · have hserve : p.serve (.fetch i) =
          { counter := ⟨p.counter.next + 1⟩
            marking := Function.update p.marking i ((p.marking i).put e p.counter.next)
            answers := p.answers ++ [.handed i p.counter.next] } := by
        simp only [serve, hwant, Counter.fetch, if_neg hover]
      have hrest := ih (p := p.serve (.fetch i)) (by simp [hserve, Marking.put, hahead])
        (by simp [hserve, Marking.put, hgo])
      rw [hrest.1, hrest.2]
      simp only [hserve, Function.update_self, Marking.put, splice, Counter.fetch, if_neg hover]
      split <;> simp_all [Except.map]

theorem marking_of_not_called {p : Pool ι} {i : ι} {calls : List (Call ι)} (h : .fetch i ∉ calls) :
    (p.serveAll calls).marking i = p.marking i := by
  induction calls generalizing p with
  | nil => rfl
  | cons call calls ih =>
    obtain ⟨hcall, hcalls⟩ := not_or.mp (mt List.mem_cons.mpr h)
    have hserve : (p.serve call).marking i = p.marking i := by
      cases call with
      | peek => rfl
      | fetch j =>
        have hne : i ≠ j := fun e => hcall (e ▸ rfl)
        simp only [serve]
        split
        · rfl
        · split <;> exact Function.update_of_ne hne _ _
    exact (ih hcalls).trans hserve

/-! ## Any order of calls -/

/-- Ids handed out from `first` on: all of them, in order and without a gap, and to each file in the order of its
targets. -/
structure Allotted (first : Int) (contents : ι → Bytes) (targets : ι → List Entry) (p : Pool ι) : Prop where
  le : first ≤ p.counter.next
  ids_eq : ids p.answers = (List.range (p.counter.next - first).toNat).map fun k : Nat => first + k
  nodup : (ids p.answers).Nodup
  fits : ∀ id ∈ ids p.answers, id ≤ greatestId
  /-- A file's marks hold the ids that it was handed, which go up along its targets. -/
  own_ids : ∀ i, (p.marking i).marks.map Prod.snd = idsFor i p.answers
  own_up : ∀ i, (idsFor i p.answers).Pairwise (· < ·)
  own_targets : ∀ i, (p.marking i).marks.map Prod.fst <+: targets i
  /-- A file that got all its ids has its contents with a mark at each target. -/
  own_text : ∀ i data, (p.marking i).outcome = some (.ok data) →
    (p.marking i).marks.map Prod.fst = targets i ∧ Marked (contents i) 0 (p.marking i).marks data
  /-- A look at the counter shows the id that comes next. -/
  shown : ∀ before n after, p.answers = before ++ .shown n :: after → n = first + (ids before).length
  /-- After a refusal every fetch is refused, and the counter stands still. -/
  stuck : ∀ before i o after, p.answers = before ++ .refused i o :: after →
    greatestId < p.counter.next ∧ o = ⟨p.counter.next⟩ ∧
      ∀ a ∈ after, a = .shown p.counter.next ∨ ∃ j, a = .refused j ⟨p.counter.next⟩

theorem Allotted.of_told {first : Int} {contents : ι → Bytes} {targets : ι → List Entry} {p : Pool ι}
    (h : Told first p.answers p.counter.next) (hp : p.Shared contents targets) : p.Allotted first contents targets := by
  have hnext := h.next_eq
  have hids : ids p.answers = (List.range (p.counter.next - first).toNat).map fun k : Nat => first + k := by
    have hcount : (p.counter.next - first).toNat = (ids p.answers).length := by omega
    rw [hcount]
    exact h.ids_eq
  have hup : (ids p.answers).Pairwise (· < ·) := by
    rw [hids, List.pairwise_map]
    exact List.pairwise_lt_range.imp fun hlt => by omega
  refine
    { le := by omega
      ids_eq := hids
      nodup := hup.imp fun hlt => Int.ne_of_lt hlt
      fits := h.fits
      own_ids := fun i => (hp.own i).symm
      own_up := fun i => hup.sublist (Answer.idsFor_sublist i p.answers)
      own_targets := fun i => ⟨(p.marking i).ahead, (hp.sound i).targets_eq⟩
      own_text := fun i data hout => (hp.sound i).marked_of_outcome hout
      shown := fun before n after hsplit => ?_
      stuck := fun before i o after hsplit => ?_ }
  · obtain ⟨m, hbefore, hafter⟩ := (hsplit ▸ h).split
    cases hafter
    exact hbefore.next_eq
  · obtain ⟨m, _, hafter⟩ := (hsplit ▸ h).split
    cases hafter with
    | refused _ hover hafter =>
      obtain ⟨hm, hall⟩ := hafter.stuck hover
      rw [hm]
      exact ⟨hover, rfl, hall⟩

/-- Whatever files share a counter, and in whatever order their calls come, the ids are handed out from the first
one on without a gap, and a file whose turn comes only then, and without interruption, is spliced as it would be
alone. -/
theorem serveAll_allots (first : Int) (contents : ι → Bytes) (targets : ι → List Entry) (calls : List (Call ι)) :
    ((start first contents targets).serveAll calls).Allotted first contents targets ∧
      ∀ i, .fetch i ∉ calls →
        let before := (start first contents targets).serveAll calls
        let after := before.serveAll (.replicate (targets i).length (.fetch i))
        (after.marking i).outcome = some (splice (contents i) 0 (targets i) before.counter).1 ∧
          after.counter = (splice (contents i) 0 (targets i) before.counter).2 := by
  constructor
  · have htold := serveAll_induct (P := fun p => Told first p.answers p.counter.next) Step.told
      (p := start first contents targets) (.nil first) calls
    have hshared := serveAll_induct (p := start first contents targets) Step.shared
      ⟨fun i => .start (contents i) (targets i), fun _ => rfl⟩ calls
    exact .of_told htold hshared
  · intro i hnot
    have hnew := marking_of_not_called (p := start first contents targets) hnot
    have hahead : (((start first contents targets).serveAll calls).marking i).ahead = targets i := by rw [hnew]; rfl
    have hgo : (((start first contents targets).serveAll calls).marking i).overflow = none := by rw [hnew]; rfl
    obtain ⟨hout, hcounter⟩ := serveAll_alone hahead hgo
    rw [hnew] at hout hcounter
    -- nothing has been written before the first target
    have hempty (r : Except Overflow Bytes) : r.map (([] : Bytes) ++ ·) = r := by cases r <;> rfl
    exact ⟨hout.trans (congrArg some (hempty _)), hcounter⟩

/-- Two files with two targets each and room for two ids: both are stopped in the middle. -/
theorem serveAll_allots_at_limit :
    let target : Entry := ⟨⟨0, 1, 1⟩, none, "info", .message, none, none⟩
    let p := (start 4294967294 (fun _ : Bool => []) fun _ => [target, target]).serveAll
      [.fetch true, .peek, .fetch false, .fetch true, .peek, .fetch false]
    p.answers = [.handed true 4294967294, .shown 4294967295, .handed false 4294967295, .refused true ⟨4294967296⟩,
        .shown 4294967296, .refused false ⟨4294967296⟩] ∧
      p.Allotted 4294967294 (fun _ => []) fun _ => [target, target] :=
  ⟨by decide, (serveAll_allots _ _ _ _).1⟩

end Pool

end LogRef.Insertion
