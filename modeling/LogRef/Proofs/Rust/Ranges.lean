import LogRef.Proofs.Rust.Lengths
import LogRef.Proofs.Syntax.WellFormed
import LogRef.Rust.Tree

/-!
# Ranges of the parsed tree

The items of a source stand in a row inside of it, whatever its bytes are, and so no node of its syntax tree
goes backwards or leaves the source: its calls can always be read.
-/
namespace LogRef.Rust

namespace Item

def start : Item → Nat
  | .leaf l => l.start
  | .group _ start _ _ => start

def stop : Item → Nat
  | .leaf l => l.stop
  | .group _ _ stop _ => stop

def Precedes (a b : Item) : Prop := a.stop ≤ b.start

/-- An item covers a range of a source of length `n`, and what a group holds stands in a row. -/
inductive Laid (n : Nat) : Item → Prop
  | leaf {l : Lexeme} (forward : l.start ≤ l.stop) (inside : l.stop ≤ n) : Laid n (.leaf l)
  | group {bracket : Bracket} {start stop : Nat} {items : List Item} (forward : start < stop) (inside : stop ≤ n)
      (each : ∀ i ∈ items, Laid n i) (row : items.Pairwise Precedes) : Laid n (.group bracket start stop items)

variable {n : Nat} {i : Item}

theorem Laid.forward (h : i.Laid n) : i.start ≤ i.stop := by
  cases h with
  | leaf forward _ => exact forward
  | group forward _ _ _ => exact forward.le

theorem Laid.inside (h : i.Laid n) : i.stop ≤ n := by
  cases h with
  | leaf _ inside => exact inside
  | group _ inside _ _ => exact inside

end Item

/-- The items stand in a row, inside of a source of length `n`. -/
structure Arranged (n : Nat) (items : List Item) : Prop where
  each : ∀ i ∈ items, i.Laid n
  row : items.Pairwise Item.Precedes

section

variable {n : Nat} {a b items : List Item} {i : Item}

theorem laid_group {bracket : Bracket} {start stop : Nat} :
    (Item.group bracket start stop items).Laid n ↔ start < stop ∧ stop ≤ n ∧ Arranged n items := by
  constructor
  · rintro (_ | ⟨hforward, hinside, each, row⟩)
    exact ⟨hforward, hinside, each, row⟩
  · rintro ⟨hforward, hinside, each, row⟩
    exact .group hforward hinside each row

theorem Arranged.nil : Arranged n [] := ⟨List.forall_mem_nil _, List.Pairwise.nil⟩

theorem arranged_append :
    Arranged n (a ++ b) ↔ Arranged n a ∧ Arranged n b ∧ ∀ x ∈ a, ∀ y ∈ b, x.Precedes y := by
  constructor
  · rintro ⟨each, row⟩
    obtain ⟨ha, hb, hab⟩ := List.pairwise_append.mp row
    exact ⟨⟨fun i hi => each i (List.mem_append_left _ hi), ha⟩,
      ⟨fun i hi => each i (List.mem_append_right _ hi), hb⟩, hab⟩
  · rintro ⟨⟨eacha, rowa⟩, ⟨eachb, rowb⟩, hab⟩
    exact ⟨fun i hi => (List.mem_append.mp hi).elim (eacha i) (eachb i), List.pairwise_append.mpr ⟨rowa, rowb, hab⟩⟩

theorem arranged_cons : Arranged n (i :: items) ↔ i.Laid n ∧ Arranged n items ∧ ∀ y ∈ items, i.Precedes y := by
  constructor
  · rintro ⟨each, row⟩
    obtain ⟨hi, hrow⟩ := List.pairwise_cons.mp row
    exact ⟨each i List.mem_cons_self, ⟨fun j hj => each j (List.mem_cons_of_mem _ hj), hrow⟩, hi⟩
  · rintro ⟨hi, ⟨each, row⟩, hrow⟩
    exact ⟨List.forall_mem_cons.mpr ⟨hi, each⟩, List.pairwise_cons.mpr ⟨hrow, row⟩⟩

/-- An item behind all others. -/
theorem arranged_concat (h : Arranged n items) (hi : i.Laid n) (hbehind : ∀ x ∈ items, x.Precedes i) :
    Arranged n (items ++ [i]) := by
  refine arranged_append.mpr ⟨h, arranged_cons.mpr ⟨hi, .nil, List.forall_mem_nil _⟩, fun x hx y hy => ?_⟩
  rw [List.mem_singleton.mp hy]
  exact hbehind x hx

end

/-! ## Grouping -/

/-- The items of a grouping that ends here, in source order. -/
def Grouping.finished (g : Grouping) : List Item := finishGroups g.frames g.items

theorem finishGroups_eq (frames : List Frame) (items : List Item) :
    finishGroups frames items = finishGroups frames [] ++ items.reverse := by
  induction frames generalizing items with
  | nil => rfl
  | cons f frames ih =>
    rw [finishGroups, finishGroups, ih, ih (f.abandon []), Frame.abandon, Frame.abandon, List.nil_append,
      List.reverse_append, List.append_assoc]

theorem finishGroups_cons (frames : List Frame) (i : Item) (items : List Item) :
    finishGroups frames (i :: items) = finishGroups frames items ++ [i] := by
  rw [finishGroups_eq, finishGroups_eq frames items, List.reverse_cons, List.append_assoc]

/-- A closing bracket makes one group of an opening one and all that came behind it. -/
theorem finished_closeNearest {bracket : Bracket} {closer : Lexeme} {frames : List Frame} {items : List Item}
    {g : Grouping} (h : closeNearest bracket closer frames items = some g) :
    ∃ front opener inner, finishGroups frames items = front ++ .leaf opener :: inner ∧
      g.finished = front ++ [.group bracket opener.start closer.stop inner] := by
  induction frames generalizing items with
  | nil => cases h
  | cons f frames ih =>
    rw [closeNearest] at h
    split at h
    · cases h
      refine ⟨finishGroups frames f.before, f.opener, items.reverse, ?_, finishGroups_cons _ _ _⟩
      rw [finishGroups, Frame.abandon, finishGroups_eq, finishGroups_eq frames f.before]
      simp only [List.reverse_append, List.reverse_cons, List.append_assoc, List.singleton_append]
    · exact ih h

/-- What one more lexeme does to the items. -/
theorem finished_push (g : Grouping) (l : Lexeme) :
    (g.push l).finished = g.finished ∨ (g.push l).finished = g.finished ++ [.leaf l] ∨
      ∃ bracket front opener inner, l.kind = .closer bracket ∧ g.finished = front ++ .leaf opener :: inner ∧
        (g.push l).finished = front ++ [.group bracket opener.start l.stop inner] := by
  unfold Grouping.push
  split
  · exact .inl rfl
  · exact .inr (.inl (finishGroups_cons _ _ _))
  · next bracket hkind =>
    cases hclose : closeNearest bracket l g.frames g.items with
    | none => exact .inr (.inl (finishGroups_cons _ _ _))
    | some closed =>
      obtain ⟨front, opener, inner, hg, hclosed⟩ := finished_closeNearest hclose
      exact .inr (.inr ⟨bracket, front, opener, inner, hkind, hg, hclosed⟩)
  · exact .inr (.inl (finishGroups_cons _ _ _))

theorem arranged_push {n : Nat} {g : Grouping} {l : Lexeme} (hg : Arranged n g.finished)
    (hbehind : ∀ i ∈ g.finished, i.stop ≤ l.start) (hforward : l.start ≤ l.stop) (hinside : l.stop ≤ n)
    (hcloser : ∀ bracket, l.kind = .closer bracket → l.start < l.stop) :
    Arranged n (g.push l).finished ∧ ∀ i ∈ (g.push l).finished, i.stop ≤ l.stop := by
  rcases finished_push g l with hsame | hleaf | ⟨bracket, front, opener, inner, hkind, hsplit, hgroup⟩
  · rw [hsame]
    exact ⟨hg, fun i hi => (hbehind i hi).trans hforward⟩
  · rw [hleaf]
    refine ⟨arranged_concat hg (.leaf hforward hinside) hbehind, fun i hi => ?_⟩
    rcases List.mem_append.mp hi with hi | hi
    · exact (hbehind i hi).trans hforward
    · rw [List.mem_singleton.mp hi]
      exact Nat.le_refl _
  · rw [hsplit] at hg hbehind
    obtain ⟨hfront, hrest, hbetween⟩ := arranged_append.mp hg
    obtain ⟨hopener, hinner, _⟩ := arranged_cons.mp hrest
    have hopened : opener.start ≤ l.start :=
      hopener.forward.trans (hbehind _ (List.mem_append_right _ List.mem_cons_self))
    have hlaid : (Item.group bracket opener.start l.stop inner).Laid n :=
      laid_group.mpr ⟨hopened.trans_lt (hcloser bracket hkind), hinside, hinner⟩
    rw [hgroup]
    refine ⟨arranged_concat hfront hlaid fun x hx => hbetween x hx (.leaf opener) List.mem_cons_self, fun i hi => ?_⟩
    rcases List.mem_append.mp hi with hi | hi
    · exact (hbehind i (List.mem_append_left _ hi)).trans hforward
    · rw [List.mem_singleton.mp hi]
      exact Nat.le_refl _

theorem arranged_read {n position skip : Nat} {bytes : Bytes} {g : Grouping} (hn : position + bytes.length = n)
    (hg : Arranged n g.finished) (hbehind : ∀ i ∈ g.finished, i.stop ≤ position + skip) :
    Arranged n (Grouping.read position skip bytes g).finished := by
  induction bytes generalizing position skip g with
  | nil => cases skip <;> exact hg
  | cons b rest ih =>
    have hnext : position + 1 + rest.length = n := by
      rw [← hn, List.length_cons]
      omega
    cases skip with
    | succ skip => exact ih hnext hg fun i hi => by have := hbehind i hi; omega
    | zero =>
      rw [Grouping.read]
      obtain ⟨hsize, hcloser⟩ := firstLexeme_fits (g.region ≠ .arguments) b rest
      generalize firstLexeme (g.region ≠ .arguments) b rest = first at hsize hcloser
      obtain ⟨kind, size⟩ := first
      dsimp only at hsize hcloser ⊢
      obtain ⟨hpushed, hstops⟩ := arranged_push (l := ⟨kind, position, position + size, (b :: rest).take size⟩) hg
        hbehind (Nat.le_add_right _ _) (by dsimp only; omega) fun bracket hkind => by
          dsimp only at hkind ⊢
          have := hcloser bracket hkind
          omega
      refine ih hnext hpushed fun i hi => ?_
      have := hstops i hi
      dsimp only at this
      omega

theorem arranged_itemsOf (source : Bytes) : Arranged source.length (itemsOf source) :=
  arranged_read (Nat.zero_add _) .nil (List.forall_mem_nil _)

/-! ## Nodes -/

/-- A node covers a range of a source of length `n`, and so does every node below it. -/
def Ranged (n : Nat) (c : Node) : Prop := ∀ inTree, c.InRange n inTree

section

variable {n : Nat}

theorem ranged_mk {kind : Node.Kind} {start stop : Nat} {isNamed hasError isMacroName : Bool} {children : List Node}
    (hforward : start ≤ stop) (hinside : stop ≤ n) (hchildren : ∀ c ∈ children, Ranged n c) :
    Ranged n (.mk kind start stop isNamed hasError isMacroName children) := by
  intro inTree
  rw [Node.InRange]
  refine ⟨⟨Int.natCast_nonneg _, ?_, ?_⟩, fun _ => Node.allInRange_of_forall fun c hc => hchildren c hc _⟩
  · exact_mod_cast hforward
  · exact_mod_cast hinside

theorem ranged_leafNodes {l : Lexeme} (h : (Item.leaf l).Laid n) : ∀ c ∈ leafNodes l, Ranged n c := by
  have hnamed (kind : Node.Kind) (hasError : Bool) : ∀ c ∈ [namedNode kind l hasError], Ranged n c :=
    List.forall_mem_singleton.mpr (ranged_mk h.forward h.inside (List.forall_mem_nil _))
  unfold leafNodes
  split
  · exact List.forall_mem_nil _
  · exact List.forall_mem_nil _
  all_goals exact hnamed _ _

mutual

theorem ranged_argumentNodes {i : Item} (h : i.Laid n) : ∀ c ∈ argumentNodes i, Ranged n c := by
  match i with
  | .leaf l => exact ranged_leafNodes h
  | .group bracket start stop items =>
    obtain ⟨hforward, hinside, hitems⟩ := laid_group.mp h
    rw [argumentNodes]
    exact List.forall_mem_singleton.mpr (ranged_mk hforward.le hinside (ranged_argumentNodesAll hitems))

theorem ranged_argumentNodesAll {items : List Item} (h : Arranged n items) :
    ∀ c ∈ argumentNodesAll items, Ranged n c := by
  match items with
  | [] => exact List.forall_mem_nil _
  | i :: rest =>
    obtain ⟨hi, hrest, _⟩ := arranged_cons.mp h
    rw [argumentNodesAll]
    exact List.forall_mem_append.mpr ⟨ranged_argumentNodes hi, ranged_argumentNodesAll hrest⟩

end

/-- What is pending began before the items ahead. -/
def Pending.Precedes (n : Nat) (ahead : List Item) : Pending → Prop
  | .nothing => True
  | .dollar l => (Item.leaf l).Laid n ∧ ∀ i ∈ ahead, (Item.leaf l).Precedes i
  | .repetition start children => start ≤ n ∧ (∀ i ∈ ahead, start ≤ i.start) ∧ ∀ c ∈ children, Ranged n c

theorem ranged_dropped {pending : Pending} {ahead : List Item} (h : pending.Precedes n ahead) :
    ∀ c ∈ pending.dropped, Ranged n c := by
  cases pending with
  | nothing => exact List.forall_mem_nil _
  | dollar l => exact List.forall_mem_singleton.mpr (ranged_mk h.1.forward h.1.inside (List.forall_mem_nil _))
  | repetition start children =>
    exact List.forall_mem_singleton.mpr (ranged_mk (Nat.le_refl _) h.1 h.2.2)

theorem ranged_bodyNodes {pending : Pending} {items : List Item} (h : Arranged n items)
    (hpending : pending.Precedes n items) : ∀ c ∈ bodyNodes pending items, Ranged n c := by
  fun_induction bodyNodes pending items with
  | case1 pending => exact ranged_dropped hpending
  | case2 l rest _ ih =>
    obtain ⟨hl, hrest, hfirst⟩ := arranged_cons.mp h
    exact ih hrest ⟨hl, hfirst⟩
  | case3 l rest _ ih =>
    obtain ⟨hl, hrest, _⟩ := arranged_cons.mp h
    exact List.forall_mem_append.mpr ⟨ranged_leafNodes hl, ih hrest trivial⟩
  | case4 d l rest _ ih =>
    obtain ⟨hl, hrest, hfirst⟩ := arranged_cons.mp h
    exact List.forall_mem_append.mpr ⟨ranged_dropped hpending, ih hrest ⟨hl, hfirst⟩⟩
  | case5 d l rest _ ih =>
    obtain ⟨hl, hrest, _⟩ := arranged_cons.mp h
    exact List.forall_mem_append.mpr
      ⟨List.forall_mem_append.mpr ⟨ranged_dropped hpending, ranged_leafNodes hl⟩, ih hrest trivial⟩
  | case6 start children l rest _ ih =>
    obtain ⟨hl, hrest, _⟩ := arranged_cons.mp h
    have hstart : start ≤ l.start := hpending.2.1 _ List.mem_cons_self
    exact List.forall_mem_cons.mpr
      ⟨ranged_mk (hstart.trans hl.forward) hl.inside hpending.2.2, ih hrest trivial⟩
  | case7 start children l rest _ ih =>
    obtain ⟨_, hrest, _⟩ := arranged_cons.mp h
    exact ih hrest ⟨hpending.1, fun i hi => hpending.2.1 i (List.mem_cons_of_mem _ hi), hpending.2.2⟩
  | case8 bracket start stop items rest ihitems ihrest =>
    obtain ⟨hgroup, hrest, _⟩ := arranged_cons.mp h
    obtain ⟨hforward, hinside, hitems⟩ := laid_group.mp hgroup
    exact List.forall_mem_cons.mpr
      ⟨ranged_mk hforward.le hinside (ihitems hitems trivial), ihrest hrest trivial⟩
  | case9 d start stop items rest inner ihitems ihrest =>
    obtain ⟨hgroup, hrest, _⟩ := arranged_cons.mp h
    obtain ⟨_, _, hitems⟩ := laid_group.mp hgroup
    obtain ⟨hd, hahead⟩ := hpending
    exact ihrest hrest ⟨hd.forward.trans hd.inside,
      fun i hi => hd.forward.trans (hahead i (List.mem_cons_of_mem _ hi)), ihitems hitems trivial⟩
  | case10 d bracket start stop items rest inner _ ihitems ihrest =>
    obtain ⟨hgroup, hrest, _⟩ := arranged_cons.mp h
    obtain ⟨hforward, hinside, hitems⟩ := laid_group.mp hgroup
    exact List.forall_mem_append.mpr ⟨ranged_dropped hpending, List.forall_mem_cons.mpr
      ⟨ranged_mk hforward.le hinside (ihitems hitems trivial), ihrest hrest trivial⟩⟩
  | case11 start children bracket _ stop items rest ih =>
    obtain ⟨_, hrest, _⟩ := arranged_cons.mp h
    exact ih hrest ⟨hpending.1, fun i hi => hpending.2.1 i (List.mem_cons_of_mem _ hi), hpending.2.2⟩

theorem ranged_ruleNodes {before : List Lexeme} {items : List Item} (h : Arranged n items) :
    ∀ c ∈ ruleNodes before items, Ranged n c := by
  fun_induction ruleNodes before items with
  | case1 => exact List.forall_mem_nil _
  | case4 bracket start stop items rest greater equals _ _ ih =>
    obtain ⟨hgroup, hrest, _⟩ := arranged_cons.mp h
    obtain ⟨hforward, hinside, hitems⟩ := laid_group.mp hgroup
    exact List.forall_mem_cons.mpr ⟨ranged_mk hforward.le hinside (ranged_bodyNodes hitems trivial), ih hrest⟩
  | case2 | case3 | case5 | case6 =>
    rename_i ih
    exact ih (arranged_cons.mp h).2.1

/-! ## Invocations -/

/-- The lexemes, nearest first, begin one before the other and at `start` at the latest. -/
def Descends : (start : Nat) → List Lexeme → Prop
  | _, [] => True
  | start, l :: rest => l.start ≤ start ∧ Descends l.start rest

theorem Descends.mono {start later : Nat} {before : List Lexeme} (h : Descends start before) (hle : start ≤ later) :
    Descends later before := by
  cases before with
  | nil => trivial
  | cons l rest => exact ⟨h.1.trans hle, h.2⟩

theorem Descends.tail {start : Nat} {l : Lexeme} {rest : List Lexeme} (h : Descends start (l :: rest)) :
    Descends start rest := h.2.mono h.1

theorem Descends.drop {start : Nat} {before : List Lexeme} (h : Descends start before) (count : Nat) :
    Descends start (before.drop count) := by
  induction count generalizing before with
  | zero => exact h
  | succ count ih =>
    cases before with
    | nil => trivial
    | cons l rest => exact ih h.tail

theorem Descends.angleStart {start depth : Nat} {before outer : List Lexeme} {opener : Lexeme}
    (h : Descends start before) (hangle : angleStart depth before = some (opener, outer)) :
    opener.start ≤ start ∧ Descends opener.start outer := by
  induction before generalizing depth with
  | nil => cases hangle
  | cons l rest ih =>
    rw [Rust.angleStart] at hangle
    split at hangle
    · split at hangle
      · cases hangle
        exact h
      · exact ih h.tail hangle
    · split at hangle
      · exact ih h.tail hangle
      · split at hangle
        · cases hangle
        · exact ih h.tail hangle

/-- A path does not begin behind its last step. -/
theorem pathStart_le {body : Body} {fuel start : Nat} {before : List Lexeme} (h : Descends start before) :
    pathStart body fuel start before ≤ start := by
  induction fuel generalizing start before with
  | zero => exact Nat.le_refl _
  | succ fuel ih =>
    rw [pathStart]
    split
    · exact Nat.le_refl _
    · next hmark =>
      match before, h with
      | [], _ | [_], _ => exact absurd rfl hmark
      | last :: next :: steps, h =>
        have hnext : next.start ≤ start := h.2.1.trans h.1
        have hsteps : Descends start steps := h.tail.tail
        simp only [List.drop_succ_cons, List.drop_zero, List.head?_cons, Option.map_some, Option.getD_some]
        cases steps with
        | nil => exact hnext
        | cons step more =>
          -- every answer is the beginning of some lexeme before, or that of a path that ends earlier
          have hstep : pathStart body fuel step.start more ≤ start := (ih hsteps.2).trans hsteps.1
          dsimp only
          split
          · exact hsteps.1
          split
          · split
            · exact hstep
            · exact hnext
          split
          · split
            · exact hnext
            · next opener outer hangle =>
              obtain ⟨hopener, houter⟩ := hsteps.tail.angleStart hangle
              split
              · split
                · next word earlier hdrop =>
                  have hword : Descends start (word :: earlier) := hdrop ▸ (houter.mono hopener).drop 2
                  split
                  · exact (ih hword.2).trans hword.1
                  · exact hnext
                · exact hnext
              · split
                · exact hnext
                · exact hopener
          · exact hnext

/-- The name of an invocation stands before its arguments and ends behind its beginning. -/
theorem groupRole_arguments {body : Body} {bracket : Bracket} {before : List Lexeme} {nameStart nameStop start : Nat}
    (h : groupRole body bracket before = .arguments nameStart nameStop) (hbefore : Descends start before) :
    ∃ word ∈ before, nameStart ≤ word.start ∧ nameStop = word.stop := by
  unfold groupRole at h
  split at h
  · cases h
  split at h
  · cases h
  match before, h with
  | [], h | [_], h => cases h
  | last :: word :: more, h =>
    dsimp only at h
    split at h
    · cases h
    split at h
    · cases h
      exact ⟨word, List.mem_cons_of_mem _ List.mem_cons_self, pathStart_le hbefore.2.2, rfl⟩
    · cases h

/-- The lexemes passed, nearest first, as items in source order. -/
def passed (before : List Lexeme) : List Item := before.reverse.map .leaf

theorem passed_cons (l : Lexeme) (before : List Lexeme) (items : List Item) :
    passed (l :: before) ++ items = passed before ++ .leaf l :: items := by
  simp only [passed, List.reverse_cons, List.map_append, List.map_cons, List.map_nil, List.append_assoc,
    List.singleton_append]

theorem mem_passed {l : Lexeme} {before : List Lexeme} (h : l ∈ before) : .leaf l ∈ passed before :=
  List.mem_map_of_mem (List.mem_reverse.mpr h)

theorem descends_of_arranged {before : List Lexeme} {items : List Item} {start : Nat}
    (h : Arranged n (passed before ++ items)) (hstart : ∀ l ∈ before, l.start ≤ start) : Descends start before := by
  induction before generalizing items start with
  | nil => trivial
  | cons l rest ih =>
    refine ⟨hstart l List.mem_cons_self, ?_⟩
    rw [passed_cons] at h
    obtain ⟨hrest, _, hbetween⟩ := arranged_append.mp h
    refine ih h fun x hx => ?_
    exact (hrest.each _ (mem_passed hx)).forward.trans (hbetween _ (mem_passed hx) (.leaf l) List.mem_cons_self)

/-- A group gives way to the lexeme that closes it. -/
theorem Arranged.closed {before : List Lexeme} {rest : List Item} {bracket : Bracket} {start stop : Nat}
    {items : List Item} (h : Arranged n (passed before ++ .group bracket start stop items :: rest)) :
    Arranged n (passed (⟨.closer bracket, stop - 1, stop, []⟩ :: before) ++ rest) := by
  obtain ⟨hbefore, hmore, hbetween⟩ := arranged_append.mp h
  obtain ⟨hgroup, hrest, hfirst⟩ := arranged_cons.mp hmore
  obtain ⟨hforward, hinside, _⟩ := laid_group.mp hgroup
  rw [passed_cons]
  refine arranged_append.mpr ⟨hbefore, arranged_cons.mpr ⟨.leaf (Nat.sub_le _ _) hinside, hrest, hfirst⟩, ?_⟩
  refine fun x hx => List.forall_mem_cons.mpr ⟨?_, fun y hy => hbetween x hx y (List.mem_cons_of_mem _ hy)⟩
  have hx : x.stop ≤ start := hbetween x hx _ List.mem_cons_self
  exact hx.trans (Nat.le_sub_one_of_lt hforward)

theorem Arranged.dropped {before : List Lexeme} {i : Item} {rest : List Item}
    (h : Arranged n (passed before ++ i :: rest)) : Arranged n (passed before ++ rest) := by
  obtain ⟨hbefore, hmore, hbetween⟩ := arranged_append.mp h
  exact arranged_append.mpr ⟨hbefore, (arranged_cons.mp hmore).2.1,
    fun x hx y hy => hbetween x hx y (List.mem_cons_of_mem _ hy)⟩

theorem ranged_invocationNode {body : Body} {bracket kind : Bracket} {before : List Lexeme} {items rest : List Item}
    {nameStart nameStop start stop : Nat} (h : Arranged n (passed before ++ .group kind start stop items :: rest))
    (hrole : groupRole body bracket before = .arguments nameStart nameStop) :
    Ranged n (invocationNode nameStart nameStop start stop (argumentNodesAll items)) := by
  obtain ⟨hbefore, hmore, hbetween⟩ := arranged_append.mp h
  obtain ⟨hforward, hinside, hitems⟩ := laid_group.mp (arranged_cons.mp hmore).1
  have hstops : ∀ l ∈ before, l.stop ≤ start := fun l hl => hbetween _ (mem_passed hl) _ List.mem_cons_self
  have hlaid : ∀ l ∈ before, (Item.leaf l).Laid n := fun l hl => hbefore.each _ (mem_passed hl)
  have hdescends := descends_of_arranged h fun l hl => (hlaid l hl).forward.trans (hstops l hl)
  obtain ⟨word, hword, hname, rfl⟩ := groupRole_arguments hrole hdescends
  have hstop : nameStart ≤ word.stop := hname.trans (hlaid word hword).forward
  refine ranged_mk (hstop.trans ((hstops word hword).trans hforward.le)) hinside ?_
  refine List.forall_mem_cons.mpr ⟨ranged_mk hstop (hlaid word hword).inside (List.forall_mem_nil _), ?_⟩
  exact List.forall_mem_singleton.mpr (ranged_mk hforward.le hinside (ranged_argumentNodesAll hitems))

mutual

theorem ranged_codeNodes {body : Body} {before : List Lexeme} {items : List Item}
    (h : Arranged n (passed before ++ items)) : ∀ c ∈ codeNodes body before items, Ranged n c := by
  match items with
  | [] => rw [codeNodes]; exact List.forall_mem_nil _
  | .leaf l :: rest =>
    rw [codeNodes]
    split
    · exact ranged_codeNodes h.dropped
    · exact ranged_codeNodes (passed_cons l before rest ▸ h)
  | .group bracket start stop items :: rest =>
    obtain ⟨_, hmore, _⟩ := arranged_append.mp h
    obtain ⟨_, _, hitems⟩ := laid_group.mp (arranged_cons.mp hmore).1
    rw [codeNodes]
    refine List.forall_mem_append.mpr ⟨?_, ranged_codeNodes h.closed⟩
    split
    · next hrole => exact List.forall_mem_singleton.mpr (ranged_invocationNode h hrole)
    · exact ranged_ruleNodes hitems
    · exact ranged_attributeNodes hitems
    · exact ranged_codeNodes hitems

theorem ranged_attributeNodes {before : List Lexeme} {items : List Item} (h : Arranged n items) :
    ∀ c ∈ attributeNodes before items, Ranged n c := by
  match items with
  | [] => rw [attributeNodes]; exact List.forall_mem_nil _
  | .leaf l :: rest =>
    rw [attributeNodes]
    have hrest := (arranged_cons.mp h).2.1
    split
    · exact ranged_attributeNodes hrest
    split
    · exact ranged_codeNodes h
    · exact ranged_attributeNodes hrest
  | .group bracket start stop items :: rest =>
    obtain ⟨hgroup, hrest, _⟩ := arranged_cons.mp h
    obtain ⟨hforward, hinside, hitems⟩ := laid_group.mp hgroup
    rw [attributeNodes]
    refine List.forall_mem_append.mpr ⟨?_, ranged_codeNodes hrest⟩
    split
    · exact List.forall_mem_singleton.mpr (ranged_mk hforward.le hinside (ranged_argumentNodesAll hitems))
    · exact ranged_codeNodes hitems

end

end

theorem inRange_parse (source : Bytes) : (parse source).InRange source.length false :=
  ranged_mk (Nat.zero_le _) (Nat.le_refl _) (ranged_codeNodes (arranged_itemsOf source)) false

end LogRef.Rust
