/-!
# Results that may fail

What follows from how a chain of steps ends, and which errors it can end with.
-/
namespace LogRef

variable {ε ε' α β : Type}

theorem eq_ok_of_toOption {x : Except ε α} {a : α} (h : x.toOption = some a) : x = .ok a := by
  cases x with
  | ok b => exact congrArg Except.ok (Option.some.inj h)
  | error e => cases h

theorem bind_ok {x : Except ε α} {k : α → Except ε β} {b : β} (h : x >>= k = .ok b) :
    ∃ a, x = .ok a ∧ k a = .ok b := by
  cases x with
  | error e => cases h
  | ok a => exact ⟨a, rfl, h⟩

theorem bind_error {x : Except ε α} {k : α → Except ε β} {e : ε} (h : x >>= k = .error e) :
    x = .error e ∨ ∃ a, x = .ok a ∧ k a = .error e := by
  cases x with
  | error e' =>
    cases h
    exact .inl rfl
  | ok a => exact .inr ⟨a, rfl, h⟩

theorem mapError_ok {f : ε → ε'} {x : Except ε α} {a : α} (h : x.mapError f = .ok a) : x = .ok a := by
  cases x with
  | error e => cases h
  | ok a' =>
    cases h
    rfl

theorem mapError_error {f : ε → ε'} {x : Except ε α} {e' : ε'} (h : x.mapError f = .error e') :
    ∃ e, x = .error e ∧ f e = e' := by
  cases x with
  | error e => exact ⟨e, rfl, Except.error.inj h⟩
  | ok a => cases h

theorem mapM_ok {f : α → Except ε β} {l : List α} {bs : List β} (h : l.mapM f = .ok bs) :
    (∀ a ∈ l, ∃ b, f a = .ok b) ∧ bs = l.filterMap fun a => (f a).toOption := by
  induction l generalizing bs with
  | nil => exact ⟨fun a ha => (List.not_mem_nil ha).elim, (Except.ok.inj h).symm⟩
  | cons a l ih =>
    rw [List.mapM_cons] at h
    cases ha : f a with
    | error e => rw [ha] at h; cases h
    | ok b =>
      cases hl : l.mapM f with
      | error e => rw [ha, hl] at h; cases h
      | ok bs' =>
        rw [ha, hl] at h
        obtain ⟨hall, hbs⟩ := ih hl
        refine ⟨fun x hx => ?_, ?_⟩
        · rcases List.mem_cons.mp hx with rfl | hx
          · exact ⟨b, ha⟩
          · exact hall x hx
        · rw [← Except.ok.inj h, List.filterMap_cons, ha, hbs]
          rfl

theorem length_mapM {f : α → Except ε β} {l : List α} {bs : List β} (h : l.mapM f = .ok bs) :
    bs.length = l.length := by
  induction l generalizing bs with
  | nil =>
    cases h
    rfl
  | cons a l ih =>
    rw [List.mapM_cons] at h
    obtain ⟨b, -, hrest⟩ := bind_ok h
    obtain ⟨bs', hbs, hdone⟩ := bind_ok hrest
    cases hdone
    rw [List.length_cons, List.length_cons, ih hbs]

theorem mapM_error {f : α → Except ε β} {l : List α} {e : ε} (h : l.mapM f = .error e) :
    ∃ a ∈ l, f a = .error e := by
  induction l with
  | nil => cases h
  | cons a l ih =>
    rw [List.mapM_cons] at h
    cases ha : f a with
    | error e' =>
      rw [ha] at h
      cases h
      exact ⟨a, List.mem_cons_self, ha⟩
    | ok b =>
      cases hl : l.mapM f with
      | error e' =>
        rw [ha, hl] at h
        cases h
        obtain ⟨x, hx, hfx⟩ := ih hl
        exact ⟨x, List.mem_cons_of_mem _ hx, hfx⟩
      | ok bs => rw [ha, hl] at h; cases h

theorem mapM_of_forall {f : α → Except ε β} {g : α → β} {l : List α}
    (h : ∀ a ∈ l, f a = .ok (g a)) : l.mapM f = .ok (l.map g) := by
  induction l with
  | nil => rfl
  | cons a l ih =>
    rw [List.mapM_cons, h a List.mem_cons_self, ih fun x hx => h x (List.mem_cons_of_mem a hx)]
    rfl

variable {P : ε → Prop}

/-- A result that fails, if at all, with an error that `P` holds of. -/
def FailsOnly (P : ε → Prop) (x : Except ε α) : Prop := ∀ e, x = .error e → P e

namespace FailsOnly

theorem ok (a : α) : FailsOnly P (.ok a) := by
  intro e h
  cases h

theorem pure (a : α) : FailsOnly P (Pure.pure a) := ok a

theorem error {e : ε} (h : P e) : FailsOnly P (.error e : Except ε α) := by
  intro e' he
  cases he
  exact h

theorem bind {x : Except ε α} {k : α → Except ε β} (hx : FailsOnly P x) (hk : ∀ a, FailsOnly P (k a)) :
    FailsOnly P (x >>= k) := by
  intro e h
  rcases bind_error h with hhere | ⟨a, -, hrest⟩
  · exact hx e hhere
  · exact hk a e hrest

theorem ok_bind {x : Except ε α} {k : α → Except ε β} {a : α} (hx : x = .ok a) (hk : FailsOnly P (k a)) :
    FailsOnly P (x >>= k) := by
  rw [hx]
  exact hk

theorem throw_bind {e : ε} {k : α → Except ε β} (h : P e) :
    FailsOnly P ((MonadExcept.throw e : Except ε α) >>= k) := error h

theorem ite {c : Prop} [Decidable c] {x y : Except ε α} (hx : FailsOnly P x) (hy : FailsOnly P y) :
    FailsOnly P (if c then x else y) := by
  split
  · exact hx
  · exact hy

theorem mapM {f : α → Except ε β} {l : List α} (h : ∀ a, FailsOnly P (f a)) : FailsOnly P (l.mapM f) := by
  induction l with
  | nil => exact pure []
  | cons a l ih =>
    rw [List.mapM_cons]
    exact bind (h a) fun b => bind ih fun bs => pure (b :: bs)

end FailsOnly

/-! ## Work on a state that can fail -/

namespace Run

variable {σ : Type} {x : ExceptT ε (StateM σ) α} {k : α → ExceptT ε (StateM σ) β} {s s' : σ}

theorem run_bind_ok {a : α} (h : x.run.run s = (.ok a, s')) : (x >>= k).run.run s = (k a).run.run s' := by
  rw [ExceptT.run_bind, StateT.run_bind, h]
  rfl

theorem run_bind_error {e : ε} (h : x.run.run s = (.error e, s')) : (x >>= k).run.run s = (.error e, s') := by
  rw [ExceptT.run_bind, StateT.run_bind, h]
  rfl

theorem of_run_bind_ok {b : β} (h : (x >>= k).run.run s = (.ok b, s')) :
    ∃ a m, x.run.run s = (.ok a, m) ∧ (k a).run.run m = (.ok b, s') := by
  cases hx : x.run.run s with
  | mk result m =>
    cases result with
    | error e => rw [run_bind_error hx] at h; cases h
    | ok a => exact ⟨a, m, rfl, by rw [← run_bind_ok hx, h]⟩

theorem run_get_bind (f : σ → ExceptT ε (StateM σ) β) : (get >>= f).run.run s = (f s).run.run s := rfl

end Run

end LogRef
