import ServerlessTaint.Fault

/-!
# Laws of work that may fail

What is known of the parts of a chain of steps when the chain goes well.
-/

namespace ServerlessTaint

open List

variable {ε α β : Type}

theorem ok_bind (a : α) (f : α → Except ε β) : Except.ok a >>= f = f a := rfl

variable {xs : List α} {ys : List β} {x : Except ε α} {f : α → Except ε β}

theorem bind_eq_ok_iff {b : β} : x >>= f = .ok b ↔ ∃ a, x = .ok a ∧ f a = .ok b := by
  cases x <;> simp [bind, Except.bind]

/-- The same for steps that change a state as well. -/
theorem run_bind_eq_ok_iff {σ : Type} {x : ExceptT ε (StateM σ) α} {f : α → ExceptT ε (StateM σ) β} {b : β}
    {s s' : σ} :
    (x >>= f).run.run s = (.ok b, s') ↔
      ∃ a mid, x.run.run s = (.ok a, mid) ∧ (f a).run.run mid = (.ok b, s') := by
  rw [ExceptT.run_bind, StateT.run_bind]
  cases h : x.run.run s with
  | mk result mid =>
    cases result with
    | ok a =>
      constructor
      · intro hf; exact ⟨a, mid, rfl, hf⟩
      · rintro ⟨_, _, heq, hf⟩; cases heq; exact hf
    | error fault =>
      constructor
      · intro hf; cases hf
      · rintro ⟨_, _, heq, _⟩; cases heq

section

variable {σ : Type} {x : ExceptT ε (StateM σ) α} {s mid : σ}

theorem run_bind_of_ok {a : α} (h : x.run.run s = (.ok a, mid)) (f : α → ExceptT ε (StateM σ) β) :
    (x >>= f).run.run s = (f a).run.run mid := by
  rw [ExceptT.run_bind, StateT.run_bind, h]
  rfl

theorem run_bind_of_error {fault : ε} (h : x.run.run s = (.error fault, mid)) (f : α → ExceptT ε (StateM σ) β) :
    (x >>= f).run.run s = (.error fault, mid) := by
  rw [ExceptT.run_bind, StateT.run_bind, h]
  rfl

end

theorem eq_ok_of_toOption {a : α} (h : x.toOption = some a) : x = .ok a := by
  cases x with
  | ok b => cases h; rfl
  | error fault => cases h

/-- A list is gone through if each of its members can be, and every member gives a result. -/
theorem exists_mapM (h : ∀ x ∈ xs, ∃ y, f x = .ok y) : ∃ ys, xs.mapM f = .ok ys ∧ ys.length = xs.length := by
  induction xs with
  | nil => exact ⟨[], rfl, rfl⟩
  | cons x xs ih =>
    obtain ⟨y, hy⟩ := h x mem_cons_self
    obtain ⟨ys, hys, hlength⟩ := ih fun z hz => h z (mem_cons_of_mem x hz)
    refine ⟨y :: ys, ?_, by rw [length_cons, hlength, length_cons]⟩
    rw [mapM_cons, hy, ok_bind, hys]
    rfl

theorem mapM_eq_ok_map {g : α → β} (h : ∀ x ∈ xs, f x = .ok (g x)) : xs.mapM f = .ok (xs.map g) := by
  induction xs with
  | nil => rfl
  | cons x xs ih =>
    rw [mapM_cons, h x mem_cons_self, ok_bind, ih fun y hy => h y (mem_cons_of_mem x hy)]
    rfl

theorem map_some_of_mapM (h : xs.mapM f = .ok ys) : ys.map some = xs.map fun x => (f x).toOption := by
  induction xs generalizing ys with
  | nil =>
    cases h
    rfl
  | cons x xs ih =>
    rw [mapM_cons, bind_eq_ok_iff] at h
    obtain ⟨y, hy, h⟩ := h
    obtain ⟨rest, hrest, h⟩ := bind_eq_ok_iff.1 h
    cases h
    rw [map_cons, map_cons, ih hrest, hy]
    rfl

/-- What a member of a list gives is among the results of the list. -/
theorem mem_of_mapM (h : xs.mapM f = .ok ys) {x : α} (hx : x ∈ xs) {y : β} (hy : f x = .ok y) : y ∈ ys := by
  have hsome : some y ∈ xs.map fun x => (f x).toOption := mem_map.2 ⟨x, hx, by rw [hy]; rfl⟩
  rw [← map_some_of_mapM h] at hsome
  simpa using hsome

theorem exists_ok_of_mapM (h : xs.mapM f = .ok ys) {x : α} (hx : x ∈ xs) : ∃ y, f x = .ok y := by
  have hsome : (f x).toOption ∈ xs.map fun x => (f x).toOption := mem_map_of_mem hx
  rw [← map_some_of_mapM h] at hsome
  obtain ⟨y, -, heq⟩ := mem_map.1 hsome
  exact ⟨y, eq_ok_of_toOption heq.symm⟩

end ServerlessTaint
