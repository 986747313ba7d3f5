import Mathlib.Tactic

/-!
# Results in order

A function that may fail is applied to the elements of a list one after another. Either every element
has a result, or the first element that has none decides the failure; what comes behind it does not
matter.
-/
namespace MatrixLisp.Collect

variable {α β ε : Type} {f : α → Except ε β}

theorem map_map {γ : Type} (r : Except ε α) (g : α → β) (k : β → γ) :
    (r.map g).map k = r.map (k ∘ g) := by
  cases r <;> rfl

/-- What is done with a result does not change whether there is one. -/
theorem exists_map_eq_error_iff {r : Except ε α} {g : α → β} :
    (∃ e, r.map g = .error e) ↔ ∃ e, r = .error e := by
  cases r <;> simp [Except.map]

theorem mapM_eq_some {f : α → Option β} {g : α → β} {xs : List α}
    (h : ∀ x ∈ xs, f x = some (g x)) : xs.mapM f = some (xs.map g) := by
  induction xs with
  | nil => rfl
  | cons x xs ih =>
    obtain ⟨hx, hxs⟩ := List.forall_mem_cons.mp h
    rw [List.mapM_cons, hx, ih hxs]
    rfl

theorem mapM_eq_ok_iff {xs : List α} {ys : List β} :
    xs.mapM f = .ok ys ↔ xs.map f = ys.map .ok := by
  induction xs generalizing ys with
  | nil => cases ys <;> simp [pure, Except.pure]
  | cons x xs ih =>
    rw [List.mapM_cons]
    cases hx : f x with
    | error e => cases ys <;> simp [bind, Except.bind, hx]
    | ok y =>
      cases hxs : xs.mapM f with
      | error e => cases ys <;> simp [bind, Except.bind, hx, ← ih, hxs]
      | ok rest => cases ys <;> simp [bind, Except.bind, pure, Except.pure, hx, ← ih, hxs]

/-- What the results have in common with their elements they have one after another. -/
theorem map_eq_map_of_mapM_eq_ok {γ : Type} {g : β → γ} {k : α → γ} {xs : List α} {ys : List β}
    (h : xs.mapM f = .ok ys) (hf : ∀ x y, f x = .ok y → g y = k x) : ys.map g = xs.map k := by
  refine List.ext_getElem? fun i => ?_
  have hi := congrArg (·[i]?) (mapM_eq_ok_iff.mp h)
  simp only [List.getElem?_map] at hi ⊢
  cases hx : xs[i]? with
  | none => cases hy : ys[i]? <;> simp_all
  | some x =>
    rw [hx] at hi
    obtain ⟨y, hy, hxy⟩ := Option.map_eq_some_iff.mp hi.symm
    rw [hy, Option.map_some, Option.map_some, hf x y hxy.symm]

theorem mapM_cons_eq_error_iff {x : α} {xs : List α} {e : ε} :
    (x :: xs).mapM f = .error e ↔
      f x = .error e ∨ (∃ y, f x = .ok y) ∧ xs.mapM f = .error e := by
  rw [List.mapM_cons]
  cases f x with
  | error e' => simp [bind, Except.bind]
  | ok y => cases xs.mapM f <;> simp [bind, Except.bind, pure, Except.pure]

/-- The failure is that of the first element that fails. -/
theorem mapM_eq_error_iff {xs : List α} {e : ε} :
    xs.mapM f = .error e ↔ ∃ (i : ℕ) (x : α), xs[i]? = some x ∧ f x = .error e ∧
      ∀ j < i, ∀ y, xs[j]? = some y → ∃ z, f y = .ok z := by
  induction xs with
  | nil => simp [pure, Except.pure]
  | cons x xs ih =>
    rw [mapM_cons_eq_error_iff, ih]
    constructor
    · rintro (hx | ⟨hx, i, y, hy, hfail, hfront⟩)
      · exact ⟨0, x, rfl, hx, nofun⟩
      · refine ⟨i + 1, y, hy, hfail, fun j hj w hw => ?_⟩
        cases j with
        | zero =>
          cases hw
          exact hx
        | succ j => exact hfront j (Nat.lt_of_succ_lt_succ hj) w hw
    · rintro ⟨i, y, hy, hfail, hfront⟩
      cases i with
      | zero =>
        cases hy
        exact Or.inl hfail
      | succ i =>
        exact Or.inr ⟨hfront 0 i.succ_pos x rfl, i, y, hy, hfail,
          fun j hj w hw => hfront (j + 1) (Nat.succ_lt_succ hj) w hw⟩

/-- There are results if no element fails. -/
theorem exists_mapM_eq_ok_iff {xs : List α} :
    (∃ ys, xs.mapM f = .ok ys) ↔ ∀ x ∈ xs, ∃ y, f x = .ok y := by
  simp only [mapM_eq_ok_iff]
  induction xs with
  | nil => exact iff_of_true ⟨[], rfl⟩ (by simp)
  | cons x xs ih =>
    rw [List.forall_mem_cons, ← ih]
    constructor
    · rintro ⟨_ | ⟨y, ys⟩, h⟩
      · cases h
      · obtain ⟨hx, hxs⟩ := List.cons.inj h
        exact ⟨⟨y, hx⟩, ys, hxs⟩
    · rintro ⟨⟨y, hy⟩, ys, hys⟩
      exact ⟨y :: ys, by rw [List.map_cons, hy, hys, List.map_cons]⟩

end MatrixLisp.Collect
