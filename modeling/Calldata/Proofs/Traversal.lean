import Mathlib.Data.List.Forall2

/-!
Computations that may fail, and lists that are walked through with them.
-/
namespace Calldata
variable {α β ε : Type}

section Results
variable {r : Except ε α}

theorem exists_of_bind_ok {f : α → Except ε β} {b : β} (h : (r >>= f) = .ok b) : ∃ a, r = .ok a ∧ f a = .ok b := by
  cases r with
  | error e => cases h
  | ok a => exact ⟨a, rfl, h⟩

theorem exists_ok_of_isSome (h : r.toOption.isSome = true) : ∃ a, r = .ok a := by
  cases r with
  | error e => cases h
  | ok a => exact ⟨a, rfl⟩

theorem error_of_map {e : ε} (h : (r.map fun _ => ()) = .error e) : r = .error e := by
  cases r with
  | error other =>
    cases h
    rfl
  | ok a => cases h

end Results

section MapM
variable {xs : List α}

theorem mapM_some_iff {f : α → Option β} {ys : List β} :
    xs.mapM f = some ys ↔ List.Forall₂ (fun x y => f x = some y) xs ys := by
  induction xs generalizing ys with
  | nil => cases ys <;> simp
  | cons x xs ih =>
    rw [List.mapM_cons]
    cases hx : f x with
    | none => cases ys <;> simp [hx]
    | some z =>
      cases hxs : xs.mapM f with
      | none => cases ys <;> simp [hx, ← ih, hxs]
      | some zs => cases ys <;> simp [hx, ← ih, hxs]

theorem mapM_ok_iff {f : α → Except ε β} {ys : List β} :
    xs.mapM f = .ok ys ↔ List.Forall₂ (fun x y => f x = .ok y) xs ys := by
  constructor
  · intro h
    induction xs generalizing ys with
    | nil =>
      cases h
      exact .nil
    | cons x xs ih =>
      rw [List.mapM_cons] at h
      obtain ⟨y, hy, h⟩ := exists_of_bind_ok h
      obtain ⟨ys', hys, h⟩ := exists_of_bind_ok h
      cases h
      exact .cons hy (ih hys)
  · intro each
    induction each with
    | nil => rfl
    | cons first _ ih =>
      rw [List.mapM_cons, first, ih]
      rfl

theorem mapM_map_eq_some {f : α → β} {g : β → Option α} (h : ∀ x ∈ xs, g (f x) = some x) :
    (xs.map f).mapM g = some xs := by
  rw [mapM_some_iff, List.forall₂_map_left_iff, List.forall₂_same]
  exact h

theorem mapM_ok_of_forall {f : α → Except ε β} {g : α → β} (h : ∀ x ∈ xs, f x = .ok (g x)) :
    xs.mapM f = .ok (xs.map g) := by
  rw [mapM_ok_iff, List.forall₂_map_right_iff, List.forall₂_same]
  exact h

end MapM

section FilterM
variable {f : α → Except ε Bool} {cs : List α}

theorem filterAuxM_error {acc : List α} {e : ε} (h : cs.filterAuxM f acc = .error e) : ∃ c ∈ cs, f c = .error e := by
  induction cs generalizing acc with
  | nil => cases h
  | cons c rest ih =>
    cases hc : f c with
    | error e' =>
      simp only [List.filterAuxM, hc, bind, Except.bind] at h
      cases h
      exact ⟨c, by simp, hc⟩
    | ok b =>
      simp only [List.filterAuxM, hc, bind, Except.bind] at h
      obtain ⟨d, hd, he⟩ := ih h
      exact ⟨d, by simp [hd], he⟩

theorem filterM_error {e : ε} (h : cs.filterM f = .error e) : ∃ c ∈ cs, f c = .error e := by
  cases hr : cs.filterAuxM f [] with
  | error e' =>
    simp only [List.filterM, hr, bind, Except.bind] at h
    cases h
    exact filterAuxM_error hr
  | ok r =>
    simp only [List.filterM, hr, bind, Except.bind] at h
    cases h

theorem filterAuxM_nil_iff {acc : List α} :
    cs.filterAuxM f acc = .ok [] ↔ acc = [] ∧ ∀ c ∈ cs, f c = .ok false := by
  induction cs generalizing acc with
  | nil => simp [List.filterAuxM, pure, Except.pure]
  | cons c rest ih =>
    cases hc : f c with
    | error e => simp [List.filterAuxM, hc, bind, Except.bind]
    | ok found => cases found <;> simp [List.filterAuxM, hc, bind, Except.bind, ih]

theorem filterM_nil_iff : cs.filterM f = .ok [] ↔ ∀ c ∈ cs, f c = .ok false := by
  have inner : cs.filterAuxM f [] = .ok [] ↔ _ := filterAuxM_nil_iff
  cases h : cs.filterAuxM f [] <;>
    simp_all [List.filterM, bind, Except.bind, pure, Except.pure]

end FilterM

end Calldata
