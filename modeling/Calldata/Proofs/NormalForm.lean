import Mathlib.Algebra.MvPolynomial.Funext
import Mathlib.Data.List.Lex
import Mathlib.Data.List.Sort
import Mathlib.Data.String.Basic
import Calldata.Proofs.Distance

/-!
Polynomials are kept in normal form: their terms ascend, the atoms of a monomial ascend, and no
coefficient is zero. The checked operations keep it, and two polynomials in normal form with the same
value whatever their atoms are worth are the same list of terms.
-/
namespace Calldata

open MvPolynomial (monomial coeff)

namespace Monomial

theorem insertAtom_eq (a : String) (m : Monomial) : insertAtom a m = m.orderedInsert (· ≤ ·) a := by
  induction m with
  | nil => rfl
  | cons b m ih =>
    simp only [insertAtom, List.orderedInsert_cons, ih]

theorem sorted_mul (m : Monomial) {n : Monomial} (h : n.Pairwise (· ≤ ·)) :
    (m.mul n).Pairwise (· ≤ ·) := by
  induction m with
  | nil => exact h
  | cons a m ih =>
    show (insertAtom a (mul m n)).Pairwise (· ≤ ·)
    rw [insertAtom_eq]
    exact ih.orderedInsert a _

noncomputable def exponents (m : Monomial) : String →₀ ℕ := Multiset.toFinsupp (m : Multiset String)

theorem exponents_inj {m n : Monomial} (hm : m.Pairwise (· ≤ ·)) (hn : n.Pairwise (· ≤ ·))
    (h : m.exponents = n.exponents) : m = n := by
  have perm : m.Perm n := Multiset.coe_eq_coe.1 (Multiset.toFinsupp.injective h)
  exact perm.eq_of_pairwise (fun _ _ _ _ => le_antisymm) hm hn

theorem prod_exponents (α : String → Int) (m : Monomial) :
    m.exponents.prod (fun a k => α a ^ k) = m.value α := by
  induction m with
  | nil => simp [exponents, value]
  | cons a m ih =>
    have first : exponents (a :: m) = Finsupp.single a 1 + exponents m := by
      rw [exponents, ← Multiset.cons_coe, ← Multiset.singleton_add, map_add, Multiset.toFinsupp_singleton]
      rfl
    rw [first, Finsupp.prod_add_index' (by simp) (by simp [pow_add]), ih, value]
    simp

end Monomial

namespace Polynomial

structure Normal (p : Polynomial) : Prop where
  ascending : p.terms.Pairwise (·.1 < ·.1)
  nonzero : ∀ t ∈ p.terms, t.2 ≠ 0
  sorted : ∀ t ∈ p.terms, t.1.Pairwise (· ≤ ·)

variable {p q r : Polynomial} {m n : Monomial} {c : Int64} {ts us : List (Monomial × Int64)}

section Operations

theorem mem_addTermTo (h : addTermTo m c ts = some us) {t : Monomial × Int64} (ht : t ∈ us) :
    t.1 = m ∨ t ∈ ts := by
  induction ts generalizing us with
  | nil =>
    simp only [addTermTo, Option.some.injEq] at h
    subst h
    split at ht <;> simp_all
  | cons s ts ih =>
    obtain ⟨n, d⟩ := s
    simp only [addTermTo] at h
    split at h
    · next same =>
      obtain ⟨e, _, h⟩ := Option.bind_eq_some_iff.1 h
      split at h <;> cases h
      · exact .inr (List.mem_cons_of_mem _ ht)
      · rcases List.mem_cons.1 ht with rfl | ht
        · exact .inl same.symm
        · exact .inr (List.mem_cons_of_mem _ ht)
    · split at h
      · split at h <;> cases h
        · exact .inr ht
        · rcases List.mem_cons.1 ht with rfl | ht
          · exact .inl rfl
          · exact .inr ht
      · obtain ⟨vs, hv, h⟩ := Option.bind_eq_some_iff.1 h
        cases h
        rcases List.mem_cons.1 ht with rfl | ht
        · exact .inr List.mem_cons_self
        · exact (ih hv ht).imp_right (List.mem_cons_of_mem _)

theorem ascending_addTermTo (h : addTermTo m c ts = some us) (ascending : ts.Pairwise (·.1 < ·.1)) :
    us.Pairwise (·.1 < ·.1) := by
  induction ts generalizing us with
  | nil =>
    simp only [addTermTo, Option.some.injEq] at h
    subst h
    split <;> simp
  | cons s ts ih =>
    obtain ⟨n, d⟩ := s
    obtain ⟨first, rest⟩ := List.pairwise_cons.1 ascending
    simp only [addTermTo] at h
    split at h
    · obtain ⟨e, _, h⟩ := Option.bind_eq_some_iff.1 h
      split at h <;> cases h
      · exact rest
      · exact List.pairwise_cons.2 ⟨first, rest⟩
    · next other =>
      split at h
      · next earlier =>
        split at h <;> cases h
        · exact ascending
        · refine List.pairwise_cons.2 ⟨?_, ascending⟩
          intro t ht
          rcases List.mem_cons.1 ht with rfl | ht
          · exact earlier
          · exact lt_trans earlier (first t ht)
      · next later =>
        have after : n < m := lt_of_le_of_ne (not_lt.1 later) (Ne.symm other)
        obtain ⟨vs, hv, h⟩ := Option.bind_eq_some_iff.1 h
        cases h
        refine List.pairwise_cons.2 ⟨?_, ih hv rest⟩
        intro t ht
        rcases mem_addTermTo hv ht with same | ht
        · rw [same]
          exact after
        · exact first t ht

theorem Normal.addTerm (hp : p.Normal) (hm : m.Pairwise (· ≤ ·)) (h : p.addTerm m c = some q) :
    q.Normal := by
  have kept := (addTerm_spec (α := fun _ => 0) (Q := fun _ => True) h).2 (fun _ _ => trivial)
    fun t ht => ⟨hp.nonzero t ht, fun _ _ => trivial⟩
  obtain ⟨us, hu, rfl⟩ := Option.map_eq_some_iff.1 h
  refine ⟨ascending_addTermTo hu hp.ascending, fun t ht => (kept t ht).1, ?_⟩
  intro t ht
  rcases mem_addTermTo hu ht with same | ht
  · rw [same]
    exact hm
  · exact hp.sorted t ht

theorem normal_zero : zero.Normal := ⟨.nil, nofun, nofun⟩

theorem normal_constant (c : Int64) : (constant c).Normal := by
  unfold constant
  split
  · exact normal_zero
  · next h => exact ⟨List.pairwise_singleton _ _, by simpa using h, by simp⟩

theorem normal_atom (name : String) : (atom name).Normal :=
  ⟨List.pairwise_singleton _ _, by simp [atom], by simp [atom]⟩

theorem Normal.add (hp : p.Normal) (hq : q.Normal) (h : p.add q = some r) : r.Normal :=
  foldlM_keeps (fun t ht _ _ h normal => normal.addTerm (hq.sorted t ht) h) h hp

theorem Normal.sub (hp : p.Normal) (hq : q.Normal) (h : p.sub q = some r) : r.Normal := by
  refine foldlM_keeps (fun t ht s s' h normal => ?_) h hp
  obtain ⟨c, _, h⟩ := Option.bind_eq_some_iff.1 h
  exact normal.addTerm (hq.sorted t ht) h

theorem Normal.mul (hq : q.Normal) (h : p.mul q = some r) : r.Normal := by
  refine foldlM_keeps (fun t _ s s' h normal => ?_) h normal_zero
  refine foldlM_keeps (fun u hu s s' h normal => ?_) h normal
  obtain ⟨c, _, h⟩ := Option.bind_eq_some_iff.1 h
  exact normal.addTerm (Monomial.sorted_mul _ (hq.sorted u hu)) h

end Operations

section Uniqueness

/-- The polynomial in the sense of algebra. -/
noncomputable def symbolic : List (Monomial × Int64) → MvPolynomial String ℤ
  | [] => 0
  | (m, c) :: rest => monomial m.exponents c.toInt + symbolic rest

theorem eval_symbolic (α : String → Int) (ts : List (Monomial × Int64)) :
    (symbolic ts).eval α = valueOf α ts := by
  induction ts with
  | nil => simp [symbolic, valueOf]
  | cons t ts ih => simp [symbolic, valueOf, MvPolynomial.eval_monomial, Monomial.prod_exponents, ih]

/-- What stands before a monomial, zero where it does not occur. -/
def coefficient (n : Monomial) : List (Monomial × Int64) → Int
  | [] => 0
  | (m, c) :: rest => (if m = n then c.toInt else 0) + coefficient n rest

theorem coeff_symbolic (hn : n.Pairwise (· ≤ ·)) (sorted : ∀ t ∈ ts, t.1.Pairwise (· ≤ ·)) :
    coeff n.exponents (symbolic ts) = coefficient n ts := by
  induction ts with
  | nil => simp [symbolic, coefficient]
  | cons t ts ih =>
    obtain ⟨m, c⟩ := t
    obtain ⟨hm, rest⟩ := List.forall_mem_cons.1 sorted
    have same : m.exponents = n.exponents ↔ m = n :=
      ⟨Monomial.exponents_inj hm hn, congrArg Monomial.exponents⟩
    simp only [symbolic, coefficient, MvPolynomial.coeff_add, MvPolynomial.coeff_monomial, same, ih rest]

theorem exists_mem_of_coefficient (h : coefficient n ts ≠ 0) : ∃ c, (n, c) ∈ ts := by
  induction ts with
  | nil => exact absurd rfl h
  | cons t ts ih =>
    obtain ⟨m, c⟩ := t
    by_cases same : m = n
    · subst same
      exact ⟨c, List.mem_cons_self⟩
    · rw [coefficient, if_neg same, Int.zero_add] at h
      obtain ⟨d, hd⟩ := ih h
      exact ⟨d, List.mem_cons_of_mem _ hd⟩

theorem coefficient_of_mem (ascending : ts.Pairwise (·.1 < ·.1)) (h : (n, c) ∈ ts) :
    coefficient n ts = c.toInt := by
  induction ts with
  | nil => cases h
  | cons t ts ih =>
    obtain ⟨m, d⟩ := t
    obtain ⟨first, rest⟩ := List.pairwise_cons.1 ascending
    rcases List.mem_cons.1 h with same | later
    · cases same
      have alone : coefficient n ts = 0 := by
        by_contra occurs
        obtain ⟨e, he⟩ := exists_mem_of_coefficient occurs
        exact lt_irrefl n (first _ he)
      rw [coefficient, if_pos rfl, alone, Int.add_zero]
    · have other : m ≠ n := ne_of_lt (first _ later)
      rw [coefficient, if_neg other, Int.zero_add]
      exact ih rest later

theorem Normal.mem_of_value (hp : p.Normal) (hq : q.Normal) (same : ∀ α, p.value α = q.value α)
    {t : Monomial × Int64} (ht : t ∈ p.terms) : t ∈ q.terms := by
  obtain ⟨n, c⟩ := t
  have sorted := hp.sorted _ ht
  have symbols : symbolic p.terms = symbolic q.terms := by
    apply MvPolynomial.funext
    intro α
    rw [eval_symbolic, eval_symbolic]
    exact same α
  have here : coefficient n q.terms = c.toInt := by
    rw [← coeff_symbolic sorted hq.sorted, ← symbols, coeff_symbolic sorted hp.sorted]
    exact coefficient_of_mem hp.ascending ht
  have occurs : coefficient n q.terms ≠ 0 := by
    rw [here, Ne, int64_eq_zero_iff]
    exact hp.nonzero _ ht
  obtain ⟨d, hd⟩ := exists_mem_of_coefficient occurs
  have value := coefficient_of_mem hq.ascending hd
  rw [here] at value
  rwa [Int64.toInt_inj.1 value]

/-- A polynomial in normal form is known by its values. -/
theorem Normal.eq_of_value (hp : p.Normal) (hq : q.Normal) (same : ∀ α, p.value α = q.value α) :
    p = q := by
  have distinct {p : Polynomial} (h : p.Normal) : p.terms.Nodup := by
    refine List.Pairwise.imp ?_ h.ascending
    rintro s _ less rfl
    exact lt_irrefl s.1 less
  have members (t : Monomial × Int64) : t ∈ p.terms ↔ t ∈ q.terms :=
    ⟨hp.mem_of_value hq same, hq.mem_of_value hp fun α => (same α).symm⟩
  have perm := (List.perm_ext_iff_of_nodup (distinct hp) (distinct hq)).2 members
  have terms : p.terms = q.terms :=
    perm.eq_of_pairwise (fun _ _ _ _ less more => absurd more (lt_asymm less)) hp.ascending hq.ascending
  cases p
  cases q
  exact congrArg Polynomial.mk terms

end Uniqueness

end Polynomial
end Calldata
