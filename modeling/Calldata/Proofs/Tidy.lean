import Calldata.Proofs.Distance
import Calldata.Proofs.Plain

/-!
Sums whose literal is gathered at the end. Such a term is a core, which is worth nothing where all
names and words are zero, and a literal. Adding tidy terms adds their literals, and moving the loads
of a tidy term moves those of its core. The distance of two tidy terms with one core is known: it is
the difference of their literals.
-/
namespace Calldata

theorem exists_checked_of_bounds {n : Int} (low : -2 ^ 63 ≤ n) (high : n < 2 ^ 63) :
    ∃ x, checked n = some x := by
  cases h : checked n with
  | some x => exact ⟨x, rfl⟩
  | none =>
    have := checked_eq_none_iff.1 h
    rw [Int64.toInt_minValue, Int64.toInt_maxValue] at this
    omega

namespace Term
variable {s t l r m : Term} {c : Int64}

/-- A sum without a literal. -/
inductive Core : Term → Prop
  | var (name : String) : Core (.var name)
  | load (address : Term) : Core (.load address)
  | add {l r : Term} (left : Core l) (right : Core r) : Core (.binary .add l r)
  | mul {t : Term} {k : Int64} (factor : Core t) (more : 1 < k.toInt) :
      Core (.binary .mul t (.literal k))
  | round (address : Term) :
      Core (.binary .shl (.binary .shr (.binary .add (.load address) (.literal 31)) (.literal 5))
        (.literal 5))

inductive Tidy : Term → Prop
  | literal {c : Int64} (nonneg : 0 ≤ c.toInt) : Tidy (.literal c)
  | core {s : Term} (core : Core s) : Tidy s
  | plus {s : Term} {c : Int64} (core : Core s) (positive : 0 < c.toInt) :
      Tidy (.binary .add s (.literal c))

theorem Core.split (h : Core s) : s.split = (some s, 0) := by
  cases h with
  | var | load | mul | round => rfl
  | add _ right => cases right <;> rfl

theorem Core.asLiteral (h : Core s) : s.asLiteral = none := by
  cases h <;> rfl

theorem plus_of_positive (positive : 0 < c.toInt) : s.plus c = .binary .add s (.literal c) := by
  have nonzero : c ≠ 0 := by
    rintro rfl
    simp at positive
  have nonneg : ¬ c < 0 := by
    rw [Int64.lt_iff_toInt_lt, Int64.toInt_zero]
    omega
  rw [Term.plus, if_neg nonzero, if_neg fun h => nonneg h.1]

theorem Core.tidy_plus (h : Core s) (nonneg : 0 ≤ c.toInt) :
    (s.plus c).Tidy ∧ (s.plus c).split = (some s, c) := by
  by_cases zero : c = 0
  · subst zero
    exact ⟨.core h, h.split⟩
  · have positive : 0 < c.toInt := by
      have : c.toInt ≠ 0 := fun e => zero ((int64_eq_zero_iff c).1 e)
      omega
    rw [plus_of_positive positive]
    exact ⟨.plus h positive, rfl⟩

theorem Tidy.parts (h : t.Tidy) : 0 ≤ t.split.2.toInt ∧
    ((t.split.1 = none ∧ t = .literal t.split.2) ∨
      ∃ s, Core s ∧ t.split.1 = some s ∧ t = s.plus t.split.2) := by
  cases h with
  | literal nonneg => exact ⟨nonneg, .inl ⟨rfl, rfl⟩⟩
  | core core =>
    rw [core.split]
    exact ⟨by simp, .inr ⟨t, core, rfl, rfl⟩⟩
  | @plus s c core positive =>
    refine ⟨Int.le_of_lt positive, .inr ⟨s, core, rfl, ?_⟩⟩
    exact (plus_of_positive positive).symm

theorem Tidy.ofNat (n : Nat) : (Term.ofNat n).Tidy := by
  cases Plain.ofNat n with
  | literal nonneg => exact .literal nonneg

def jointCore : Option Term → Option Term → Option Term
  | none, none => none
  | some l, none => some l
  | none, some r => some r
  | some l, some r => some (.binary .add l r)

theorem Tidy.sum (hl : l.Tidy) (hr : r.Tidy) (small : l.split.2.toInt + r.split.2.toInt < 2 ^ 63) :
    (l + r).Tidy ∧ (l + r).split.1 = jointCore l.split.1 r.split.1 ∧
      (l + r).split.2.toInt = l.split.2.toInt + r.split.2.toInt := by
  obtain ⟨l0, hl⟩ := hl.parts
  obtain ⟨r0, hr⟩ := hr.parts
  obtain ⟨c, hc⟩ := exists_checked (n := l.split.2.toInt + r.split.2.toInt) (by omega) small
  have total := checked_eq_some_iff.1 hc
  have nonneg : 0 ≤ c.toInt := by omega
  show (Term.sum l r).Tidy ∧ (Term.sum l r).split.1 = _ ∧ (Term.sum l r).split.2.toInt = _
  rcases hl with ⟨hl, -⟩ | ⟨s, cs, hs, -⟩ <;> rcases hr with ⟨hr, -⟩ | ⟨s', cs', hs', -⟩
  · have folded : Term.sum l r = .literal c := by simp only [Term.sum, hc, hl, hr]
    rw [folded, hl, hr]
    exact ⟨.literal nonneg, rfl, total⟩
  · have folded : Term.sum l r = s'.plus c := by simp only [Term.sum, hc, hl, hs']
    obtain ⟨tidy, split⟩ := cs'.tidy_plus nonneg
    rw [folded, split, hl, hs']
    exact ⟨tidy, rfl, total⟩
  · have folded : Term.sum l r = s.plus c := by simp only [Term.sum, hc, hs, hr]
    obtain ⟨tidy, split⟩ := cs.tidy_plus nonneg
    rw [folded, split, hs, hr]
    exact ⟨tidy, rfl, total⟩
  · have folded : Term.sum l r = (binary .add s s').plus c := by simp only [Term.sum, hc, hs, hs']
    obtain ⟨tidy, split⟩ := (cs.add cs').tidy_plus nonneg
    rw [folded, split, hs, hs']
    exact ⟨tidy, rfl, total⟩

theorem Core.scale (h : Core s) {k : Int64} (more : 1 < k.toInt) :
    s * Term.literal k = .binary .mul s (.literal k) := by
  show product s (.literal k) = _
  have zero : k ≠ 0 := by
    rintro rfl
    simp at more
  have one : k ≠ 1 := by
    rintro rfl
    simp at more
  simp [product, h.asLiteral, show (Term.literal k).asLiteral = some k from rfl, zero, one]

theorem Core.tidy_scale (h : Core s) {k : Int64} (nonneg : 0 ≤ k.toInt) : (s * Term.literal k).Tidy := by
  by_cases more : 1 < k.toInt
  · rw [h.scale more]
    exact .core (h.mul more)
  · show (product s (.literal k)).Tidy
    have few : k = 0 ∨ k = 1 := by
      rcases (by omega : k.toInt = 0 ∨ k.toInt = 1) with zero | one
      · exact .inl (Int64.toInt_inj.1 zero)
      · exact .inr (Int64.toInt_inj.1 one)
    rcases few with rfl | rfl
    · simpa [product, h.asLiteral, show (Term.literal 0).asLiteral = some 0 from rfl] using
        Tidy.literal (c := 0) (by simp)
    · simpa [product, h.asLiteral, show (Term.literal 1).asLiteral = some 1 from rfl] using Tidy.core h

theorem Core.mapLoads (f : Term → Term) (h : Core s) : Core (s.mapLoads f) := by
  induction h with
  | var name => exact .var name
  | load address => exact .load _
  | @add l r _ _ ihl ihr =>
    have folded : l.mapLoads f + r.mapLoads f = .binary .add (l.mapLoads f) (r.mapLoads f) := by
      show Term.sum _ _ = _
      simp [Term.sum, ihl.split, ihr.split, show checked 0 = some 0 by decide, Term.plus]
    show Core (l.mapLoads f + r.mapLoads f)
    rw [folded]
    exact ihl.add ihr
  | @mul t k _ more ih =>
    show Core (t.mapLoads f * Term.literal k)
    rw [ih.scale more]
    exact ih.mul more
  | round address =>
    rw [mapLoads_round]
    exact .round _

theorem Tidy.mapLoads (f : Term → Term) (h : t.Tidy) : (t.mapLoads f).Tidy ∧
    (t.mapLoads f).split = (t.split.1.map (·.mapLoads f), t.split.2) := by
  cases h with
  | literal nonneg => exact ⟨.literal nonneg, rfl⟩
  | core core =>
    rw [core.split, (core.mapLoads f).split]
    exact ⟨.core (core.mapLoads f), rfl⟩
  | @plus s c core positive =>
    have moved : (Term.binary .add s (.literal c)).mapLoads f = (s.mapLoads f).plus c :=
      add_literal_of_split (core.mapLoads f).split
    rw [moved]
    exact (core.mapLoads f).tidy_plus (Int.le_of_lt positive)

section Sample
variable {k : Int}

theorem Core.sample_nonneg (h : Core s) (hk : 0 ≤ k) : 0 ≤ s.sample k := by
  unfold sample
  induction h with
  | var | load => exact hk
  | add _ _ ihl ihr => exact Int.add_nonneg ihl ihr
  | mul _ more ih => exact Int.mul_nonneg ih (by rw [denote_literal]; omega)
  | round address =>
    rw [denote_round]
    omega

theorem Core.sample_zero (h : Core s) : s.sample 0 = 0 := by
  unfold sample
  induction h with
  | var | load => rfl
  | add _ _ ihl ihr => rw [denote_binary, Op.denote, ihl, ihr, Int.add_zero]
  | mul _ _ ih => rw [denote_binary, Op.denote, ih, Int.zero_mul]
  | round address =>
    rw [denote_round]
    decide

theorem Core.le_sample (h : Core s) (hk : 0 ≤ k) : k ≤ s.sample k := by
  induction h with
  | var | load => exact Int.le_refl k
  | @add l r _ right ihl ihr =>
    have := right.sample_nonneg hk
    show k ≤ l.sample k + r.sample k
    omega
  | @mul t c _ more ih =>
    show k ≤ t.sample k * c.toInt
    calc k ≤ t.sample k * 1 := by omega
      _ ≤ t.sample k * c.toInt := Int.mul_le_mul_of_nonneg_left (by omega) (by omega)
  | round address =>
    unfold sample
    rw [denote_round]
    omega

theorem sample_plus (s : Term) (c : Int64) : (s.plus c).sample k = s.sample k + c.toInt :=
  denote_plus s c

theorem Tidy.sample_zero (h : t.Tidy) : t.sample 0 = t.split.2.toInt := by
  obtain ⟨_, ⟨_, eq⟩ | ⟨s, core, _, eq⟩⟩ := h.parts
  · rw [eq]
    rfl
  · rw [eq, sample_plus, core.sample_zero, Int.zero_add, ← eq]

theorem Tidy.add (hl : l.Tidy) (hr : r.Tidy) (small : l.sample 0 + r.sample 0 < 2 ^ 63) :
    (l + r).Tidy := by
  rw [hl.sample_zero, hr.sample_zero] at small
  exact (hl.sum hr small).1

/-- A tidy term is a literal or grows without bound. -/
theorem Tidy.le_sample (h : t.Tidy) (hs : t.split.1 = some s) (hk : 0 ≤ k) : k ≤ t.sample k := by
  obtain ⟨nonneg, ⟨none_, _⟩ | ⟨s, core, _, eq⟩⟩ := h.parts
  · rw [none_] at hs
    cases hs
  · have := core.le_sample hk
    rw [eq, sample_plus]
    omega

theorem Tidy.denote_sub (hl : l.Tidy) (hr : r.Tidy) (same : l.split.1 = r.split.1)
    {names : String → Int} {words : Int → Int} :
    l.denote names words - r.denote names words = l.split.2.toInt - r.split.2.toInt := by
  obtain ⟨_, ⟨hl, el⟩ | ⟨s, _, hs, el⟩⟩ := hl.parts <;>
    obtain ⟨_, ⟨hr, er⟩ | ⟨s', _, hs', er⟩⟩ := hr.parts
  · rw [el, er]
    rfl
  · simp [hl, hs'] at same
  · simp [hs, hr] at same
  · obtain rfl : s = s' := by simpa [hs, hs'] using same
    have left : l.denote names words = s.denote names words + l.split.2.toInt := by
      conv_lhs => rw [el, denote_plus]
    have right : r.denote names words = s.denote names words + r.split.2.toInt := by
      conv_lhs => rw [er, denote_plus]
    omega

end Sample

end Term

namespace Polynomial

/-- No constant term, and only positive coefficients. -/
def Free (p : Polynomial) : Prop := ∀ t ∈ p.terms, t.1 ≠ [] ∧ 0 < t.2.toInt

theorem addTermTo_free {m : Monomial} {c : Int64} {ts us : List (Monomial × Int64)} (hm : m ≠ [])
    (hc : 0 < c.toInt) (h : addTermTo m c ts = some us) (free : Free ⟨ts⟩) : Free ⟨us⟩ := by
  have added {us : List (Monomial × Int64)} (free : Free ⟨us⟩) : Free ⟨(m, c) :: us⟩ :=
    List.forall_mem_cons.2 ⟨⟨hm, hc⟩, free⟩
  have nonzero : c ≠ 0 := by
    rintro rfl
    simp at hc
  induction ts generalizing us with
  | nil =>
    simp only [addTermTo, nonzero, if_false, Option.some.injEq] at h
    subst h
    exact added free
  | cons t ts ih =>
    obtain ⟨n, d⟩ := t
    obtain ⟨first, rest⟩ := List.forall_mem_cons.1 free
    simp only [addTermTo] at h
    split at h
    · obtain ⟨e, he, h⟩ := Option.bind_eq_some_iff.1 h
      have total := checked_eq_some_iff.1 he
      split at h <;> cases h
      · exact rest
      · have positive : 0 < d.toInt := first.2
        exact List.forall_mem_cons.2 ⟨⟨first.1, show 0 < e.toInt by omega⟩, rest⟩
    · split at h
      · cases h
        exact added free
      · obtain ⟨vs, hv, h⟩ := Option.bind_eq_some_iff.1 h
        cases h
        exact List.forall_mem_cons.2 ⟨first, ih hv rest⟩

theorem addTerm_free {p q : Polynomial} {m : Monomial} {c : Int64} (hm : m ≠ []) (hc : 0 < c.toInt)
    (h : p.addTerm m c = some q) (free : p.Free) : q.Free := by
  obtain ⟨us, hu, rfl⟩ := Option.map_eq_some_iff.1 h
  exact addTermTo_free hm hc hu free

theorem add_free {p q r : Polynomial} (h : p.add q = some r) (hp : p.Free) (hq : q.Free) : r.Free :=
  foldlM_keeps (fun t ht _ _ h => addTerm_free (hq t ht).1 (hq t ht).2 h) h hp

theorem constant_of_pos {k : Int64} (positive : 0 < k.toInt) : constant k = ⟨[([], k)]⟩ := by
  refine if_neg ?_
  rintro rfl
  simp at positive

theorem scale_free {p r : Polynomial} {k : Int64} (positive : 0 < k.toInt)
    (h : p.mul (constant k) = some r) (free : p.Free) : r.Free := by
  rw [constant_of_pos positive] at h
  refine foldlM_keeps (fun t ht q r h => ?_) h (by simp [Free, zero])
  obtain ⟨filled, coefficient⟩ := free t ht
  simp only [List.foldlM_cons, List.foldlM_nil] at h
  obtain ⟨_, h, h'⟩ := Option.bind_eq_some_iff.1 h
  cases h'
  obtain ⟨c, hc, h⟩ := Option.bind_eq_some_iff.1 h
  refine addTerm_free ?_ ?_ h
  · intro empty
    obtain ⟨a, ha⟩ := List.exists_mem_of_ne_nil _ filled
    have : a ∈ t.1.mul [] := Monomial.mem_mul.2 (.inl ha)
    rw [empty] at this
    cases this
  · rw [checked_eq_some_iff.1 hc]
    exact Int.mul_pos coefficient positive

theorem atom_free (name : String) : (atom name).Free := by simp [Free, atom]

theorem free_ofTerm {s : Term} (h : s.Core) {p : Polynomial} (hp : ofTerm s = some p) : p.Free := by
  induction h generalizing p with
  | var name =>
    cases hp
    exact atom_free name
  | load address =>
    obtain ⟨q, _, hp⟩ := Option.bind_eq_some_iff.1 hp
    cases hp
    exact atom_free _
  | add _ _ ihl ihr =>
    obtain ⟨pl, hl, hp⟩ := Option.bind_eq_some_iff.1 hp
    obtain ⟨pr, hr, hp⟩ := Option.bind_eq_some_iff.1 hp
    exact add_free hp (ihl hl) (ihr hr)
  | mul _ more ih =>
    obtain ⟨pl, hl, hp⟩ := Option.bind_eq_some_iff.1 hp
    obtain ⟨pr, hr, hp⟩ := Option.bind_eq_some_iff.1 hp
    cases hr
    exact scale_free (by omega) hp (ih hl)
  | round address =>
    obtain ⟨pl, hl, hp⟩ := Option.bind_eq_some_iff.1 hp
    obtain ⟨pr, hr, hp⟩ := Option.bind_eq_some_iff.1 hp
    cases hr
    -- a load and 31 make no constant, so the shift to the right is an atom
    have shifted : ∃ name, pl = atom name := by
      obtain ⟨ps, hs, hl⟩ := Option.bind_eq_some_iff.1 hl
      obtain ⟨pc, hc, hl⟩ := Option.bind_eq_some_iff.1 hl
      cases hc
      obtain ⟨pa, ha, hs⟩ := Option.bind_eq_some_iff.1 hs
      obtain ⟨pb, hb, hs⟩ := Option.bind_eq_some_iff.1 hs
      obtain ⟨q, _, ha⟩ := Option.bind_eq_some_iff.1 ha
      cases ha
      cases hb
      have filled : (atom ("calldataload(" ++ q.text ++ ")")).add (constant 31) =
          some ⟨[([], 31), (["calldataload(" ++ q.text ++ ")"], 1)]⟩ := rfl
      replace hs : (atom ("calldataload(" ++ q.text ++ ")")).add (constant 31) = some ps := hs
      rw [filled] at hs
      cases hs
      cases hl
      exact ⟨_, rfl⟩
    obtain ⟨name, rfl⟩ := shifted
    exact scale_free (by decide) (show (atom name).mul (constant 32) = some p from hp) (atom_free name)

def raised (c : Int64) (ts : List (Monomial × Int64)) : List (Monomial × Int64) :=
  if c = 0 then ts else ([], c) :: ts

theorem addTermTo_constant {c : Int64} {ts : List (Monomial × Int64)} (free : Free ⟨ts⟩) :
    addTermTo [] c ts = some (raised c ts) := by
  cases ts with
  | nil => rfl
  | cons t ts =>
    obtain ⟨n, d⟩ := t
    have filled : n ≠ [] := (free _ List.mem_cons_self).1
    have first : ([] : Monomial) < n := by
      cases n with
      | nil => exact absurd rfl filled
      | cons a n => exact List.nil_lt_cons a n
    rw [addTermTo, if_neg filled.symm, if_pos first]
    rfl

/-- Subtracting a part without constant from itself leaves the constant before it. -/
theorem Free.sub_self (before : List (Monomial × Int64)) {ts : List (Monomial × Int64)}
    (constant_ : ∀ t ∈ before, t.1 = []) (free : Free ⟨ts⟩) :
    ts.foldlM (fun (acc : Polynomial) t => do
      acc.addTerm t.1 (← checked (-t.2.toInt))) ⟨before ++ ts⟩ = some ⟨before⟩ := by
  apply Polynomial.sub_self before
  · intro t ht least
    have positive := (free t ht).2
    rw [least] at positive
    exact absurd positive (by decide)
  · intro t ht b hb
    rw [constant_ b hb]
    exact ⟨(free t ht).1, List.not_lt_nil t.1⟩

end Polynomial

namespace Term
open Calldata.Polynomial
variable {x y t : Term}

def Known (t : Term) : Prop := ∀ s, t.split.1 = some s → ∃ p, ofTerm s = some p

/-- The polynomial of a tidy term is that of its core and a constant. -/
theorem Tidy.ofTerm (h : t.Tidy) (known : t.Known) : ∃ ts, Free ⟨ts⟩ ∧
    Polynomial.ofTerm t = some ⟨raised t.split.2 ts⟩ ∧
      (∀ s, t.split.1 = some s → Polynomial.ofTerm s = some ⟨ts⟩) ∧ (t.split.1 = none → ts = []) := by
  cases h with
  | @literal c nonneg =>
    refine ⟨[], by simp [Free], ?_, by simp [Term.split], by simp⟩
    show some (Polynomial.constant c) = some ⟨raised c []⟩
    unfold Polynomial.constant raised
    split <;> rfl
  | core core =>
    obtain ⟨p, hp⟩ := known t (by rw [core.split])
    refine ⟨p.terms, free_ofTerm core hp, ?_, ?_, ?_⟩
    · rw [core.split]
      exact hp
    · rw [core.split]
      rintro s ⟨⟩
      exact hp
    · rw [core.split]
      simp
  | @plus s c core positive =>
    obtain ⟨p, hp⟩ := known s rfl
    have free := free_ofTerm core hp
    refine ⟨p.terms, free, ?_, ?_, by simp [Term.split]⟩
    · show (Polynomial.ofTerm s).bind (fun l => (Polynomial.ofTerm (.literal c)).bind fun r => l.add r) = _
      rw [hp, Option.bind_some, show Polynomial.ofTerm (.literal c) = some (Polynomial.constant c) from rfl,
        Option.bind_some, constant_of_pos positive]
      show (List.foldlM _ p [([], c)]) = _
      simp only [List.foldlM_cons, List.foldlM_nil, addTerm, addTermTo_constant free]
      rfl
    · rintro s ⟨⟩
      exact hp

theorem Tidy.distance (hx : x.Tidy) (hy : y.Tidy) (same : x.split.1 = y.split.1) (known : y.Known) :
    ∃ d, x.distance y = some d ∧ d.toInt = x.split.2.toInt - y.split.2.toInt := by
  obtain ⟨ts, free, ex, core, none_⟩ := hx.ofTerm (by rw [Known, same]; exact known)
  obtain ⟨us, _, ey, core', none_'⟩ := hy.ofTerm known
  obtain rfl : ts = us := by
    cases h : y.split.1 with
    | none => rw [none_ (same.trans h), none_' h]
    | some s =>
      have := (core s (same.trans h)).symm.trans (core' s h)
      cases this
      rfl
  obtain ⟨x0, -⟩ := hx.parts
  obtain ⟨y0, -⟩ := hy.parts
  generalize x.split.2 = a at *
  generalize y.split.2 = b at *
  have a_lt := a.toInt_lt
  have b_lt := b.toInt_lt
  obtain ⟨d, hd⟩ := exists_checked_of_bounds (n := a.toInt - b.toInt) (by omega) (by omega)
  have worth := checked_eq_some_iff.1 hd
  -- the constants are subtracted first, and what is left cancels
  have first : (raised b ts).foldlM (fun (acc : Polynomial) t => do
      acc.addTerm t.1 (← checked (-t.2.toInt))) ⟨raised a ts⟩ =
        ts.foldlM (fun (acc : Polynomial) t => do acc.addTerm t.1 (← checked (-t.2.toInt))) ⟨raised d ts⟩ := by
    by_cases zero : b = 0
    · subst zero
      have : d = a := Int64.toInt_inj.1 (by simpa using worth)
      subst this
      simp [raised]
    · obtain ⟨n, hn⟩ := exists_checked_of_bounds (n := -b.toInt) (by omega) (by omega)
      have negative := checked_eq_some_iff.1 hn
      have step : addTermTo [] n (raised a ts) = some (raised d ts) := by
        by_cases nothing : a = 0
        · subst nothing
          have : n = d := Int64.toInt_inj.1 (by simp at worth; omega)
          subst this
          simpa [raised] using addTermTo_constant (c := n) free
        · have total : checked (a.toInt + n.toInt) = some d := by
            rw [negative]
            exact hd
          simp only [raised, nothing, if_false, addTermTo, if_true, total]
          by_cases none_ : d = 0 <;> simp [none_]
      have more : raised b ts = ([], b) :: ts := if_neg zero
      rw [more, List.foldlM_cons]
      show ((checked (-b.toInt)).bind fun c => Option.map mk (addTermTo [] c (raised a ts))).bind _ = _
      rw [hn, Option.bind_some, step]
      rfl
  have cancelled : ts.foldlM (fun (acc : Polynomial) t => do
      acc.addTerm t.1 (← checked (-t.2.toInt))) ⟨raised d ts⟩ = some (Polynomial.constant d) := by
    by_cases none_ : d = 0
    · simpa [raised, none_, Polynomial.constant, zero] using free.sub_self [] (by simp)
    · simpa [raised, none_, Polynomial.constant] using free.sub_self [([], d)] (by simp)
  refine ⟨d, ?_, worth⟩
  show (Polynomial.ofTerm x).bind (fun p => (Polynomial.ofTerm y).bind fun q => (p.sub q).bind asConstant) = _
  rw [ex, Option.bind_some, ey, Option.bind_some, Polynomial.sub, first, cancelled, Option.bind_some]
  unfold Polynomial.constant
  split
  · next zero_ =>
    rw [zero_]
    rfl
  · rfl

theorem Tidy.greater (hx : x.Tidy) (hy : y.Tidy) (same : x.split.1 = y.split.1) (known : y.Known)
    (more : y.split.2.toInt < x.split.2.toInt) : x.greater y = .holds := by
  obtain ⟨d, hd, worth⟩ := hx.distance hy same known
  have positive : 0 < d := by
    rw [Int64.lt_iff_toInt_lt, Int64.toInt_zero]
    omega
  simp [Term.greater, decideBy, hd, positive, Certainty.ofBool]

theorem Tidy.known (h : t.Tidy) {p : Polynomial} (hp : Polynomial.ofTerm t = some p) : t.Known := by
  intro s hs
  cases h with
  | literal => cases hs
  | core core =>
    rw [core.split] at hs
    cases hs
    exact ⟨p, hp⟩
  | plus core _ =>
    cases hs
    obtain ⟨q, hq, _⟩ := Option.bind_eq_some_iff.1 hp
    exact ⟨q, hq⟩

end Term
end Calldata
