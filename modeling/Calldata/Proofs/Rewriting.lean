import Mathlib.Algebra.Ring.Pi
import Calldata.Proofs.NormalForm

/-!
The polynomial of a term does not depend on how the term is written. Terms that the laws of
commutative rings lead from one to the other, at any depth and by any number of steps, have the same
polynomial wherever both have one, even where the terms between them have none. For this every term
gets a form: its value over the integers, as a function of what its atoms are worth. A form never
overflows, and a polynomial in normal form is known by it.
-/
namespace Calldata

abbrev Form := (String → Int) → Int

namespace Polynomial
variable {p q r : Polynomial} {op : Op}

def form (p : Polynomial) : Form := fun α => p.value α

theorem Normal.form_inj (hp : p.Normal) (hq : q.Normal) (same : p.form = q.form) : p = q :=
  hp.eq_of_value hq fun α => congrFun same α

theorem form_constant (c : Int64) : (constant c).form = fun _ => c.toInt :=
  funext fun _ => value_constant c

theorem form_atom (name : String) : (atom name).form = fun α => α name :=
  funext fun _ => value_atom name

open Classical in
/-- The polynomial of a form. There is none if a coefficient of the form is no word. -/
noncomputable def ofForm (f : Form) : Option Polynomial :=
  if h : ∃ p : Polynomial, p.Normal ∧ p.form = f then some h.choose else none

theorem Normal.ofForm_form (h : p.Normal) : ofForm p.form = some p := by
  have found : ∃ q : Polynomial, q.Normal ∧ q.form = p.form := ⟨p, h, rfl⟩
  rw [ofForm, dif_pos found]
  exact congrArg some (found.choose_spec.1.form_inj h found.choose_spec.2)

theorem ofForm_constant (c : Int64) : ofForm (fun _ => c.toInt) = some (constant c) := by
  rw [← form_constant]
  exact (normal_constant c).ofForm_form

theorem asConstant_constant (c : Int64) : (constant c).asConstant = some c := by
  unfold constant
  split
  · next zero => rw [zero]; rfl
  · rfl

theorem normal_ofOperator (h : ofOperator op p q = some r) : r.Normal := by
  unfold ofOperator at h
  split at h
  · obtain ⟨v, _, rfl⟩ := Option.map_eq_some_iff.1 h
    exact normal_constant v
  · cases h
    exact normal_atom _

end Polynomial

namespace Form
open Calldata.Polynomial

/-- What is read at an address depends on how its polynomial is written. -/
noncomputable def load (f : Form) : Form := ((ofForm f).map fun p => (atom p.loadText).form).getD 0

noncomputable def operator (op : Op) (f g : Form) : Form :=
  ((ofForm f).bind fun p => (ofForm g).bind fun q => (ofOperator op p q).map form).getD 0

noncomputable def factor (g : Form) : Option Int64 := ((ofForm g).bind asConstant).bind (Op.shl.apply 1)

noncomputable def shiftLeft (f g : Form) : Form :=
  match factor g with
  | some k => fun α => f α * k.toInt
  | none => operator .shl f g

noncomputable def apply : Op → Form → Form → Form
  | .add, f, g => f + g
  | .sub, f, g => f - g
  | .mul, f, g => f * g
  | .shl, f, g => shiftLeft f g
  | op, f, g => operator op f g

theorem operator_form {op : Op} {p q r : Polynomial} (hp : p.Normal) (hq : q.Normal)
    (h : ofOperator op p q = some r) : operator op p.form q.form = r.form := by
  simp [operator, hp.ofForm_form, hq.ofForm_form, h]

end Form

namespace Term
open Calldata.Polynomial

noncomputable def form : Term → Form
  | .literal value => fun _ => value.toInt
  | .var name => fun α => α name
  | .load address => Form.load address.form
  | .binary op left right => Form.apply op left.form right.form

theorem form_of_ofTerm {t : Term} {p : Polynomial} (h : ofTerm t = some p) : p.Normal ∧ p.form = t.form := by
  induction t generalizing p with
  | literal v =>
    cases h
    exact ⟨normal_constant v, form_constant v⟩
  | var n =>
    cases h
    exact ⟨normal_atom n, form_atom n⟩
  | load a ih =>
    obtain ⟨q, hq, h⟩ := Option.bind_eq_some_iff.1 h
    cases h
    obtain ⟨normal, same⟩ := ih hq
    refine ⟨normal_atom _, ?_⟩
    rw [form, ← same, Form.load, normal.ofForm_form]
    rfl
  | binary op l r ihl ihr =>
    obtain ⟨pl, hl, h⟩ := Option.bind_eq_some_iff.1 h
    obtain ⟨pr, hr, h⟩ := Option.bind_eq_some_iff.1 h
    obtain ⟨normall, samel⟩ := ihl hl
    obtain ⟨normalr, samer⟩ := ihr hr
    rw [form, ← samel, ← samer]
    cases op with
    | add => exact ⟨normall.add normalr h, funext fun α => (add_spec (Q := fun _ => True) h).1⟩
    | sub => exact ⟨normall.sub normalr h, funext fun α => (sub_spec (Q := fun _ => True) h).1⟩
    | mul => exact ⟨normalr.mul h, funext fun α => (mul_spec (Q := fun _ => True) h).1⟩
    | shl =>
      replace h : pl.shiftLeft pr = some p := h
      rw [Form.apply, Form.shiftLeft, Form.factor, normalr.ofForm_form, Option.bind_some]
      unfold Polynomial.shiftLeft at h
      cases hk : pr.asConstant.bind (Op.shl.apply 1) with
      | some k =>
        rw [hk] at h
        refine ⟨(normal_constant k).mul h, funext fun α => ?_⟩
        rw [Polynomial.form, (mul_spec (α := α) (Q := fun _ => True) h).1, value_constant]
        rfl
      | none =>
        rw [hk] at h
        exact ⟨normal_ofOperator h, (Form.operator_form normall normalr h).symm⟩
    | _ => exact ⟨normal_ofOperator h, (Form.operator_form normall normalr h).symm⟩

/-- A law of commutative rings, or of literals, for whole terms. -/
inductive Law : Term → Term → Prop
  | add_comm (x y : Term) : Law (.binary .add x y) (.binary .add y x)
  | add_assoc (x y z : Term) :
      Law (.binary .add (.binary .add x y) z) (.binary .add x (.binary .add y z))
  | mul_comm (x y : Term) : Law (.binary .mul x y) (.binary .mul y x)
  | mul_assoc (x y z : Term) :
      Law (.binary .mul (.binary .mul x y) z) (.binary .mul x (.binary .mul y z))
  | distrib (x y z : Term) :
      Law (.binary .mul x (.binary .add y z)) (.binary .add (.binary .mul x y) (.binary .mul x z))
  | add_zero (x : Term) : Law (.binary .add x (.literal 0)) x
  | mul_one (x : Term) : Law (.binary .mul x (.literal 1)) x
  | mul_zero (x : Term) : Law (.binary .mul x (.literal 0)) (.literal 0)
  | sub_eq (x y : Term) :
      Law (.binary .sub x y) (.binary .add x (.binary .mul (.literal (-1)) y))
  | literals {op : Op} {a b c : Int64} (value : op.apply a b = some c) :
      Law (.binary op (.literal a) (.literal b)) (.literal c)
  | shift (x : Term) {k factor : Int64} (low : 0 ≤ k.toInt) (high : k.toInt ≤ 62)
      (power : factor.toInt = 2 ^ k.toInt.toNat) :
      Law (.binary .shl x (.literal k)) (.binary .mul x (.literal factor))

/-- Laws applied any number of times, in both directions and anywhere in a term. -/
inductive Rewrites : Term → Term → Prop
  | law {a b : Term} (law : Law a b) : Rewrites a b
  | refl (a : Term) : Rewrites a a
  | symm {a b : Term} (back : Rewrites a b) : Rewrites b a
  | trans {a b c : Term} (first : Rewrites a b) (second : Rewrites b c) : Rewrites a c
  | load {a b : Term} (address : Rewrites a b) : Rewrites (.load a) (.load b)
  | binary (op : Op) {a b c d : Term} (left : Rewrites a c) (right : Rewrites b d) :
      Rewrites (.binary op a b) (.binary op c d)

theorem operator_literals {op : Op} {a b c : Int64} (h : op.apply a b = some c) :
    Form.operator op (literal a).form (literal b).form = (literal c).form := by
  have constants : ofOperator op (constant a) (constant b) = some (constant c) := by
    simp [ofOperator, asConstant_constant, h]
  have value := Form.operator_form (normal_constant a) (normal_constant b) constants
  rw [form_constant, form_constant, form_constant] at value
  exact value

theorem factor_literal (k : Int64) : Form.factor (literal k).form = Op.shl.apply 1 k := by
  rw [form, Form.factor, ofForm_constant, Option.bind_some, asConstant_constant]
  rfl

theorem apply_literals {op : Op} {a b c : Int64} (h : op.apply a b = some c) :
    Form.apply op (literal a).form (literal b).form = (literal c).form := by
  have value := Op.denote_of_apply h
  cases op with
  | add | sub | mul => exact funext fun _ => value
  | shl =>
    rw [Form.apply, Form.shiftLeft, factor_literal]
    cases power : Op.shl.apply 1 b with
    | none => exact operator_literals h
    | some k =>
      have factor := Op.denote_of_apply power
      simp only [Op.denote, Int.shiftLeft_eq, Int64.toInt_one, Int.one_mul] at factor value
      funext α
      show a.toInt * k.toInt = c.toInt
      rw [← factor, value]
  | _ => exact operator_literals h

theorem Law.form_eq {a b : Term} (h : Law a b) : a.form = b.form := by
  cases h with
  | add_comm x y => exact funext fun α => Int.add_comm (x.form α) (y.form α)
  | add_assoc x y z => exact funext fun α => Int.add_assoc (x.form α) (y.form α) (z.form α)
  | mul_comm x y => exact funext fun α => Int.mul_comm (x.form α) (y.form α)
  | mul_assoc x y z => exact funext fun α => Int.mul_assoc (x.form α) (y.form α) (z.form α)
  | distrib x y z => exact funext fun α => Int.mul_add (x.form α) (y.form α) (z.form α)
  | add_zero x => exact funext fun α => Int.add_zero (b.form α)
  | mul_one x => exact funext fun α => Int.mul_one (b.form α)
  | mul_zero x => exact funext fun α => Int.mul_zero (x.form α)
  | sub_eq x y =>
    funext α
    show x.form α - y.form α = x.form α + -1 * y.form α
    ring
  | literals value => exact apply_literals value
  | @shift x k factor low high power =>
    have shifted : Op.shl.apply 1 k = some factor := by
      rw [Op.apply, if_pos ⟨low, by omega⟩, checked_eq_some_iff, power]
      simp [Int.shiftLeft_eq]
    show Form.shiftLeft x.form (literal k).form = _
    rw [Form.shiftLeft, factor_literal, shifted]
    rfl

theorem Rewrites.form_eq {a b : Term} (h : Rewrites a b) : a.form = b.form := by
  induction h with
  | law law => exact law.form_eq
  | refl a => rfl
  | symm _ ih => exact ih.symm
  | trans _ _ ih ih' => exact ih.trans ih'
  | load _ ih => exact congrArg Form.load ih
  | binary op _ _ ih ih' => exact congrArg₂ (Form.apply op) ih ih'

end Term

namespace Polynomial

theorem foldlM_eq_none {β : Type} {step : Polynomial → β → Option Polynomial} {bs : List β} {b : β}
    (mem : b ∈ bs) (fails : ∀ p, step p b = none) (p : Polynomial) : bs.foldlM step p = none := by
  induction bs generalizing p with
  | nil => cases mem
  | cons c bs ih =>
    rw [List.foldlM_cons]
    rcases List.mem_cons.1 mem with rfl | later
    · rw [fails p]
      rfl
    · cases step p c with
      | none => rfl
      | some q => exact ih later q

/-- A polynomial can be subtracted from itself unless one of its coefficients has no opposite. -/
theorem sub_self_eq (p : Polynomial) :
    (p.sub p = some zero ∧ ∀ t ∈ p.terms, t.2 ≠ Int64.minValue) ∨
      (p.sub p = none ∧ ∃ t ∈ p.terms, t.2 = Int64.minValue) := by
  by_cases least : ∃ t ∈ p.terms, t.2 = Int64.minValue
  · refine .inr ⟨?_, least⟩
    obtain ⟨t, ht, least⟩ := least
    apply foldlM_eq_none ht
    intro q
    rw [least]
    rfl
  · have opposites : ∀ t ∈ p.terms, t.2 ≠ Int64.minValue := fun t ht h => least ⟨t, ht, h⟩
    exact .inl ⟨sub_self [] opposites (by simp), opposites⟩

end Polynomial

open Calldata.Polynomial in
/-- Terms that are rewritten into each other have one polynomial, and comparing them finds them the
same, unless a coefficient has no opposite. -/
theorem polynomial_of_rewrites {a b : Term} (h : a.Rewrites b) {p q : Polynomial}
    (hp : ofTerm a = some p) (hq : ofTerm b = some q) :
    p = q ∧ p.text = q.text ∧
      (a.same b = .holds ↔ ∀ t ∈ p.terms, t.2 ≠ Int64.minValue) := by
  obtain ⟨normal, form⟩ := Term.form_of_ofTerm hp
  obtain ⟨normal', form'⟩ := Term.form_of_ofTerm hq
  obtain rfl : p = q := normal.form_inj normal' (by rw [form, form', h.form_eq])
  refine ⟨rfl, rfl, ?_⟩
  have distance : a.distance b = (p.sub p).bind asConstant := by
    simp only [Term.distance, hp, hq]
    rfl
  rcases sub_self_eq p with ⟨cancelled, opposites⟩ | ⟨refused, t, ht, least⟩
  · have answer : a.same b = .holds := by
      unfold Term.same Term.decideBy
      rw [distance, cancelled]
      rfl
    exact ⟨fun _ => opposites, fun _ => answer⟩
  · have answer : a.same b = .unknown := by
      unfold Term.same Term.decideBy
      rw [distance, refused]
      rfl
    constructor
    · intro holds
      rw [answer] at holds
      cases holds
    · intro opposites
      exact absurd least (opposites t ht)

/-- Laws inside an address and inside a divisor. -/
theorem polynomial_of_rewrites_quotient :
    let x := Term.var "x"
    let n := Term.var "n"
    let a := Term.binary .div (.load (.binary .shl (.binary .add x (.literal 32)) (.literal 1)))
      (.binary .shl n (.literal 3))
    let b := Term.binary .div (.load (.binary .add (.binary .mul x (.literal 2)) (.literal 64)))
      (.binary .mul n (.literal 8))
    let p := Polynomial.atom "(1*calldataload(64 + 2*x) / 8*n)"
    a.Rewrites b ∧ Polynomial.ofTerm a = some p ∧ Polynomial.ofTerm b = some p ∧ a.same b = .holds := by
  intro x n a b p
  have address : (Term.binary .shl (.binary .add x (.literal 32)) (.literal 1)).Rewrites
      (.binary .add (.binary .mul x (.literal 2)) (.literal 64)) :=
    .trans (.law (.shift _ (by decide) (by decide) (by decide)))
      (.trans (.law (.mul_comm _ _))
        (.trans (.law (.distrib _ _ _))
          (.binary .add (.law (.mul_comm _ _)) (.law (.literals (by decide))))))
  have divisor : (Term.binary .shl n (.literal 3)).Rewrites (.binary .mul n (.literal 8)) :=
    .law (.shift _ (by decide) (by decide) (by decide))
  have rewrites : a.Rewrites b := .binary .div (.load address) divisor
  have first : Polynomial.ofTerm a = some p := by decide +kernel
  have second : Polynomial.ofTerm b = some p := by decide +kernel
  exact ⟨rewrites, first, second, (polynomial_of_rewrites rewrites first second).2.2.2 (by decide)⟩

end Calldata
