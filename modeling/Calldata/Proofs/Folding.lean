import Calldata.Proofs.Denote

/-!
What folding does to the value of a term in an environment. The folded term never has another value
than the plain one. It can lose its value in one way only: when the literals of a sum or a difference
of two other terms are gathered at its end, those two terms come to stand alone, and together they
may leave the 64-bit range.
-/
namespace Calldata
namespace Term
variable {env : Env} {l r t : Term} {v : Int64}

theorem eval_binary_iff {op : Op} :
    (binary op l r).eval env = some v ↔
      ∃ a b, l.eval env = some a ∧ r.eval env = some b ∧ op.apply a b = some v := by
  simp only [eval, Option.bind_eq_bind, Option.bind_eq_some_iff]
  constructor
  · rintro ⟨a, ha, b, hb, h⟩
    exact ⟨a, b, ha, hb, h⟩
  · rintro ⟨a, b, ha, hb, h⟩
    exact ⟨a, ha, b, hb, h⟩

/-- The value of a term is that of its first part and its literal together. -/
theorem eval_split {s : Term} (h : t.eval env = some v) (hs : t.split.1 = some s) :
    ∃ a, s.eval env = some a ∧ v.toInt = a.toInt + t.split.2.toInt := by
  unfold split at hs ⊢
  split at hs
  · cases hs
  · cases hs
    obtain ⟨a, b, ha, hb, h⟩ := eval_binary_iff.1 h
    cases hb
    exact ⟨a, ha, checked_eq_some_iff.1 h⟩
  · split at hs
    · cases hs
      exact ⟨v, h, by simp [*]⟩
    · next c opposite =>
      cases hs
      obtain ⟨a, b, ha, hb, h⟩ := eval_binary_iff.1 h
      cases hb
      have value := checked_eq_some_iff.1 h
      refine ⟨a, ha, ?_⟩
      rw [if_neg opposite, toInt_neg_of_ne_min opposite]
      omega
  · cases hs
    exact ⟨v, h, by simp⟩

theorem eq_literal_of_split (h : t.split.1 = none) : t = .literal t.split.2 := by
  unfold split at h ⊢
  split at h
  · rfl
  · cases h
  · split at h <;> cases h
  · cases h

theorem eval_of_split_none (h : t.eval env = some v) (hs : t.split.1 = none) : t.split.2 = v := by
  rw [eq_literal_of_split hs] at h
  exact Option.some.inj h

theorem eval_plus {a c : Int64} (h : t.eval env = some a) (total : v.toInt = a.toInt + c.toInt) :
    (t.plus c).eval env = some v := by
  unfold plus
  split
  · next zero =>
    rw [zero, Int64.toInt_zero, Int.add_zero] at total
    rw [h, Int64.toInt_inj.1 total]
  · split
    · next negative =>
      refine eval_binary_iff.2 ⟨a, -c, h, rfl, checked_eq_some_iff.2 ?_⟩
      rw [toInt_neg_of_ne_min negative.2]
      omega
    · exact eval_binary_iff.2 ⟨a, c, h, rfl, checked_eq_some_iff.2 total⟩

/-- Both operands are more than a literal, and what they are without their literals has values that
`op` cannot put together. -/
def Overflows (env : Env) (op : Op) (l r : Term) : Prop :=
  ∃ x y a b, l.split.1 = some x ∧ r.split.1 = some y ∧ x.eval env = some a ∧ y.eval env = some b ∧
    op.apply a b = none

theorem Overflows.not_literal {op : Op} (h : Overflows env op l r) :
    l.asLiteral = none ∧ r.asLiteral = none := by
  obtain ⟨x, y, _, _, hx, hy, _⟩ := h
  constructor
  · cases l <;> simp_all [split, asLiteral]
  · cases r <;> simp_all [split, asLiteral]

theorem eval_regrouped {op : Op} {x y : Term} {a b c : Int64} (hx : l.split.1 = some x)
    (hy : r.split.1 = some y) (ha : x.eval env = some a) (hb : y.eval env = some b)
    (total : ∀ w, op.apply a b = some w → v.toInt = w.toInt + c.toInt) :
    (∃ w, ((binary op x y).plus c).eval env = some w) ∨ Overflows env op l r := by
  cases together : op.apply a b with
  | none => exact .inr ⟨x, y, a, b, hx, hy, ha, hb, together⟩
  | some w =>
    have pair := eval_binary_iff.2 ⟨a, b, ha, hb, together⟩
    exact .inl ⟨v, eval_plus pair (total w together)⟩

theorem eval_sum (h : (binary .add l r).eval env = some v) :
    (∃ w, (sum l r).eval env = some w) ∨ Overflows env .add l r := by
  obtain ⟨a, b, ha, hb, value⟩ := eval_binary_iff.1 h
  have value := checked_eq_some_iff.1 value
  unfold sum
  split
  · exact .inl ⟨v, h⟩
  · next c hc =>
    have total := checked_eq_some_iff.1 hc
    cases hl : l.split.1 with
    | none =>
      cases hr : r.split.1 with
      | none => exact .inl ⟨c, rfl⟩
      | some y =>
        obtain ⟨b', hy, right⟩ := eval_split hb hr
        have left := eval_of_split_none ha hl
        subst left
        exact .inl ⟨v, eval_plus hy (by omega)⟩
    | some x =>
      obtain ⟨a', hx, left⟩ := eval_split ha hl
      cases hr : r.split.1 with
      | none =>
        have right := eval_of_split_none hb hr
        subst right
        exact .inl ⟨v, eval_plus hx (by omega)⟩
      | some y =>
        obtain ⟨b', hy, right⟩ := eval_split hb hr
        apply eval_regrouped (v := v) hl hr hx hy
        intro w hw
        have := checked_eq_some_iff.1 hw
        omega

theorem eval_difference (h : (binary .sub l r).eval env = some v) :
    (∃ w, (difference l r).eval env = some w) ∨ Overflows env .sub l r := by
  obtain ⟨a, b, ha, hb, value⟩ := eval_binary_iff.1 h
  have value := checked_eq_some_iff.1 value
  unfold difference
  split
  · exact .inl ⟨0, rfl⟩
  · split
    · exact .inl ⟨v, h⟩
    · next c hc =>
      have total := checked_eq_some_iff.1 hc
      cases hl : l.split.1 with
      | none =>
        cases hr : r.split.1 with
        | none => exact .inl ⟨c, rfl⟩
        | some y =>
          obtain ⟨b', hy, right⟩ := eval_split hb hr
          have left := eval_of_split_none ha hl
          subst left
          have rest : v.toInt = c.toInt - b'.toInt := by omega
          exact .inl ⟨v, eval_binary_iff.2 ⟨c, b', rfl, hy, checked_eq_some_iff.2 rest⟩⟩
      | some x =>
        obtain ⟨a', hx, left⟩ := eval_split ha hl
        cases hr : r.split.1 with
        | none =>
          have right := eval_of_split_none hb hr
          subst right
          exact .inl ⟨v, eval_plus hx (by omega)⟩
        | some y =>
          obtain ⟨b', hy, right⟩ := eval_split hb hr
          show (∃ w, (if x = y then literal c else (binary .sub x y).plus c).eval env = some w) ∨ _
          split
          · exact .inl ⟨c, rfl⟩
          · apply eval_regrouped (v := v) hl hr hx hy
            intro w hw
            have := checked_eq_some_iff.1 hw
            omega

theorem eval_product (h : (binary .mul l r).eval env = some v) :
    ∃ w, (product l r).eval env = some w := by
  obtain ⟨a, b, ha, hb, value⟩ := eval_binary_iff.1 h
  unfold product
  split
  · split
    · exact ⟨_, rfl⟩
    · exact ⟨v, h⟩
  · split
    · exact ⟨0, rfl⟩
    · split
      · exact ⟨b, hb⟩
      · refine ⟨v, eval_binary_iff.2 ⟨b, a, hb, ha, ?_⟩⟩
        simpa [Op.apply, Int.mul_comm] using value
  · split
    · exact ⟨0, rfl⟩
    · split
      · exact ⟨a, ha⟩
      · exact ⟨v, h⟩
  · exact ⟨v, h⟩

/-- What one literal decides is an operand, a zero or the plain node. -/
theorem absorb_cases (op : Op) (l r : Term) :
    absorb op l r = l ∨ absorb op l r = r ∨ absorb op l r = .literal 0 ∨
      absorb op l r = .binary op l r := by
  unfold absorb
  grind

theorem eval_absorb {op : Op} (h : (binary op l r).eval env = some v) :
    ∃ w, (absorb op l r).eval env = some w := by
  obtain ⟨a, b, ha, hb, _⟩ := eval_binary_iff.1 h
  rcases absorb_cases op l r with eq | eq | eq | eq <;> rw [eq]
  · exact ⟨a, ha⟩
  · exact ⟨b, hb⟩
  · exact ⟨0, rfl⟩
  · exact ⟨v, h⟩

/-- A folded term has a value where the plain one does, unless a sum or a difference overflows. -/
theorem eval_fold {op : Op} (h : (binary op l r).eval env = some v) :
    (∃ w, (fold op l r).eval env = some w) ∨ (op = .add ∨ op = .sub) ∧ Overflows env op l r := by
  unfold fold
  split
  · exact (eval_sum h).imp_right fun lost => ⟨.inl rfl, lost⟩
  · exact (eval_difference h).imp_right fun lost => ⟨.inr rfl, lost⟩
  · exact .inl (eval_product h)
  · left
    split
    · next a b _ _ =>
      cases op.apply a b with
      | none => exact eval_absorb h
      | some c => exact ⟨c, rfl⟩
    · exact eval_absorb h

theorem eq_of_denote {s : Term} {w : Int64}
    (same : s.denote env.names env.words = t.denote env.names env.words)
    (hs : s.eval env = some v) (ht : t.eval env = some w) : v = w := by
  rw [denote_env hs, denote_env ht] at same
  exact Int64.toInt_inj.1 same

end Term

open Term

/-- Folding never changes a value, and a term with a literal operand keeps it. Where a value is lost, the
operands of a sum or a difference were put together without their literals. Building a whole term again
changes no value either. -/
theorem folding_keeps_value (env : Env) :
    (∀ op l r v w, (binary op l r).eval env = some v → (fold op l r).eval env = some w → v = w) ∧
      (∀ op l r v, (binary op l r).eval env = some v → l.asLiteral.isSome ∨ r.asLiteral.isSome →
        (fold op l r).eval env = some v) ∧
      (∀ op l r v, (binary op l r).eval env = some v → (fold op l r).eval env = none →
        (op = .add ∨ op = .sub) ∧ Overflows env op l r) ∧
      ∀ (t : Term) v w, t.eval env = some v → (t.mapLoads id).eval env = some w → v = w := by
  have kept (op : Op) (l r : Term) (v w : Int64) (h : (binary op l r).eval env = some v)
      (h' : (fold op l r).eval env = some w) : v = w := eq_of_denote (by simp) h h'
  refine ⟨kept, ?_, ?_, ?_⟩
  · intro op l r v h literal
    rcases eval_fold h with ⟨w, hw⟩ | ⟨_, lost⟩
    · rw [hw, kept op l r v w h hw]
    · obtain ⟨left, right⟩ := lost.not_literal
      simp [left, right] at literal
  · intro op l r v h none
    rcases eval_fold h with ⟨w, hw⟩ | lost
    · rw [hw] at none
      cases none
    · exact lost
  · intro t v w h h'
    have same : (t.mapLoads id).denote env.names env.words = t.denote env.names env.words :=
      denote_mapLoads id id (fun _ => rfl) t
    exact eq_of_denote same.symm h h'

/-- The largest word less five, and three more: the sum of the two names alone does not fit. Their
difference does, and so does the sum with a literal three. -/
theorem folding_keeps_value_overflow :
    let l := binary .sub (.var "x") (.literal 5)
    let r := binary .add (.var "y") (.literal 1)
    let env : Env := ⟨fun n => if n = "x" then some Int64.maxValue else some 2, fun _ => none⟩
    ((binary .add l r).eval env = some (Int64.maxValue - 2) ∧ (fold .add l r).eval env = none ∧
      Overflows env .add l r) ∧
      (∃ v w, (binary .sub l r).eval env = some v ∧ (fold .sub l r).eval env = some w ∧ v = w) ∧
        (fold .add l (.literal 3)).eval env = some (Int64.maxValue - 2) ∧
          ∃ v w, (binary .sub l r).eval env = some v ∧ ((binary .sub l r).mapLoads id).eval env = some w ∧ v = w := by
  intro l r env
  obtain ⟨kept, literal, lost, rebuilt⟩ := folding_keeps_value env
  have sum : (binary .add l r).eval env = some (Int64.maxValue - 2) := by decide
  have none : (fold .add l r).eval env = none := by decide
  have value : (binary .sub l r).eval env = some (Int64.maxValue - 8) := by decide
  have folded : (fold .sub l r).eval env = some (Int64.maxValue - 8) := by decide
  have again : ((binary .sub l r).mapLoads id).eval env = some (Int64.maxValue - 8) := by decide
  exact ⟨⟨sum, none, (lost .add l r _ sum none).2⟩, ⟨_, _, value, folded, kept .sub l r _ _ value folded⟩,
    literal .add l (.literal 3) _ (by decide) (.inr rfl), _, _, value, again, rebuilt _ _ _ value again⟩

end Calldata
