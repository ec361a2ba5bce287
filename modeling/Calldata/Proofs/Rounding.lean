import Mathlib.Order.Bounds.Defs
import Calldata.Proofs.Folding

/-!
Rounding up to whole words is exact. The rounded term has a value exactly if 31 more than the value of
the term is still a signed word, and then it is the least multiple of 32 that is not below that value.
Past that limit the least multiple is 2^63, which is no signed word. Neither the sign of the value matters
nor the literal that the term ends in, whether or not the 31 can be gathered with it.
-/
namespace Calldata

namespace Op
variable {l v : Int64}

theorem apply_shr_five_iff : apply .shr l 5 = some v ↔ v.toInt = l.toInt / 32 := by
  rw [apply, if_pos (by decide), checked_eq_some_iff, Int.shiftRight_eq_div_pow]
  rfl

theorem apply_shl_five_iff : apply .shl l 5 = some v ↔ v.toInt = l.toInt * 32 := by
  rw [apply, if_pos (by decide), checked_eq_some_iff, Int.shiftLeft_eq]
  rfl

end Op

namespace Term
variable {env : Env} {t : Term} {n m : Int64}

theorem eval_fold_literal {op : Op} {a c v : Int64} (h : t.eval env = some a) (value : op.apply a c = some v) :
    (fold op t (.literal c)).eval env = some v := by
  have plain : (binary op t (.literal c)).eval env = some v := eval_binary_iff.2 ⟨a, c, h, rfl, value⟩
  rcases eval_fold plain with ⟨w, folded⟩ | ⟨_, lost⟩
  · rw [folded, eq_of_denote (denote_fold op t (.literal c)) folded plain]
  · cases lost.not_literal.2

theorem toInt_of_eval_roundUp (h : t.eval env = some n) (rounded : t.roundUp.eval env = some m) :
    m.toInt = (n.toInt + 31) / 32 * 32 := by
  rw [← denote_env rounded, denote_roundUp, denote_env h]

/-- No step leaves the range once the sum is in it: the quotient is no farther from zero, and its multiple
lies between the value and the sum. -/
theorem exists_eval_roundUp (h : t.eval env = some n) (fits : n.toInt + 31 < 2 ^ 63) :
    ∃ m, t.roundUp.eval env = some m := by
  have low := n.le_toInt
  obtain ⟨s, hs⟩ : ∃ s : Int64, s.toInt = n.toInt + 31 := ⟨_, Int64.toInt_ofInt_of_le (by omega) fits⟩
  obtain ⟨q, hq⟩ : ∃ q : Int64, q.toInt = s.toInt / 32 := ⟨_, Int64.toInt_ofInt_of_le (by omega) (by omega)⟩
  obtain ⟨m, hm⟩ : ∃ m : Int64, m.toInt = q.toInt * 32 := ⟨_, Int64.toInt_ofInt_of_le (by omega) (by omega)⟩
  have sum : (fold .add t (.literal 31)).eval env = some s := eval_fold_literal h (checked_eq_some_iff.2 hs)
  have quotient := eval_fold_literal sum (Op.apply_shr_five_iff.2 hq)
  exact ⟨m, eval_fold_literal quotient (Op.apply_shl_five_iff.2 hm)⟩

end Term

/-- The multiples of the word size at or above `n` start with the sum of `n` and 31, rounded down. -/
theorem isLeast_wordMultiple (n : Int) : IsLeast {k | 32 ∣ k ∧ n ≤ k} ((n + 31) / 32 * 32) := by
  refine ⟨⟨Int.dvd_mul_left _ _, by omega⟩, ?_⟩
  rintro k ⟨⟨j, rfl⟩, above⟩
  omega

/-- Wherever a term has a value, rounding it up gives the least multiple of 32 that is not below, as long as
that value and 31 are a signed word together, and nothing otherwise. -/
theorem roundUp_is_least_multiple (env : Env) (t : Term) (n : Int64) (h : t.eval env = some n) :
    (n.toInt + 31 ≤ Int64.maxValue.toInt →
      ∃ m, t.roundUp.eval env = some m ∧ IsLeast {k : Int | 32 ∣ k ∧ n.toInt ≤ k} m.toInt) ∧
    (Int64.maxValue.toInt < n.toInt + 31 → t.roundUp.eval env = none) := by
  rw [Int64.toInt_maxValue]
  constructor
  · intro fits
    obtain ⟨m, rounded⟩ := Term.exists_eval_roundUp h (by omega)
    refine ⟨m, rounded, ?_⟩
    rw [Term.toInt_of_eval_roundUp h rounded]
    exact isLeast_wordMultiple n.toInt
  · intro past
    cases rounded : t.roundUp.eval env with
    | none => rfl
    | some m =>
      -- 2^63 is itself a multiple of 32, so the least one above the last 31 words would have to be it
      have value := Term.toInt_of_eval_roundUp h rounded
      have high := m.toInt_lt
      omega

open Term in
/-- The last value that can be rounded and the one after it, with literals that are gathered with the 31; a
negative value whose literal the 31 cancels; and a literal to which 31 cannot be added. -/
theorem roundUp_is_least_multiple_limits :
    let env : Env := ⟨fun name => if name = "x" then some (Int64.maxValue - 36) else some (-70), fun _ => none⟩
    let last := binary .add (.var "x") (.literal 5)
    let after := binary .add (.var "x") (.literal 6)
    let cancelled := binary .sub (.var "y") (.literal 31)
    let apart := binary .add (.var "y") (.literal Int64.maxValue)
    (∃ m, last.roundUp.eval env = some m ∧
      IsLeast {k : Int | 32 ∣ k ∧ (Int64.maxValue - 31).toInt ≤ k} m.toInt) ∧
    after.roundUp.eval env = none ∧
    (∃ m, cancelled.roundUp.eval env = some m ∧ IsLeast {k : Int | 32 ∣ k ∧ (-101 : Int64).toInt ≤ k} m.toInt) ∧
    ∃ m, apart.roundUp.eval env = some m ∧
      IsLeast {k : Int | 32 ∣ k ∧ (Int64.maxValue - 70).toInt ≤ k} m.toInt := by
  intro env last after cancelled apart
  exact ⟨(roundUp_is_least_multiple env last (Int64.maxValue - 31) (by decide)).1 (by decide),
    (roundUp_is_least_multiple env after (Int64.maxValue - 30) (by decide)).2 (by decide),
    (roundUp_is_least_multiple env cancelled (-101) (by decide)).1 (by decide),
    (roundUp_is_least_multiple env apart (Int64.maxValue - 70) (by decide)).1 (by decide)⟩

end Calldata
