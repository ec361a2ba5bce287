/-!
Checked arithmetic on signed 64-bit words. An operation is carried out on integers and gives a
word only when the integer fits, so every law of the integers is available wherever a result exists.
-/
namespace Calldata

/-- The word that stands for an integer, if there is one. -/
def checked (n : Int) : Option Int64 :=
  if Int64.minValue.toInt ≤ n ∧ n ≤ Int64.maxValue.toInt then some (Int64.ofInt n) else none

/-- The word nearest to a count: counts that do not fit become the largest word. -/
def saturated (n : Nat) : Int64 := (checked n).getD Int64.maxValue

theorem checked_eq_some_iff {n : Int} {v : Int64} : checked n = some v ↔ v.toInt = n := by
  unfold checked
  constructor
  · intro h
    split at h
    · next fits =>
      cases h
      simp only [Int64.toInt_minValue, Int64.toInt_maxValue] at fits
      exact Int64.toInt_ofInt_of_le fits.1 (by omega)
    · cases h
  · rintro rfl
    rw [if_pos ⟨v.minValue_le_toInt, v.toInt_le⟩, Int64.ofInt_toInt]

@[simp] theorem checked_toInt (v : Int64) : checked v.toInt = some v :=
  checked_eq_some_iff.2 rfl

theorem checked_eq_none_iff {n : Int} :
    checked n = none ↔ n < Int64.minValue.toInt ∨ Int64.maxValue.toInt < n := by
  unfold checked
  split
  · next fits => simp only [reduceCtorEq, false_iff]; omega
  · next out => simp only [true_iff]; omega

end Calldata
