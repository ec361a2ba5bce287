import Calldata.Proofs.Wire
import Mathlib.Algebra.BigOperators.Ring.Finset

/-!
Words of 32 bytes as numbers. Calldata words are read byte by byte, and the reader gives up at the first
step that leaves the signed words; numbers only grow from step to step, so it gives up exactly if the whole
is too large. Memory words are read from their last eight bytes once the others are seen to be zero.
-/
namespace Calldata

namespace Wire
variable {w : Wire} {a : Int} {n : Nat}

theorem number_eq_sum (w : Wire) (a : Int) (n : Nat) :
    w.number a n = ∑ k ∈ Finset.range n, (w (a + k)).toNat * 256 ^ (n - 1 - k) := by
  induction n with
  | zero => rfl
  | succ n ih =>
    have shifted : ∑ k ∈ Finset.range n, (w (a + k)).toNat * 256 ^ (n - 1 - k) * 256 =
        ∑ k ∈ Finset.range n, (w (a + k)).toNat * 256 ^ (n + 1 - 1 - k) := by
      refine Finset.sum_congr rfl fun k hk => ?_
      have := Finset.mem_range.1 hk
      rw [Nat.mul_assoc, ← Nat.pow_succ, Nat.succ_eq_add_one, show n - 1 - k + 1 = n + 1 - 1 - k by omega]
    rw [number, ih, Finset.sum_range_succ, Finset.sum_mul, shifted, Nat.add_sub_cancel, Nat.sub_self, Nat.pow_zero,
      Nat.mul_one]

theorem number_append (w : Wire) (a : Int) (n k : Nat) :
    w.number a (n + k) = w.number a n * 256 ^ k + w.number (a + n) k := by
  induction k with
  | zero => simp [number]
  | succ k ih =>
    rw [← Nat.add_assoc, number, ih, number, Nat.pow_succ, Nat.add_mul, Nat.mul_assoc, Nat.add_assoc,
      Nat.cast_add, Int.add_assoc]

theorem number_eq_zero_iff : w.number a n = 0 ↔ ∀ k : Nat, k < n → w (a + k) = 0 := by
  induction n with
  | zero => simp [number]
  | succ n ih =>
    have last : (w (a + n)).toNat = 0 ↔ w (a + n) = 0 := UInt8.toNat_inj (b := 0)
    rw [number, Nat.add_eq_zero_iff, Nat.mul_eq_zero, last, ih]
    simp only [show ¬ (256 : Nat) = 0 by decide, or_false, Nat.forall_lt_succ_right]

end Wire

namespace Bytes

theorem extract_window (b : ByteArray) (start : Nat) {length i j : Nat} (le : i ≤ j) (inside : j ≤ length) :
    (window b start length).extract i j = window b (start + i) (j - i) := by
  have sizes : ((window b start length).extract i j).data.size = (window b (start + i) (j - i)).data.size := by
    have whole := size_window b start length
    have part := size_window b (start + i) (j - i)
    rw [ByteArray.size_data, ByteArray.size_data, ByteArray.size_extract, whole, part]
    omega
  apply ByteArray.ext
  apply Array.ext sizes
  intro k here there
  have short : k < j - i := by rwa [ByteArray.size_data, size_window] at there
  have found := byte_window b start length (i + k) (by omega)
  have again := byte_window b (start + i) (j - i) k short
  rw [Array.getElem?_eq_getElem there, Option.getD_some, Nat.add_assoc] at again
  have size := size_window b start length
  rw [← ByteArray.size_data] at size
  rw [Array.getElem?_eq_getElem (by omega), Option.getD_some] at found
  simp only [ByteArray.data_extract, Array.getElem_extract]
  exact found.trans again.symm

theorem any_window_iff (b : ByteArray) (start length : Nat) :
    (window b start length).data.any (· != 0) = true ↔ (Wire.ofBytes b).number start length ≠ 0 := by
  have size := size_window b start length
  rw [← ByteArray.size_data] at size
  have byte (k : Nat) (hk : k < (window b start length).data.size) :
      (window b start length).data[k] = Wire.ofBytes b (start + k) := by
    have found := byte_window b start length k (by omega)
    rwa [Array.getElem?_eq_getElem hk, Option.getD_some, ← Wire.ofBytes_natCast, Nat.cast_add] at found
  rw [Array.any_eq_true, ne_eq, Wire.number_eq_zero_iff]
  push Not
  constructor
  · rintro ⟨k, hk, other⟩
    rw [byte k hk] at other
    exact ⟨k, by omega, by simpa using other⟩
  · rintro ⟨k, hk, other⟩
    refine ⟨k, by omega, ?_⟩
    rw [byte k (by omega)]
    simpa using other

end Bytes

namespace Machine
variable {m : Machine} {start : Nat}

/-- An overflow on the way is an overflow at the end, since the last byte only adds to the number. -/
theorem withByte_eq {v : Int64} (nonneg : 0 ≤ v.toInt) (b : UInt8) :
    withByte v b = checked (v.toInt * 256 + b.toNat) := by
  rw [withByte]
  cases shifted : checked (v.toInt * 256) with
  | some u =>
    rw [← checked_eq_some_iff.1 shifted]
    rfl
  | none =>
    have large := checked_eq_none_iff.1 shifted
    have low : Int64.minValue.toInt ≤ v.toInt := v.minValue_le_toInt
    symm
    refine checked_eq_none_iff.2 (.inr ?_)
    rw [Int64.toInt_minValue] at large low
    omega

/-- Staying at the last address reads the zero that stands past the end. -/
theorem byte_capped (room : m.calldata.size < 2 ^ 64 ∨ start + 32 ≤ 2 ^ 64) {i : Nat} (hi : i < 32) :
    m.byte (capped (start + i)) = Wire.ofBytes m.calldata (start + i) := by
  rw [← Nat.cast_add, Wire.ofBytes_natCast, byte]
  by_cases cut : start + i ≤ 0xFFFFFFFFFFFFFFFF
  · rw [capped, Nat.min_eq_left cut]
  · have short : m.calldata.data.size < 2 ^ 64 := room.resolve_right (by omega)
    rw [capped, Nat.min_eq_right (by omega), Array.getElem?_eq_none (by omega), Array.getElem?_eq_none (by omega)]

/-- The bytes read so far give the number they spell, or it is too large, and stays so. -/
theorem foldlM_withByte (room : m.calldata.size < 2 ^ 64 ∨ start + 32 ≤ 2 ^ 64) {n : Nat} (hn : n ≤ 32) :
    (List.range n).foldlM (fun v i => withByte v (m.byte (capped (start + i)))) 0 =
      checked ((Wire.ofBytes m.calldata).number start n) := by
  induction n with
  | zero => rfl
  | succ n ih =>
    rw [List.range_succ, List.foldlM_append, ih (by omega), Wire.number]
    cases read : checked ((Wire.ofBytes m.calldata).number start n) with
    | some v =>
      have value := checked_eq_some_iff.1 read
      rw [Option.bind_eq_bind, Option.bind_some, List.foldlM_cons, withByte_eq (by omega), byte_capped room hn, value]
      simp only [List.foldlM_nil, bind_pure]
      norm_cast
    | none =>
      have large := checked_eq_none_iff.1 read
      symm
      refine checked_eq_none_iff.2 (.inr ?_)
      rw [Int64.toInt_minValue] at large
      omega

theorem word?_eq (room : m.calldata.size < 2 ^ 64 ∨ start + 32 ≤ 2 ^ 64) :
    m.word? start = checked ((Wire.ofBytes m.calldata).number start 32) :=
  foldlM_withByte room (Nat.le_refl _)

end Machine

namespace Image

/-- The first bytes of a word are zero exactly if the last eight spell all of it. -/
theorem wordValue_eq_number (i : Image) (address : Nat) :
    i.wordValue address = if (Wire.ofBytes i.bytes).number address 32 < UInt64.size
      then some ((Wire.ofBytes i.bytes).number address 32) else none := by
  have first : (i.word address).extract 0 24 = Bytes.window i.bytes address 24 :=
    Bytes.extract_window i.bytes address (by decide) (by decide)
  have last : (i.word address).extract 24 32 = Bytes.window i.bytes (address + 24) 8 :=
    Bytes.extract_window i.bytes address (by decide) (by decide)
  have whole := Wire.number_append (Wire.ofBytes i.bytes) address 24 8
  have low := Wire.number_lt (Wire.ofBytes i.bytes) (address + (24 : Nat)) 8
  have bound : UInt64.size = 256 ^ 8 := rfl
  simp only [wordValue]
  rw [first, last, Bytes.bigEndian_window, whole, bound]
  by_cases zero : (Wire.ofBytes i.bytes).number address 24 = 0
  · rw [if_neg (by rw [Bytes.any_window_iff]; exact not_not.2 zero), zero, Nat.zero_mul, Nat.zero_add, if_pos low,
      Nat.cast_add]
  · have := Nat.pos_of_ne_zero zero
    rw [if_pos ((Bytes.any_window_iff _ _ _).2 zero), if_neg (by omega)]

end Image
end Calldata
