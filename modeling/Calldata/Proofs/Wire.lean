import Calldata.Machine.Run
import Calldata.Proofs.Denote

/-!
Byte strings without end. Calldata and memory both read as zero where nothing was written, so each
is a function from places to bytes. A value that starts further on is read from the dropped wire.
-/
namespace Calldata

/-- A byte at every place. -/
abbrev Wire := Int → UInt8

namespace Wire

def ofBytes (b : ByteArray) : Wire := fun i => if 0 ≤ i then b.data[i.toNat]?.getD 0 else 0

def drop (w : Wire) (start : Int) : Wire := fun i => w (start + i)

/-- The number that `length` bytes spell, most significant first. -/
def number (w : Wire) (start : Int) : Nat → Nat
  | 0 => 0
  | length + 1 => number w start length * 256 + (w (start + length)).toNat

def word (w : Wire) (start : Int) : Int := number w start 32

theorem drop_drop (w : Wire) (a b : Int) : (w.drop a).drop b = w.drop (a + b) := by
  funext i
  simp [drop, Int.add_assoc]

@[simp] theorem drop_zero (w : Wire) : w.drop 0 = w := by
  funext i
  simp [drop]

theorem number_drop (w : Wire) (a b : Int) (length : Nat) :
    number (w.drop a) b length = number w (a + b) length := by
  induction length with
  | zero => rfl
  | succ n ih => simp only [number, ih, drop, Int.add_assoc]

@[simp] theorem word_drop (w : Wire) (a b : Int) : (w.drop a).word b = w.word (a + b) := by
  simp only [word, number_drop]

theorem word_nonneg (w : Wire) (a : Int) : 0 ≤ w.word a := Int.natCast_nonneg _

theorem number_congr {w u : Wire} {a b : Int} {length : Nat}
    (same : ∀ k : Nat, k < length → w (a + k) = u (b + k)) :
    number w a length = number u b length := by
  induction length with
  | zero => rfl
  | succ n ih => rw [number, number, ih fun k hk => same k (by omega), same n (by omega)]

theorem word_congr {w u : Wire} {a b : Int} (same : ∀ k : Nat, k < 32 → w (a + k) = u (b + k)) :
    w.word a = u.word b := by
  rw [word, word, number_congr same]

theorem number_lt (w : Wire) (a : Int) (length : Nat) : number w a length < 256 ^ length := by
  induction length with
  | zero => simp [number]
  | succ n ih =>
    have := (w (a + n)).toNat_lt
    rw [number, Nat.pow_succ]
    omega

theorem ofBytes_natCast (b : ByteArray) (i : Nat) : ofBytes b i = b.data[i]?.getD 0 := by
  simp [ofBytes]

end Wire

namespace Bytes

def digit (n : Nat) (place : Nat) : UInt8 := UInt8.ofNat (n >>> (8 * (31 - place)))

theorem data_zeros (n : Nat) : (zeros n).data = Array.replicate n 0 := rfl

theorem size_window (b : ByteArray) (start length : Nat) : (window b start length).size = length := by
  unfold window
  simp only
  split
  · simp [← ByteArray.size_data, data_zeros]
    omega
  · simp [← ByteArray.size_data, data_zeros]

theorem byte_window (b : ByteArray) (start length k : Nat) (inside : k < length) :
    (window b start length).data[k]?.getD 0 = b.data[start + k]?.getD 0 := by
  unfold window
  simp only
  split
  · next found =>
    simp only [ByteArray.data_append, ByteArray.data_extract, data_zeros, Array.getElem?_append,
      Array.getElem?_extract, Array.getElem?_replicate, Array.size_extract]
    simp only [← ByteArray.size_data] at found
    grind
  · next missing =>
    simp only [← ByteArray.size_data] at missing
    have none_there : b.data[start + k]? = none := Array.getElem?_eq_none (by omega)
    simp [none_there, data_zeros, inside]

theorem byte_grown (b : ByteArray) (size k : Nat) :
    (grown b size).data[k]?.getD 0 = b.data[k]?.getD 0 := by
  simp only [grown, ByteArray.data_append, data_zeros, Array.getElem?_append,
    Array.getElem?_replicate]
  grind

theorem byte_overwritten {b part : ByteArray} {start : Nat} (room : start + part.size ≤ b.size)
    (k : Nat) :
    (overwritten b start part).data[k]?.getD 0 =
      if start ≤ k ∧ k < start + part.size then part.data[k - start]?.getD 0
      else b.data[k]?.getD 0 := by
  simp only [← ByteArray.size_data] at room ⊢
  simp only [overwritten, ByteArray.copySlice, Array.getElem?_append, Array.getElem?_extract,
    Array.size_append, Array.size_extract, ← ByteArray.size_data]
  grind

theorem size_word (n : Nat) : (word n).size = 32 := by simp [word, ← ByteArray.size_data]

theorem byte_word (n k : Nat) (inside : k < 32) : (word n).data[k]?.getD 0 = digit n k := by
  simp [word, digit, inside]

theorem bigEndian_window (b : ByteArray) (start length : Nat) :
    bigEndian (window b start length) = Wire.number (Wire.ofBytes b) start length := by
  have spelled (n : Nat) (hn : n ≤ length) :
      ((window b start length).data.toList.take n).foldl (fun n byte => n * 256 + byte.toNat) 0 =
        Wire.number (Wire.ofBytes b) start n := by
    induction n with
    | zero => rfl
    | succ n ih =>
      have size := size_window b start length
      rw [← ByteArray.size_data] at size
      have last := byte_window b start length n (by omega)
      rw [List.take_add_one, List.foldl_append, ih (by omega), Wire.number, ← Int.natCast_add,
        Wire.ofBytes_natCast, ← last]
      simp [size, show n < length by omega]
  have whole := spelled length (Nat.le_refl _)
  have size := size_window b start length
  rw [← ByteArray.size_data] at size
  rwa [List.take_of_length_le (by simp [size]), Array.foldl_toList] at whole

theorem digit_number (w : Wire) (a : Int) {k : Nat} (hk : k < 32) :
    digit (w.number a 32) k = w (a + k) := by
  have shifted (length j : Nat) (hj : j < length) :
      (w.number a length / 256 ^ (length - 1 - j)) % 256 = (w (a + j)).toNat := by
    induction length with
    | zero => omega
    | succ n ih =>
      have small := (w (a + n)).toNat_lt
      rw [Wire.number]
      by_cases last : j = n
      · subst last
        simp
      · have e : n + 1 - 1 - j = (n - 1 - j) + 1 := by omega
        rw [e, Nat.pow_succ', ← Nat.div_div_eq_div_mul]
        rw [show (w.number a n * 256 + (w (a + n)).toNat) / 256 = w.number a n by omega]
        exact ih (by omega)
  apply UInt8.toNat_inj.1
  rw [digit, UInt8.toNat_ofNat', Nat.shiftRight_eq_div_pow, ← shifted 32 k hk,
    show 8 * (31 - k) = 8 * (32 - 1 - k) by omega, Nat.pow_mul]

theorem number_digit (w : Wire) (a : Int) {n : Nat} (small : n < 256 ^ 32)
    (spelled : ∀ k : Nat, k < 32 → w (a + k) = digit n k) : w.number a 32 = n := by
  have first (length : Nat) (hl : length ≤ 32) : w.number a length = n / 256 ^ (32 - length) := by
    induction length with
    | zero => rw [Wire.number, Nat.sub_zero, Nat.div_eq_of_lt small]
    | succ m ih =>
      have e : 32 - m = (32 - (m + 1)) + 1 := by omega
      rw [Wire.number, ih (by omega), spelled m (by omega), digit, UInt8.toNat_ofNat',
        Nat.shiftRight_eq_div_pow, show 8 * (31 - m) = 8 * (32 - (m + 1)) by omega, Nat.pow_mul, e,
        Nat.pow_succ, ← Nat.div_div_eq_div_mul]
      have := Nat.div_add_mod (n / 256 ^ (32 - (m + 1))) 256
      simp only [show (2 : Nat) ^ 8 = 256 from rfl]
      omega
  simpa using first 32 (Nat.le_refl _)

end Bytes

namespace Wire

def patched (w : Wire) (start length : Int) (part : Wire) : Wire :=
  fun i => if start ≤ i ∧ i < start + length then part (i - start) else w i

def digits (n : Nat) : Wire := fun i => Bytes.digit n i.toNat

theorem ofBytes_window (b : ByteArray) (start length : Nat) {i : Int} (h : 0 ≤ i) (hi : i < length) :
    ofBytes (Bytes.window b start length) i = ofBytes b (start + i) := by
  obtain ⟨i, rfl⟩ := Int.eq_ofNat_of_zero_le h
  rw [ofBytes_natCast, ← Int.natCast_add, ofBytes_natCast]
  exact Bytes.byte_window b start length i (by omega)

theorem ofBytes_write (s : RunState) (dst : Nat) (part : ByteArray) :
    ofBytes (Machine.write s dst part).memory =
      (ofBytes s.memory).patched dst part.size (ofBytes part) := by
  funext i
  unfold patched
  by_cases h : 0 ≤ i
  · obtain ⟨i, rfl⟩ := Int.eq_ofNat_of_zero_le h
    have room : dst + part.size ≤ (Bytes.grown s.memory (dst + part.size)).size := by
      simp [Bytes.grown, Bytes.zeros, ← ByteArray.size_data]
      omega
    rw [ofBytes_natCast, Machine.write, Bytes.byte_overwritten room, Bytes.byte_grown]
    by_cases inside : dst ≤ i ∧ i < dst + part.size
    · rw [if_pos inside, if_pos (by omega), show (i : Int) - dst = ((i - dst : Nat) : Int) by omega,
        ofBytes_natCast]
    · rw [if_neg inside, if_neg (by omega), ofBytes_natCast]
  · rw [if_neg (by omega)]
    simp [ofBytes, h]

end Wire

@[ext] structure Memory where
  wire : Wire
  size : Int

namespace Memory

def ofBytes (b : ByteArray) : Memory := ⟨Wire.ofBytes b, b.size⟩

def patched (memory : Memory) (start length : Int) (part : Wire) : Memory :=
  ⟨memory.wire.patched start length part, max memory.size (start + length)⟩

theorem ofBytes_write (s : RunState) (dst : Nat) (part : ByteArray) :
    ofBytes (Machine.write s dst part).memory =
      (ofBytes s.memory).patched dst part.size (Wire.ofBytes part) := by
  apply Memory.ext (Wire.ofBytes_write s dst part)
  show ((Machine.write s dst part).memory.size : Int) = max (s.memory.size : Int) (dst + part.size)
  simp only [Machine.write, Bytes.overwritten, Bytes.grown, Bytes.zeros, ByteArray.copySlice,
    ← ByteArray.size_data, ByteArray.data_append, Array.size_append, Array.size_extract,
    Array.size_replicate]
  omega

theorem ofBytes_inj {a b : ByteArray} (h : ofBytes a = ofBytes b) : a = b := by
  have size : a.size = b.size := Int.ofNat.inj (congrArg Memory.size h)
  have wire : Wire.ofBytes a = Wire.ofBytes b := congrArg Memory.wire h
  rw [← ByteArray.size_data, ← ByteArray.size_data] at size
  apply ByteArray.ext
  apply Array.ext size
  intro i ha hb
  have byte := congrFun wire i
  rwa [Wire.ofBytes_natCast, Wire.ofBytes_natCast, Array.getElem?_eq_getElem ha,
    Array.getElem?_eq_getElem hb] at byte

end Memory
end Calldata
