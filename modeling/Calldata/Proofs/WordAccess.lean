import Calldata.Proofs.Hosting
import Calldata.Proofs.WordReading

/-!
What is read is what stands there. A calldata word has a value exactly if the number its bytes spell is a
signed word, wherever it starts, also past the end of calldata and at the last addresses; a memory word has
one exactly if its number has 64 bits. A pointer that was written is read as the value it was written with.
-/
namespace Calldata

namespace Bytes

/-- The number that the 32 bytes from `start` on spell, where bytes past the end are zero: each byte counts
by its place, the first one most. -/
def spelled (b : ByteArray) (start : Nat) : Nat :=
  ∑ k ∈ Finset.range 32, (b.data[start + k]?.getD 0).toNat * 256 ^ (31 - k)

theorem number_ofBytes (b : ByteArray) (start : Nat) : (Wire.ofBytes b).number start 32 = spelled b start := by
  rw [Wire.number_eq_sum]
  refine Finset.sum_congr rfl fun k _ => ?_
  rw [← Nat.cast_add, Wire.ofBytes_natCast]

theorem spelled_write (s : RunState) (dst : Nat) {n : Nat} (small : n < 256 ^ 32) :
    spelled (Machine.write s dst (word n)).memory dst = n := by
  rw [← number_ofBytes]
  refine number_digit _ _ small fun k hk => ?_
  have inside : (dst : Int) ≤ dst + k ∧ (dst : Int) + k < dst + (word n).size := by
    rw [size_word]
    omega
  rw [Wire.ofBytes_write, Wire.patched, if_pos inside, add_sub_cancel_left, Wire.ofBytes_natCast, byte_word n k hk]

end Bytes

namespace Machine
variable {m : Machine} {start : Nat}

theorem exists_word?_iff (room : m.calldata.size < 2 ^ 64 ∨ start + 32 ≤ 2 ^ 64) :
    (∃ v, m.word? start = some v) ↔ Bytes.spelled m.calldata start < 2 ^ 63 := by
  rw [word?_eq room, Bytes.number_ofBytes, ← Option.ne_none_iff_exists', ne_eq, checked_eq_none_iff,
    Int64.toInt_minValue, Int64.toInt_maxValue]
  omega

theorem toInt_word? (room : m.calldata.size < 2 ^ 64 ∨ start + 32 ≤ 2 ^ 64) {v : Int64}
    (h : m.word? start = some v) : v.toInt = Bytes.spelled m.calldata start := by
  rw [word?_eq room, Bytes.number_ofBytes] at h
  exact checked_eq_some_iff.1 h

end Machine

namespace Image

theorem wordValue_eq_spelled (i : Image) (offset : Nat) :
    i.wordValue offset =
      if Bytes.spelled i.bytes offset < 2 ^ 64 then some (Bytes.spelled i.bytes offset) else none := by
  rw [wordValue_eq_number, Bytes.number_ofBytes]
  rfl

theorem wordValue_eq_none_iff {i : Image} {offset : Nat} :
    i.wordValue offset = none ↔ 2 ^ 64 ≤ Bytes.spelled i.bytes offset := by
  rw [wordValue_eq_spelled, ite_eq_right_iff, ← Nat.not_lt]
  exact ⟨fun never fits => Option.some_ne_none _ (never fits), fun large fits => absurd fits large⟩

theorem eq_spelled_of_wordValue {i : Image} {offset n : Nat} (h : i.wordValue offset = some n) :
    n = Bytes.spelled i.bytes offset := by
  rw [wordValue_eq_spelled, Option.ite_none_right_eq_some] at h
  exact (Option.some.inj h.2).symm

end Image

namespace Host
variable {α β : Type} {m : Machine} {s t : Store}

theorem bind_of_ok {x : Job α} {a : α} (h : x s = .ok a t) (k : α → Job β) : (x >>= k) s = k a t := by
  show EStateM.bind x k s = k a t
  rw [EStateM.bind, h]

def Store.HasRoom (s : Store) (length : Nat) : Prop :=
  length ≤ capacity ∧ (s.block < length → grownBlock s.block length ≤ capacity)

theorem enlarge_ok {length : Nat} (room : s.HasRoom length) :
    ∃ t, enlarge length s = .ok () t ∧ t.state = s.state := by
  rw [enlarge, get_bind]
  by_cases short : s.block < length
  · rw [if_pos short, note_bind, if_neg (Nat.not_lt.2 (room.2 short))]
    exact ⟨_, rfl, rfl⟩
  · rw [if_neg short]
    exact ⟨_, rfl, rfl⟩

theorem resize_ok {length : Nat} (room : s.HasRoom length) :
    ∃ t, resize length s = .ok () t ∧ t.state = ⟨s.bindings, Bytes.grown s.memory length⟩ := by
  rw [resize, note_bind, get_bind]
  by_cases short : s.memory.size < length
  · obtain ⟨t, enlarged, same⟩ := enlarge_ok (s := { s with accesses := .needed length :: s.accesses }) room
    obtain ⟨names, memory⟩ := RunState.mk.inj same
    rw [if_pos short, bind_of_ok enlarged]
    refine ⟨_, rfl, ?_⟩
    show RunState.mk t.bindings (Bytes.grown t.memory length) = _
    rw [names, memory]
  · rw [if_neg short, Bytes.grown_of_le (Nat.le_of_not_lt short)]
    exact ⟨_, rfl, rfl⟩

theorem place_fillSlot {dst value : Nat} (within : dst + 32 ≤ m.limit) (room : s.HasRoom (dst + 32))
    (small : value < 2 ^ 64) :
    ∃ t, place m dst 32 (fillSlot value) s = .ok () t ∧ t.state = Machine.write s.state dst (Bytes.word value) := by
  have below : dst + 32 < 2 ^ 64 := Nat.lt_of_le_of_lt room.1 (by decide)
  have uncut : capped (dst + 32) = dst + 32 := Nat.min_eq_left (by omega)
  have allowed : evaluate (fun _ => m.require (dst + 32)) s = .ok () s := by
    rw [evaluate_eq, Machine.require, if_neg (Nat.not_lt.2 within)]
  have grows := resize_ok (s :=
    ⟨s.bindings, s.memory, s.block, .converted (dst + 32 : Nat) (dst + 32 : Nat) :: s.accesses⟩) room
  obtain ⟨t, grown, reached⟩ := grows
  obtain ⟨names, memory⟩ := RunState.mk.inj reached
  have long : dst + 32 ≤ t.memory.size := by
    rw [memory, Bytes.size_grown]
    exact Nat.le_max_right _ _
  simp only [place, reserve, uncut, bind_assoc, pure_bind]
  rw [bind_of_ok allowed, address_bind below, bind_of_ok grown, address_bind (by omega), get_bind, note_bind,
    inside_bind ⟨Nat.le_add_right _ _, long⟩, Nat.add_sub_cancel_left, fillSlot, note_bind, inside_bind (by decide),
    Bytes.zeros_append_eightBytes small]
  refine ⟨_, rfl, ?_⟩
  show RunState.mk t.bindings (Bytes.overwritten t.memory dst (Bytes.word value)) = _
  rw [names, memory, Machine.write, Bytes.size_word]
  rfl

end Host

/-- A calldata word has a value exactly if it spells a number below 2^63, and that number is the value; only
past the last address, where no calldata has bytes, could this fail, and a signed word starts no word there.
A memory word has none exactly if it spells 2^64 or more, and else the number. A count of 64 bits that is
written as a pointer, whatever memory held, is what is read there. -/
theorem word_access_exact :
    (∀ (m : Machine) (start : Nat), m.calldata.size < 2 ^ 64 ∨ start + 32 ≤ 2 ^ 64 →
      ((∃ v, m.word? start = some v) ↔ Bytes.spelled m.calldata start < 2 ^ 63) ∧
      ∀ v, m.word? start = some v → v.toInt = Bytes.spelled m.calldata start) ∧
    (∀ (i : Image) (offset : Nat),
      (i.wordValue offset = none ↔ 2 ^ 64 ≤ Bytes.spelled i.bytes offset) ∧
      ∀ n, i.wordValue offset = some n → n = Bytes.spelled i.bytes offset) ∧
    ∀ (m : Machine) (s : Host.Store) (dst : Nat) (value : UInt64),
      dst + 32 ≤ m.limit → s.HasRoom (dst + 32) →
      ∃ t, Host.place m dst 32 (Host.fillSlot value.toNat) s = .ok () t ∧
        ∀ size calldataSize, Image.wordValue ⟨t.memory, size, calldataSize⟩ dst = some value.toNat := by
  refine ⟨fun m start room => ⟨Machine.exists_word?_iff room, fun v => Machine.toInt_word? room⟩,
    fun i offset => ⟨Image.wordValue_eq_none_iff, fun n => Image.eq_spelled_of_wordValue⟩, ?_⟩
  intro m s dst value within room
  have small : value.toNat < 2 ^ 64 := value.toNat_lt
  obtain ⟨t, placed, written⟩ := Host.place_fillSlot (s := s) within room small
  refine ⟨t, placed, fun size calldataSize => ?_⟩
  have memory : t.memory = (Machine.write s.state dst (Bytes.word value.toNat)).memory :=
    congrArg RunState.memory written
  rw [Image.wordValue_eq_spelled, memory, Bytes.spelled_write _ _ (by omega), if_pos small]

/-- A word with a last byte of the data in front is too large, in calldata and in memory; at the last address
there is a word; and the largest count is written over bytes that are all set. -/
theorem word_access_exact_edges :
    (¬ ∃ v, Machine.word? ⟨⟨#[0, 7]⟩, 0⟩ 1 = some v) ∧
    (∃ v, Machine.word? ⟨⟨#[0, 7]⟩, 0⟩ (2 ^ 64 - 1) = some v) ∧
    Image.wordValue ⟨⟨#[0, 7]⟩, 0, none⟩ 1 = none ∧
    ∃ t, Host.place ⟨.empty, 100⟩ 5 32 (Host.fillSlot (0xFFFFFFFFFFFFFFFF : UInt64).toNat)
        ⟨.empty, ⟨Array.replicate 20 255⟩, 20, []⟩ = .ok () t ∧
      Image.wordValue ⟨t.memory, 0, none⟩ 5 = some 0xFFFFFFFFFFFFFFFF := by
  obtain ⟨loads, values, pointers⟩ := word_access_exact
  have large : Bytes.spelled ⟨#[0, 7]⟩ 1 = 7 * 256 ^ 31 := by decide +kernel
  have none_left : Bytes.spelled ⟨#[0, 7]⟩ (2 ^ 64 - 1) = 0 := by decide +kernel
  refine ⟨fun found => ?_, ?_, ?_, ?_⟩
  · have fits := (loads ⟨⟨#[0, 7]⟩, 0⟩ 1 (.inl (by decide))).1.1 found
    rw [large] at fits
    revert fits
    decide
  · refine (loads ⟨⟨#[0, 7]⟩, 0⟩ (2 ^ 64 - 1) (.inl (by decide))).1.2 ?_
    rw [none_left]
    decide
  · refine (values ⟨⟨#[0, 7]⟩, 0, none⟩ 1).1.2 ?_
    rw [large]
    decide
  · obtain ⟨t, placed, read⟩ := pointers ⟨.empty, 100⟩ ⟨.empty, ⟨Array.replicate 20 255⟩, 20, []⟩ 5 0xFFFFFFFFFFFFFFFF
      (by decide) ⟨by decide, fun _ => by decide⟩
    exact ⟨t, placed, read 0 none⟩

end Calldata
