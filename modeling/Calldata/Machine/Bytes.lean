/-!
Byte strings that read as zero past their end.
-/
namespace Calldata
namespace Bytes

def zeros (n : Nat) : ByteArray := ⟨Array.replicate n 0⟩

/-- `length` bytes from `start`, zero where there are none. -/
def window (b : ByteArray) (start length : Nat) : ByteArray :=
  let part := if start < b.size then b.extract start (start + length) else .empty
  part ++ zeros (length - part.size)

/-- At least `size` bytes. -/
def grown (b : ByteArray) (size : Nat) : ByteArray := b ++ zeros (size - b.size)

/-- Replaces the bytes from `start` on by those of `part`. -/
def overwritten (b : ByteArray) (start : Nat) (part : ByteArray) : ByteArray :=
  part.copySlice 0 b start part.size

/-- The number that the bytes spell, most significant first. -/
def bigEndian (b : ByteArray) : Nat :=
  b.data.foldl (fun n byte => n * 256 + byte.toNat) 0

/-- The 32 bytes of a number, most significant first. -/
def word (n : Nat) : ByteArray :=
  ⟨((List.range 32).map fun i => UInt8.ofNat (n >>> (8 * (31 - i)))).toArray⟩

end Bytes
end Calldata
