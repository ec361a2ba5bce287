import Calldata.Machine.Run

/-!
Running a plan in the memory of a host with addresses of 64 bits. The memory of a run lies in one block
of bytes, and a host has no blocks of more than half its addresses. A block that is too short is given up
for one of twice the size or more. Counts of 64 bits are taken for addresses and for signed words without
a check; parts of memory are taken by their two ends; the word of a pointer is cleared and its last bytes
filled in. Where the host cannot go on there is a fault, which is none of the errors of a run. A run keeps
account of what it converted, which parts it took, which blocks it asked for, and how long memory was.
-/
namespace Calldata

/-- What a host stops at. -/
inductive Fault where
  /-- A block of more bytes than the host can have. -/
  | capacity
  /-- A part that ends before it starts, or behind its block. -/
  | range
  /-- Bytes for a part of another length. -/
  | length
  deriving DecidableEq, Repr

/-- How a run ends without a result. -/
inductive Halt where
  | error (cause : RunError)
  | fault (cause : Fault)
  deriving DecidableEq, Repr

namespace Host

/-- The number of addresses, which have 64 bits, and the longest block. -/
def addresses : Nat := 0x10000000000000000
def capacity : Nat := 0x7FFFFFFFFFFFFFFF

/-- The block that follows one of `block` bytes when there must be room for `length`. -/
def grownBlock (block length : Nat) : Nat := max 8 (max (2 * block) length)

inductive Access where
  /-- A number was taken for one of another type. -/
  | converted (before after : Int)
  /-- The offsets in a part of the given length were taken for counts. -/
  | offsets (length : Nat)
  /-- A part was taken from memory of the given length. -/
  | part (start stop length : Nat)
  /-- A pointer was written to a part of the given length. -/
  | slot (length : Nat)
  /-- Memory must have the given length at least. -/
  | needed (length : Nat)
  /-- A block of the given size was asked for. -/
  | block (size : Nat)
  /-- Memory was changed and has the given length. -/
  | sized (length : Nat)
  deriving DecidableEq, Repr

structure Store where
  bindings : Bindings
  memory : ByteArray
  /-- The size of the block that memory lies in. -/
  block : Nat
  /-- The last one first. -/
  accesses : List Access

def Store.empty : Store := ⟨.empty, .empty, 0, []⟩

def Store.state (s : Store) : RunState := ⟨s.bindings, s.memory⟩

abbrev Job := EStateM Halt Store

def note (x : Access) : Job Unit := modify fun s => { s with accesses := x :: s.accesses }

def ofExcept : Except RunError α → Job α
  | .ok a => return a
  | .error e => throw (.error e)

/-- A step that only reads. -/
def evaluate (value : Bindings → Except RunError α) : Job α := do ofExcept (value (← get).bindings)

/-- A step that only changes the values of names. -/
def rename (step : RunState → Except RunError RunState) : Job Unit := do
  let next ← ofExcept (step (← get).state)
  modify fun s => { s with bindings := next.bindings }

/-- The address that a count is taken for. -/
def address (n : Nat) : Job Nat := do
  note (.converted n (n % addresses : Nat))
  return n % addresses

/-- The signed word that a count is taken for. -/
def signed (n : Nat) : Job Int64 := do
  note (.converted n (Int64.ofNat n).toInt)
  return Int64.ofNat n

/-- A block with room for `length` bytes. -/
def enlarge (length : Nat) : Job Unit := do
  let held := (← get).block
  if held < length then
    note (.block (grownBlock held length))
    if capacity < grownBlock held length then throw (.fault .capacity)
    modify fun s => { s with block := grownBlock held length }

/-- Memory of the length given, unless it is longer. -/
def resize (length : Nat) : Job Unit := do
  note (.needed length)
  if (← get).memory.size < length then
    enlarge length
    modify fun s => { s with memory := Bytes.grown s.memory length }
    note (.sized length)

/-- Memory up to the end of a part, and that end as an address. -/
def reserve (m : Machine) (dst size : Nat) : Job Nat := do
  let stop := capped (dst + size)
  evaluate fun _ => m.require stop
  let stop ← address stop
  resize stop
  return stop

def inside (start stop length : Nat) : Job Unit :=
  if start ≤ stop ∧ stop ≤ length then return () else throw (.fault .range)

def store (start : Nat) (bytes : ByteArray) : Job Unit := do
  modify fun s => { s with memory := Bytes.overwritten s.memory start bytes }
  note (.sized (← get).memory.size)

/-- Takes `size` bytes of memory from `dst` on, and fills that part, given by its start and its length. -/
def place (m : Machine) (dst size : Nat) (fill : Nat → Nat → Job Unit) : Job Unit := do
  let stop ← reserve m dst size
  let start ← address dst
  let length := (← get).memory.size
  note (.part start stop length)
  inside start stop length
  fill start (stop - start)

/-- Puts the bytes of calldata from `src` on into a part, one by one. -/
def fillBytes (m : Machine) (src start length : Nat) : Job Unit := do
  note (.offsets length)
  store start ⟨Array.ofFn fun i : Fin length => m.byte (capped (src + i % addresses))⟩

def copy (m : Machine) (c : Copy) : Job Unit := do
  let dst ← evaluate (m.address · c.dst)
  let src ← evaluate (m.address · c.src)
  let size ← evaluate (m.address · c.size)
  place m dst size (fillBytes m src)

/-- The eight bytes of a count, most significant first. -/
def eightBytes (n : Nat) : ByteArray :=
  ⟨((List.range 8).map fun i => UInt8.ofNat (n >>> (8 * (7 - i)))).toArray⟩

/-- Clears a part and puts a count into its bytes from the 24th on. -/
def fillSlot (value start length : Nat) : Job Unit := do
  note (.slot length)
  inside 24 length length
  if length - 24 ≠ 8 then throw (.fault .length)
  store start (Bytes.zeros 24 ++ eightBytes value)

def point (m : Machine) (p : Pointer) : Job Unit := do
  let dst ← evaluate (m.address · p.dst)
  let value ← evaluate (m.address · p.value)
  place m dst 32 (fillSlot value)

def advance (m : Machine) (cursors : List Cursor) : Job Unit := do
  let steps ← evaluate fun b => cursors.mapM fun c => m.value b c.step
  (cursors.zip steps).forM fun move => rename (Machine.advanceOne · move)

/-- `round index` for `count` indices from `index` on. -/
def rounds (round : Nat → Job Unit) : Nat → Nat → Job Unit
  | 0, _ => return ()
  | count + 1, index => do
    round index
    rounds round count (index + 1)

mutual

def execute (m : Machine) : Plan → Job Unit
  | ⟨pointers, copies, loops, checks, _, _⟩ => do
    let (late, early) := checks.partition (Machine.mentions (Plan.cursorNames loops))
    evaluate (m.check · early)
    executeLoops m loops
    evaluate (m.check · late)
    copies.forM (copy m)
    pointers.forM (point m)

def executeLoops (m : Machine) : List Loop → Job Unit
  | [] => return ()
  | ⟨_, index, count, cursors, body⟩ :: rest => do
    let count ← evaluate (m.address · count)
    evaluate fun _ => m.require (capped (count * wordSize))
    cursors.forM fun c => rename (m.start · c)
    rounds (fun i => do
      let i ← signed i
      rename fun s => .ok { s with bindings := s.bindings.set index i }
      execute m body
      advance m cursors) count 0
    executeLoops m rest

end

def image (m : Machine) (p : Plan) : Job Image := do
  execute m p
  let size ← evaluate (m.address · p.memorySize)
  let calldataSize ← evaluate fun b => p.calldataSize.mapM (m.address b)
  return ⟨(← get).memory, size, calldataSize⟩

/-- How a run ends and what it did, the last first. -/
def report : EStateM.Result Halt Store Image → Except Halt Image × List Access
  | .ok i s => (.ok i, s.accesses)
  | .error halt s => (.error halt, s.accesses)

/-- Runs a plan whose value starts at `calldataBase`, with its body at `memoryBase`. -/
def run (m : Machine) (p : Plan) (calldataBase memoryBase : Int64) : Except Halt Image × List Access :=
  let p :=
    if calldataBase = 0 ∧ memoryBase = 0 then p
    else p.rebased (.literal calldataBase) (.literal memoryBase)
  report ((image m p).run .empty)

end Host
end Calldata
