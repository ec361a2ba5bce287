import Calldata.Machine.Bytes
import Calldata.Plan.Basic
import Calldata.Size

/-!
Running a plan on calldata. At each level the loops run first, then the copies, then the pointers.
Checks come before anything reads a size or a count; those that need the last value of a cursor
come right after the loops. Memory starts empty, grows with zeros as it is written, and never
passes the limit.
-/
namespace Calldata

inductive RunError where
  | invalidEncoding (failed : List String)
  | unbound (name : String)
  | wordOverflow (address : Int64)
  | arithmeticOverflow (expression : String)
  | negativeAddress (address : Int64)
  | memoryLimit (requested limit : Nat)
  deriving DecidableEq, Repr

def RunError.message : RunError → String
  | .invalidEncoding failed =>
    "calldata is not canonically encoded (failed checks: " ++ ", ".intercalate failed ++ ")"
  | .unbound name => s!"variable '{name}' is not bound"
  | .wordOverflow address =>
    "calldata word at " ++ toString address.toInt ++ " does not fit in 63 bits"
  | .arithmeticOverflow expression => s!"arithmetic overflow evaluating {expression}"
  | .negativeAddress address => "negative address " ++ toString address.toInt
  | .memoryLimit requested limit => s!"run needs {requested} bytes of memory, limit is {limit}"

/-- The values of names. -/
structure Bindings where
  entries : List (String × Int64)
  deriving DecidableEq, Repr

namespace Bindings

def empty : Bindings := ⟨[]⟩

def get? (b : Bindings) (name : String) : Option Int64 := b.entries.lookup name

def setIn (name : String) (value : Int64) : List (String × Int64) → List (String × Int64)
  | [] => [(name, value)]
  | (other, old) :: rest =>
    if other = name then (name, value) :: rest else (other, old) :: setIn name value rest

def set (b : Bindings) (name : String) (value : Int64) : Bindings := ⟨setIn name value b.entries⟩

end Bindings

/-- What a run reads and the memory it may use. -/
structure Machine where
  calldata : ByteArray
  limit : Nat := 0x1000000

structure RunState where
  bindings : Bindings
  memory : ByteArray

/-- What a run leaves behind. Sizes are relative to the bases of the run. -/
structure Image where
  bytes : ByteArray
  size : Nat
  calldataSize : Option Nat

namespace Image

/-- Bytes that were never written are zero. -/
def slice (i : Image) (offset length : Nat) : ByteArray := Bytes.window i.bytes offset length

def word (i : Image) (offset : Nat) : ByteArray := i.slice offset 32

/-- The word as a number, if all but its last eight bytes are zero. -/
def wordValue (i : Image) (offset : Nat) : Option Nat :=
  let word := i.word offset
  if (word.extract 0 24).data.any (· != 0) then none else some (Bytes.bigEndian (word.extract 24 32))

end Image

namespace Machine

/-- A byte of calldata, zero where there is none. -/
def byte (m : Machine) (offset : Nat) : UInt8 := (m.calldata.data[offset]?).getD 0

/-- The number with one more byte at its end, if neither step to it overflows. -/
def withByte (v : Int64) (b : UInt8) : Option Int64 := do
  let shifted ← checked (v.toInt * 256)
  checked (shifted.toInt + b.toNat)

/-- The calldata word at an address, byte by byte. Addresses that pass the last one stay at it. -/
def word? (m : Machine) (start : Nat) : Option Int64 :=
  (List.range 32).foldlM (fun v i => withByte v (m.byte (capped (start + i)))) 0

def bound (b : Bindings) (name : String) : Except RunError Int64 :=
  match b.get? name with
  | some v => .ok v
  | none => .error (.unbound name)

def nonNegative (v : Int64) : Except RunError Nat :=
  if 0 ≤ v.toInt then .ok v.toInt.toNat else .error (.negativeAddress v)

def value (m : Machine) (b : Bindings) : Term → Except RunError Int64
  | .literal v => .ok v
  | .var name => bound b name
  | .load address => do
    let a ← m.value b address
    match m.word? (← nonNegative a) with
    | some v => .ok v
    | none => .error (.wordOverflow a)
  | .binary op left right => do
    let l ← m.value b left
    let r ← m.value b right
    match op.apply l r with
    | some v => .ok v
    | none => .error (.arithmeticOverflow (Term.binary op left right).text)

def address (m : Machine) (b : Bindings) (t : Term) : Except RunError Nat := do
  nonNegative (← m.value b t)

def require (m : Machine) (size : Nat) : Except RunError Unit :=
  if m.limit < size then .error (.memoryLimit size m.limit) else .ok ()

/-- Writes bytes to memory, which grows to hold them. -/
def write (s : RunState) (dst : Nat) (part : ByteArray) : RunState :=
  { s with memory := Bytes.overwritten (Bytes.grown s.memory (dst + part.size)) dst part }

def copy (m : Machine) (s : RunState) (c : Copy) : Except RunError RunState := do
  let dst ← m.address s.bindings c.dst
  let src ← m.address s.bindings c.src
  let size ← m.address s.bindings c.size
  m.require (dst + size)
  return write s dst (Bytes.window m.calldata src size)

def point (m : Machine) (s : RunState) (p : Pointer) : Except RunError RunState := do
  let dst ← m.address s.bindings p.dst
  let value ← m.address s.bindings p.value
  m.require (dst + 32)
  return write s dst (Bytes.word value)

/-- Whether a check passes. A word too large to be an offset never equals one. -/
def passes (m : Machine) (b : Bindings) (c : Check) : Except RunError Bool := do
  let actual ←
    match m.value b c.actual with
    | .ok v => .ok (some v)
    | .error (.wordOverflow _) => .ok none
    | .error e => .error e
  return actual == some (← m.value b c.expected)

/-- Fails with the names of all checks that do not pass. -/
def check (m : Machine) (b : Bindings) (checks : List Check) : Except RunError Unit := do
  let failed ← checks.filterM fun c => return !(← m.passes b c)
  if failed.isEmpty then .ok () else .error (.invalidEncoding (failed.map Check.name))

def mentions (names : List String) (c : Check) : Bool :=
  (c.actual.occurrences ++ c.expected.occurrences).any (names.contains ·)

def start (m : Machine) (s : RunState) (c : Cursor) : Except RunError RunState := do
  let v ← m.value s.bindings c.init
  return { s with bindings := s.bindings.set c.name v }

/-- Moves one cursor by a step computed before any of them moved. -/
def advanceOne (s : RunState) (move : Cursor × Int64) : Except RunError RunState := do
  let current ← bound s.bindings move.1.name
  match checked (current.toInt + move.2.toInt) with
  | some v => .ok { s with bindings := s.bindings.set move.1.name v }
  | none => .error (.arithmeticOverflow (move.1.name ++ " + " ++ toString move.2.toInt))

def advance (m : Machine) (cursors : List Cursor) (s : RunState) : Except RunError RunState := do
  let steps ← cursors.mapM fun c => m.value s.bindings c.step
  (cursors.zip steps).foldlM advanceOne s

/-- `round index` for `count` indices from `index` on. -/
def rounds (round : Nat → RunState → Except RunError RunState) :
    Nat → Nat → RunState → Except RunError RunState
  | 0, _, s => .ok s
  | count + 1, index, s => do
    let s ← round index s
    rounds round count (index + 1) s

mutual

def execute (m : Machine) : Plan → RunState → Except RunError RunState
  | ⟨pointers, copies, loops, checks, _, _⟩, s => do
    let (late, early) := checks.partition (mentions (Plan.cursorNames loops))
    m.check s.bindings early
    let s ← m.executeLoops loops s
    m.check s.bindings late
    let s ← copies.foldlM m.copy s
    pointers.foldlM m.point s

/-- Every round of a loop writes a word at least, so the limit bounds the rounds. -/
def executeLoops (m : Machine) : List Loop → RunState → Except RunError RunState
  | [], s => .ok s
  | ⟨_, index, count, cursors, body⟩ :: rest, s => do
    let count ← m.address s.bindings count
    m.require (capped (count * wordSize))
    let s ← cursors.foldlM m.start s
    let s ← rounds (fun i s => do
      let s ← m.execute body { s with bindings := s.bindings.set index (Int64.ofNat i) }
      m.advance cursors s) count 0 s
    m.executeLoops rest s

end

/-- Runs a plan whose value starts at `calldataBase`, with its body at `memoryBase`. -/
def run (m : Machine) (p : Plan) (calldataBase memoryBase : Int64) : Except RunError Image := do
  let p :=
    if calldataBase = 0 ∧ memoryBase = 0 then p
    else p.rebased (.literal calldataBase) (.literal memoryBase)
  let s ← m.execute p ⟨.empty, .empty⟩
  let size ← m.address s.bindings p.memorySize
  let calldataSize ← p.calldataSize.mapM (m.address s.bindings)
  return ⟨s.memory, size, calldataSize⟩

end Machine
end Calldata
