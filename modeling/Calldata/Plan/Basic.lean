import Calldata.Term.Fold

/-!
Decoder plans. A plan says how one value moves from its place in calldata to its body in memory:
which bytes are copied, which words receive pointers, what is repeated for each element of an array,
and which offsets must be the canonical ones. All its terms are relative to the start of the value
in calldata and the start of its body in memory; `Plan.rebased` moves a plan elsewhere.
-/
namespace Calldata

/-- Writes the address `value` into the memory word at `dst`. -/
structure Pointer where
  dst : Term
  value : Term
  name : Option String
  deriving DecidableEq, Repr

/-- Copies `size` bytes of calldata at `src` to memory at `dst`. -/
structure Copy where
  dst : Term
  src : Term
  size : Term
  /-- The values that the copied bytes belong to. -/
  names : List String
  deriving DecidableEq, Repr

/-- A value carried through a loop: `init` before the first round, `step` more after each one. Its
last value can be used after the loop. -/
structure Cursor where
  name : String
  init : Term
  step : Term
  deriving DecidableEq, Repr

/-- Requires `actual` and `expected` to be the same. -/
structure Check where
  name : String
  actual : Term
  expected : Term
  deriving DecidableEq, Repr

mutual

structure Plan where
  pointers : List Pointer
  copies : List Copy
  loops : List Loop
  checks : List Check
  /-- Bytes of memory from the start of the body. -/
  memorySize : Term
  /-- Bytes of calldata from the start of the value, where they are known. -/
  calldataSize : Option Term

/-- Runs `body` with `index` from 0 up to `count`. -/
structure Loop where
  name : String
  index : String
  count : Term
  cursors : List Cursor
  body : Plan

end

namespace Plan

/-- Does nothing. -/
def empty : Plan := ⟨[], [], [], [], .literal 0, none⟩

instance : Inhabited Plan := ⟨empty⟩

/-- The operations of both plans, with the sizes of the first. -/
def append (p q : Plan) : Plan :=
  { p with
    pointers := p.pointers ++ q.pointers
    copies := p.copies ++ q.copies
    loops := p.loops ++ q.loops
    checks := p.checks ++ q.checks }

def isEmpty (p : Plan) : Bool :=
  p.pointers.isEmpty && p.copies.isEmpty && p.loops.isEmpty && p.checks.isEmpty

mutual

/-- All copies, those in the bodies of loops included. -/
def copyCount : Plan → Nat
  | ⟨_, copies, loops, _, _, _⟩ => copies.length + copyCountOfLoops loops

def copyCountOfLoops : List Loop → Nat
  | [] => 0
  | ⟨_, _, _, _, body⟩ :: rest => body.copyCount + copyCountOfLoops rest

end

/-- The cursors of loops at every level. -/
def cursorNames : List Loop → List String
  | [] => []
  | ⟨_, _, _, cursors, ⟨_, _, loops, _, _, _⟩⟩ :: rest =>
    cursors.map Cursor.name ++ cursorNames loops ++ cursorNames rest

end Plan

/-- A new place for a plan: where its calldata and its memory start. -/
structure Base where
  calldata : Term
  memory : Term

namespace Base

/-- A size or a count: only the words read for it move. -/
def amount (b : Base) (t : Term) : Term := t.mapLoads (· + b.calldata)

/-- A place in memory. -/
def inMemory (b : Base) (t : Term) : Term := b.amount t + b.memory

/-- A place in calldata. -/
def inCalldata (b : Base) (t : Term) : Term := b.amount t + b.calldata

def pointer (b : Base) (p : Pointer) : Pointer :=
  { p with dst := b.inMemory p.dst, value := b.inMemory p.value }

def copy (b : Base) (c : Copy) : Copy :=
  { c with dst := b.inMemory c.dst, src := b.inCalldata c.src, size := b.amount c.size }

def cursor (b : Base) (c : Cursor) : Cursor :=
  { c with init := b.amount c.init, step := b.amount c.step }

def check (b : Base) (c : Check) : Check :=
  { c with actual := b.amount c.actual, expected := b.amount c.expected }

mutual

def plan (b : Base) : Plan → Plan
  | ⟨pointers, copies, loops, checks, memorySize, calldataSize⟩ =>
    { pointers := pointers.map b.pointer
      copies := copies.map b.copy
      loops := b.loops loops
      checks := checks.map b.check
      memorySize := b.amount memorySize
      calldataSize := calldataSize.map b.amount }

def loops (b : Base) : List Loop → List Loop
  | [] => []
  | ⟨name, index, count, cursors, body⟩ :: rest =>
    ⟨name, index, b.amount count, cursors.map b.cursor, b.plan body⟩ :: b.loops rest

end

end Base

/-- The same plan for a value that starts at `calldata` and a body that starts at `memory`. -/
def Plan.rebased (p : Plan) (calldata memory : Term) : Plan := Base.plan ⟨calldata, memory⟩ p

end Calldata
