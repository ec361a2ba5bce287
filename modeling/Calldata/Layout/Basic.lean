import Calldata.Size

/-!
Sizes of a node in calldata and in memory. Calldata holds a value of static size in place and a
dynamic one behind an offset; memory holds one word per member, which is a pointer for everything
that is not a single word.
-/
namespace Calldata

inductive Shape where
  | value
  | bytes
  | fixedArray
  | dynamicArray
  | record
  deriving DecidableEq, Repr

structure Layout where
  shape : Shape
  dynamic : Bool
  calldataHeadSize : Nat
  /-- For a dynamic type the least size, with every dynamic length zero. -/
  calldataTailSize : Nat
  memoryHeadSize : Nat
  memoryTailSize : Nat
  /-- The two offsets are positions inside the parent. -/
  calldataHeadOffset : Nat
  memoryHeadOffset : Nat
  memberHeadSizeCalldata : Nat
  memberHeadSizeMemory : Nat
  canCopyHead : Bool
  canCopyTail : Bool
  minimumBytes : Nat
  isFirstDynamic : Bool
  dynamicDepth : Nat
  deriving DecidableEq, Repr

namespace Layout

/-- The bytes that a memory pointer to the node gives access to. This sum is not kept below 2^64 like
the others, so it is a count only where the body of the node is smaller than that. -/
def memoryBodySize (l : Layout) : Nat :=
  match l.shape with
  | .record | .fixedArray => l.memoryHeadSize + l.memoryTailSize
  | .value | .bytes | .dynamicArray => l.memoryTailSize

/-- The bytes of the node's own region of calldata. -/
def calldataBodySize (l : Layout) : Nat :=
  if l.dynamic then l.calldataTailSize else l.calldataHeadSize

/-- Memory beyond its own word that a member of this layout needs. -/
def bodyBeyondWord (l : Layout) : Nat := if l.shape = .value then 0 else l.memoryBodySize

def value : Layout where
  shape := .value
  dynamic := false
  calldataHeadSize := wordSize
  calldataTailSize := 0
  memoryHeadSize := wordSize
  memoryTailSize := 0
  calldataHeadOffset := 0
  memoryHeadOffset := 0
  memberHeadSizeCalldata := 0
  memberHeadSizeMemory := 0
  canCopyHead := true
  canCopyTail := true
  minimumBytes := wordSize
  isFirstDynamic := false
  dynamicDepth := 0

/-- A length word, then the bytes. -/
def bytes : Layout :=
  { value with
    shape := .bytes
    dynamic := true
    calldataTailSize := wordSize
    memoryTailSize := wordSize
    minimumBytes := wordSize + wordSize
    dynamicDepth := 1 }

def ofFixedArray (length : Nat) (element : Layout) : Layout :=
  let memberHead := capped (length * element.calldataHeadSize)
  let head := if element.dynamic then wordSize else memberHead
  let tail :=
    if element.dynamic then capped (memberHead + capped (length * element.calldataTailSize)) else 0
  { shape := .fixedArray
    dynamic := element.dynamic
    calldataHeadSize := head
    calldataTailSize := tail
    memoryHeadSize := capped (length * wordSize)
    memoryTailSize := capped (length * element.bodyBeyondWord)
    calldataHeadOffset := 0
    memoryHeadOffset := 0
    memberHeadSizeCalldata := memberHead
    memberHeadSizeMemory := capped (length * wordSize)
    canCopyHead := element.dynamic
    canCopyTail := element.dynamic && element.canCopyHead && element.canCopyTail
    minimumBytes := capped (head + tail)
    isFirstDynamic := false
    dynamicDepth := element.dynamic.toNat + element.dynamicDepth }

def ofDynamicArray (element : Layout) : Layout :=
  let inPlace := element.shape = .value ∨ element.dynamic
  { value with
    shape := .dynamicArray
    dynamic := true
    calldataTailSize := wordSize
    memoryTailSize := wordSize
    canCopyHead := inPlace
    canCopyTail := element.canCopyTail && inPlace
    minimumBytes := 2 * wordSize
    dynamicDepth := 1 + element.dynamicDepth }

def ofRecord (members : List Layout) : Layout :=
  let dynamic := members.any Layout.dynamic
  let memberHead := capped ((members.map Layout.calldataHeadSize).foldr (· + ·) 0)
  let memberTail := capped ((members.map Layout.calldataTailSize).foldr (· + ·) 0)
  let head := if dynamic then wordSize else memberHead
  let tail := if dynamic then capped (memberHead + memberTail) else 0
  let memoryHead := members.length * wordSize
  { shape := .record
    dynamic
    calldataHeadSize := head
    calldataTailSize := tail
    memoryHeadSize := memoryHead
    memoryTailSize := capped ((members.map bodyBeyondWord).foldr (· + ·) 0)
    calldataHeadOffset := 0
    memoryHeadOffset := 0
    memberHeadSizeCalldata := memberHead
    memberHeadSizeMemory := memoryHead
    canCopyHead := memberHead == memoryHead
    canCopyTail := members.all fun l => l.canCopyHead && l.canCopyTail
    minimumBytes := capped (head + tail)
    isFirstDynamic := false
    dynamicDepth := dynamic.toNat + (members.map Layout.dynamicDepth).foldl max 0 }

end Layout
end Calldata
