import Calldata.Arena.Class
import Calldata.Layout.Table
import Calldata.Plan.Merge

/-!
Synthesis of a plan from a laid-out type. Single words are copied; every other member gets a pointer
to a body, and bodies follow each other in memory. A dynamic member is found through its offset
word. In strict mode it is taken from where the canonical encoding puts it, and the offset word is
checked against that place.
-/
namespace Calldata

inductive SynthesisGap where
  | noLayout
  | functionType
  | undecodableMember
  | unknownElementSize
  deriving DecidableEq, Repr

def SynthesisGap.message : SynthesisGap → String
  | .noLayout => "type has no computed layout"
  | .functionType => "function types have no calldata representation"
  | .undecodableMember => "member is neither a value nor a reference type"
  | .unknownElementSize => "calldata size of element is unknown"

inductive SynthesisError where
  | unsupported (type : String) (gap : SynthesisGap)
  /-- A node that is referred to does not exist. -/
  | noNode (id : NodeId)
  deriving DecidableEq, Repr

def SynthesisError.message : SynthesisError → String
  | .unsupported type gap => s!"type '{type}' cannot be decoded: " ++ gap.message
  | .noNode id => s!"there is no type #{id}"

structure Options where
  /-- Check every offset against its canonical value. -/
  strict : Bool := false
  /-- Merge copies in the finished plan. -/
  merge : Bool := true

/-- The literal of `count` words in bytes. -/
def Term.words (count : Nat) : Term := .ofNat (capped (count * wordSize))

namespace Plan

/-- One copy of `size` bytes that makes the whole body. -/
def single (scope : String) (size : Term) (calldataSize : Term) : Plan :=
  { empty with
    copies := [⟨.literal 0, .literal 0, size, [scope]⟩]
    memorySize := size
    calldataSize := some calldataSize }

def ofValue (scope : String) : Plan := single scope (.words 1) (.words 1)

/-- The length word and the bytes, filled up to whole words. -/
def ofByteString (scope : String) : Plan :=
  let size := (Term.load (.literal 0)).roundUp + .words 1
  single scope size size

/-- The calldata start of a member with its head at `head`, and the check this takes. Offset words
count from `tuple`; `expected` is the canonical one, if it is known. -/
def memberStart (strict dynamic : Bool) (head tuple : Term) (expected : Option Term)
    (name : String) : Term × List Check :=
  if !dynamic then (head, [])
  else
    match strict, expected with
    | true, some offset => (tuple + offset, [⟨name ++ ".offset", .load head, offset⟩])
    | _, _ => (tuple + .load head, [])

/-- A member of a record or of an array of known length: its word in memory, its head in calldata,
and for a member with a body of its own whether it is dynamic and how it is decoded. -/
structure Member where
  name : String
  slot : Term
  head : Term
  body : Option (Bool × Plan)

/-- A body under construction: where the next member's body goes, and the canonical offset of the
next dynamic member. -/
structure Draft where
  plan : Plan
  cursor : Term
  expected : Option Term

def Draft.add (strict : Bool) (d : Draft) (m : Member) : Draft :=
  match m.body with
  | none =>
    { d with plan := { d.plan with
        copies := d.plan.copies ++ [⟨m.slot, m.head, .words 1, [m.name]⟩] } }
  | some (dynamic, body) =>
    let (start, checks) := memberStart strict dynamic m.head (.literal 0) d.expected m.name
    let body := body.rebased start d.cursor
    { plan := append { d.plan with
        pointers := d.plan.pointers ++ [⟨m.slot, d.cursor, some m.name⟩]
        checks := d.plan.checks ++ checks } body
      cursor := d.cursor + body.memorySize
      expected :=
        if dynamic then
          match d.expected, body.calldataSize with
          | some offset, some size => some (offset + size)
          | _, _ => none
        else d.expected }

/-- A body of members: their words first, then their bodies. -/
def ofMembers (strict dynamic : Bool) (memoryHead calldataHead : Term) (members : List Member) :
    Plan :=
  let d := members.foldl (Draft.add strict) ⟨empty, memoryHead, some calldataHead⟩
  { d.plan with
    memorySize := d.cursor
    calldataSize :=
      if !dynamic then some calldataHead
      else if strict then d.expected
      else none }

/-- A known number of elements, each a body without pointers of `stride` bytes. -/
def ofFlatElements (scope : String) (length stride : Nat) : Plan :=
  let memoryHead := Term.words length
  let bodies := Term.ofNat (capped (length * stride))
  { empty with
    pointers := (List.range length).map fun i =>
      ⟨.words i, memoryHead + .ofNat (capped (i * stride)), some s!"{scope}[{i}]"⟩
    copies := [⟨memoryHead, .literal 0, bodies, [scope ++ "[*]"]⟩]
    memorySize := memoryHead + bodies
    calldataSize := some bodies }

/-- The number of elements of a dynamic array, and the end of their words in memory. -/
def elementCount : Term := .load (.literal 0)
def elementsEnd : Term := elementCount * .literal 32 + .words 1

/-- The place of one element's word, behind the length word. -/
def elementSlot (index : Term) : Term := index * .literal 32 + .words 1

def lengthCopy (scope : String) : Copy :=
  ⟨.literal 0, .literal 0, .words 1, [scope ++ ".length"]⟩

/-- A dynamic array of elements that are bodies without pointers of `stride` bytes. -/
def ofFlatDynamicArray (scope : String) (stride : Nat) : Plan :=
  let index := Term.var (scope ++ ".index")
  let bodies := elementCount * .ofNat stride
  { empty with
    copies := [lengthCopy scope, ⟨elementsEnd, .words 1, bodies, [scope ++ "[*]"]⟩]
    loops := [{
      name := scope
      index := scope ++ ".index"
      count := elementCount
      cursors := []
      body := { empty with
        pointers := [⟨elementSlot index, elementsEnd + index * .ofNat stride, some (scope ++ "[]")⟩] } }]
    memorySize := elementsEnd + bodies
    calldataSize := some (bodies + .words 1) }

/-- A dynamic array of elements with bodies of their own, given how one is decoded and the size
of its head. One cursor follows memory; in strict mode another follows the canonical offsets of
dynamic elements. -/
def ofDynamicArray (strict dynamic : Bool) (headSize : Nat) (scope : String) (element : Plan) :
    Option Plan :=
  let index := Term.var (scope ++ ".index")
  let memory := Term.var (scope ++ ".cursor")
  let offset := Term.var (scope ++ ".offset")
  let tracked := dynamic && strict
  let (start, checks) :=
    if dynamic then
      memberStart strict true (elementSlot index) (.words 1) (if tracked then some offset else none)
        (scope ++ "[]")
    else (index * .ofNat headSize + .words 1, [])
  let element := element.rebased start memory
  let first : Cursor := ⟨scope ++ ".cursor", elementsEnd, element.memorySize⟩
  let cursors :=
    if tracked then
      element.calldataSize.map fun size =>
        [first, ⟨scope ++ ".offset", elementCount * .literal 32, size⟩]
    else some [first]
  cursors.map fun cursors =>
    { empty with
      copies := [lengthCopy scope]
      loops := [{
        name := scope
        index := scope ++ ".index"
        count := elementCount
        cursors
        body := append { empty with
          pointers := [⟨elementSlot index, memory, some (scope ++ "[]")⟩]
          checks } element }]
      memorySize := memory
      calldataSize :=
        if !dynamic then some (elementCount * .ofNat headSize + .words 1)
        else if tracked then some (offset + .words 1)
        else none }

end Plan

/-- What plans are synthesized from. -/
structure Synthesizer where
  arena : Arena
  layouts : LayoutTable
  options : Options

namespace Synthesizer

def node (s : Synthesizer) (id : NodeId) : Except SynthesisError Node :=
  match s.arena.get? id with
  | some node => .ok node
  | none => .error (.noNode id)

def refuse (s : Synthesizer) (id : NodeId) (gap : SynthesisGap) : Except SynthesisError α := do
  .error (.unsupported (← s.node id).name gap)

def layout (s : Synthesizer) (id : NodeId) : Except SynthesisError Layout :=
  match s.layouts.get? id with
  | some l => .ok l
  | none => s.refuse id .noLayout

def referenceDepth (s : Synthesizer) (id : NodeId) : Except SynthesisError Nat :=
  match s.arena.referenceDepth? id with
  | some depth => .ok depth
  | none => .error (.noNode id)

/-- A member that can be decoded: whether it is a single word, and its layout. -/
def member (s : Synthesizer) (id : NodeId) : Except SynthesisError (Bool × Layout) := do
  let node ← s.node id
  if node.kind.isValue || node.kind.isReference then return (node.kind.isValue, ← s.layout id)
  else s.refuse id .undecodableMember

/-- Whether the bodies of elements hold no pointers and are the same in calldata and memory. -/
def isFlatElement (s : Synthesizer) (id : NodeId) (l : Layout) : Except SynthesisError Bool :=
  if l.dynamic then .ok false else do return (← s.referenceDepth id) == 1

/-- The parts of the work below take as `inner` how the body of a node is decoded. -/
def recordPlan (s : Synthesizer) (inner : NodeId → String → Except SynthesisError Plan)
    (id : NodeId) (l : Layout) (fields : List (String × NodeId)) (scope : String) :
    Except SynthesisError Plan := do
  let memoryHead := Term.ofNat l.memberHeadSizeMemory
  let calldataHead := Term.ofNat l.memberHeadSizeCalldata
  let flat ← if l.dynamic then pure false else do pure (decide ((← s.referenceDepth id) ≤ 1))
  if flat then return .single scope memoryHead calldataHead
  let members ← fields.mapM fun (field, child) => do
    let (isValue, layout) ← s.member child
    let name := scope ++ "." ++ field
    let body ← if isValue then pure none else do pure (some (layout.dynamic, ← inner child name))
    return { name, slot := .ofNat layout.memoryHeadOffset, head := .ofNat layout.calldataHeadOffset, body }
  return .ofMembers s.options.strict l.dynamic memoryHead calldataHead members

def fixedArrayPlan (s : Synthesizer) (inner : NodeId → String → Except SynthesisError Plan)
    (l : Layout) (element : NodeId) (length : Nat) (scope : String) : Except SynthesisError Plan := do
  let (isValue, layout) ← s.member element
  if isValue then return .single scope (.words length) (.words length)
  if ← s.isFlatElement element layout then
    return .ofFlatElements scope length layout.calldataHeadSize
  let members ← (List.range length).mapM fun i => do
    let name := s!"{scope}[{i}]"
    return {
      name
      slot := .words i
      head := .ofNat (capped (i * layout.calldataHeadSize))
      body := some (layout.dynamic, ← inner element name) }
  return .ofMembers s.options.strict l.dynamic (.words length) (.ofNat l.memberHeadSizeCalldata) members

def dynamicArrayPlan (s : Synthesizer) (inner : NodeId → String → Except SynthesisError Plan)
    (element : NodeId) (scope : String) : Except SynthesisError Plan := do
  let (isValue, layout) ← s.member element
  if isValue then return .single scope Plan.elementsEnd Plan.elementsEnd
  if ← s.isFlatElement element layout then
    return .ofFlatDynamicArray scope layout.calldataHeadSize
  let body ← inner element (scope ++ "[]")
  match Plan.ofDynamicArray s.options.strict layout.dynamic layout.calldataHeadSize scope body with
  | some plan => return plan
  | none => s.refuse element .unknownElementSize

/-- The plan of a node, unless it lies deeper than `fuel` levels. -/
def planWithin (s : Synthesizer) : Nat → NodeId → String → Except SynthesisError Plan
  | 0, id, _ => .error (.noNode id)
  | fuel + 1, id, scope => do
    let l ← s.layout id
    match (← s.node id).kind with
    | .elementary e => return if e.isDynamic then .ofByteString scope else .ofValue scope
    | .enumeration _ _ => return .ofValue scope
    | .function => s.refuse id .functionType
    | .record fields => s.recordPlan (s.planWithin fuel) id l fields scope
    | .array element (some length) =>
      s.fixedArrayPlan (s.planWithin fuel) l element length.toNat scope
    | .array element none => s.dynamicArrayPlan (s.planWithin fuel) element scope

/-- The plan of a node, relative to the start of its calldata and of its body in memory. No path in
a tree of nodes is longer than the arena. -/
def synthesize (s : Synthesizer) (id : NodeId) (scope : String) : Except SynthesisError Plan :=
  s.planWithin (s.arena.size + 1) id scope

/-- The finished plan. -/
def build (s : Synthesizer) (id : NodeId) (scope : String) : Except SynthesisError Plan := do
  let plan ← s.synthesize id scope
  return if s.options.merge then plan.merged else plan

end Synthesizer
end Calldata
