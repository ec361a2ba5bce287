import Calldata.Json.Basic
import Calldata.Layout.Basic

/-!
The JSON form of a layout.
-/
namespace Calldata

namespace Shape

def name : Shape → String
  | .value => "value"
  | .bytes => "bytes"
  | .fixedArray => "fixed-array"
  | .dynamicArray => "dynamic-array"
  | .record => "struct"

/-- The shape as reports call it. -/
def label : Shape → String
  | .value => "Value"
  | .bytes => "Bytes"
  | .fixedArray => "FixedArray"
  | .dynamicArray => "DynamicArray"
  | .record => "Struct"

end Shape

def Layout.members (l : Layout) : List (String × Json) := [
  ("shape", .string l.shape.name),
  ("dynamic", .bool l.dynamic),
  ("calldata_head_size", .integer l.calldataHeadSize),
  ("calldata_tail_size", .integer l.calldataTailSize),
  ("memory_head_size", .integer l.memoryHeadSize),
  ("memory_tail_size", .integer l.memoryTailSize),
  ("calldata_head_offset", .integer l.calldataHeadOffset),
  ("memory_head_offset", .integer l.memoryHeadOffset),
  ("member_head_size_calldata", .integer l.memberHeadSizeCalldata),
  ("member_head_size_memory", .integer l.memberHeadSizeMemory),
  ("can_copy_head", .bool l.canCopyHead),
  ("can_copy_tail", .bool l.canCopyTail),
  ("minimum_bytes", .integer l.minimumBytes),
  ("is_first_dynamic_type", .bool l.isFirstDynamic),
  ("dynamic_children_depth", .integer l.dynamicDepth)]

def Layout.toJson (l : Layout) : Json := .object l.members

end Calldata
