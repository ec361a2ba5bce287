import Calldata.Decoder.Basic
import Calldata.Json.Printer
import Calldata.Term.Json

/-!
The JSON form of plans and decoders. Every member is written, an absent one as `null`.
-/
namespace Calldata

def Json.ofOption (f : α → Json) : Option α → Json
  | some a => f a
  | none => .null

def Json.strings (names : List String) : Json := .array (names.map .string)

def Pointer.toJson (p : Pointer) : Json :=
  .object [("dst", p.dst.toJson), ("value", p.value.toJson), ("name", .ofOption .string p.name)]

def Copy.toJson (c : Copy) : Json :=
  .object [("dst", c.dst.toJson), ("src", c.src.toJson), ("size", c.size.toJson),
    ("names", .strings c.names)]

def Cursor.toJson (c : Cursor) : Json :=
  .object [("name", .string c.name), ("init", c.init.toJson), ("step", c.step.toJson)]

def Check.toJson (c : Check) : Json :=
  .object [("name", .string c.name), ("actual", c.actual.toJson), ("expected", c.expected.toJson)]

mutual

def Plan.toJson : Plan → Json
  | ⟨pointers, copies, loops, checks, memorySize, calldataSize⟩ =>
    .object [
      ("pointers", .array (pointers.map Pointer.toJson)),
      ("copies", .array (copies.map Copy.toJson)),
      ("loops", .array (loopsToJson loops)),
      ("checks", .array (checks.map Check.toJson)),
      ("memory_tail_offset", memorySize.toJson),
      ("calldata_tail_offset", .ofOption Term.toJson calldataSize)]

def loopsToJson : List Loop → List Json
  | [] => []
  | ⟨name, index, count, cursors, body⟩ :: rest =>
    .object [("name", .string name), ("index", .string index), ("count", count.toJson),
      ("cursors", .array (cursors.map Cursor.toJson)), ("body", body.toJson)] :: loopsToJson rest

end

def Decoder.toJson (d : Decoder) : Json :=
  .object [("type_name", .string d.typeName), ("strict", .bool d.strict), ("plan", d.plan.toJson)]

def DecoderSet.toJson (d : DecoderSet) : Json :=
  .object [("version", .integer d.version.toNat), ("decoders", .array (d.decoders.map Decoder.toJson))]

end Calldata
