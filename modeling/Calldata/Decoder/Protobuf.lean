import Calldata.Decoder.Basic

/-!
The binary form of plans and decoders, in the protocol buffers wire format. A message is the
concatenation of its fields in the order of their numbers. A plain number or text field is left out
when it is zero or empty; a member of a choice, an optional field that is present, and every entry
of a repeated field are written even then.
-/
namespace Calldata
namespace Protobuf

/-- Groups of seven bits, least significant first; all but the last have the high bit set. Numbers
below 2^64 have at most ten groups. -/
def varint (n : Nat) : List UInt8 :=
  if n < 128 then [UInt8.ofNat n] else UInt8.ofNat (n % 128 + 128) :: varint (n / 128)

def numberField (field n : Nat) : List UInt8 := varint (field * 8) ++ varint n

def blockField (field : Nat) (payload : List UInt8) : List UInt8 :=
  varint (field * 8 + 2) ++ varint payload.length ++ payload

def textField (field : Nat) (s : String) : List UInt8 := blockField field s.toUTF8.data.toList

def numberFieldUnlessZero (field n : Nat) : List UInt8 := if n = 0 then [] else numberField field n

def textFieldUnlessEmpty (field : Nat) (s : String) : List UInt8 := if s = "" then [] else textField field s

end Protobuf

open Protobuf

def Op.code : Op → Nat
  | .add => 0
  | .sub => 1
  | .mul => 2
  | .div => 3
  | .shl => 4
  | .shr => 5
  | .and => 6
  | .or => 7
  | .xor => 8

/-- A negative literal is written as its 64-bit two's complement. -/
def Term.toProtobuf : Term → List UInt8
  | .literal value => numberField 1 value.toUInt64.toNat
  | .var name => textField 2 name
  | .load address => blockField 3 (blockField 1 address.toProtobuf)
  | .binary op left right =>
    blockField 4 (numberFieldUnlessZero 1 op.code ++ blockField 2 left.toProtobuf ++ blockField 3 right.toProtobuf)

def Pointer.toProtobuf (p : Pointer) : List UInt8 :=
  blockField 1 p.dst.toProtobuf ++ blockField 2 p.value.toProtobuf ++ ((p.name.map (textField 3)).getD [])

def Copy.toProtobuf (c : Copy) : List UInt8 :=
  blockField 1 c.dst.toProtobuf ++ blockField 2 c.src.toProtobuf ++ blockField 3 c.size.toProtobuf ++ c.names.flatMap (textField 4)

def Cursor.toProtobuf (c : Cursor) : List UInt8 :=
  textFieldUnlessEmpty 1 c.name ++ blockField 2 c.init.toProtobuf ++ blockField 3 c.step.toProtobuf

def Check.toProtobuf (c : Check) : List UInt8 :=
  textFieldUnlessEmpty 1 c.name ++ blockField 2 c.actual.toProtobuf ++ blockField 3 c.expected.toProtobuf

mutual

def Plan.toProtobuf : Plan → List UInt8
  | ⟨pointers, copies, loops, checks, memorySize, calldataSize⟩ =>
    pointers.flatMap (fun p => blockField 1 p.toProtobuf) ++ copies.flatMap (fun c => blockField 2 c.toProtobuf) ++
      loopsToProtobuf loops ++ checks.flatMap (fun c => blockField 4 c.toProtobuf) ++
      blockField 5 memorySize.toProtobuf ++ ((calldataSize.map fun t => blockField 6 t.toProtobuf).getD [])

def loopsToProtobuf : List Loop → List UInt8
  | [] => []
  | ⟨name, index, count, cursors, body⟩ :: rest =>
    blockField 3 (textFieldUnlessEmpty 1 name ++ textFieldUnlessEmpty 2 index ++ blockField 3 count.toProtobuf ++
      cursors.flatMap (fun c => blockField 4 c.toProtobuf) ++ blockField 5 body.toProtobuf) ++ loopsToProtobuf rest

end

def Decoder.toProtobuf (d : Decoder) : List UInt8 :=
  textFieldUnlessEmpty 1 d.typeName ++ numberFieldUnlessZero 2 d.strict.toNat ++ blockField 3 d.plan.toProtobuf

def DecoderSet.toProtobuf (d : DecoderSet) : List UInt8 :=
  numberFieldUnlessZero 1 d.version.toNat ++ d.decoders.flatMap fun decoder => blockField 2 decoder.toProtobuf

end Calldata
