/-!
Descriptions of contract types, as a definition file gives them. A description may refer to other
definitions by name; nothing here says that the name exists or that the description is legal. Both
are settled when descriptions are resolved.
-/
namespace Calldata

/-- The scalar families. `byte` is the byte string of fixed size, `bytes` the one without. -/
inductive ElementaryKind where
  | bool
  | address
  | byte
  | bytes
  | string
  | uint
  | int
  deriving DecidableEq, Repr

namespace ElementaryKind

def all : List ElementaryKind := [.bool, .address, .byte, .bytes, .string, .uint, .int]

def name : ElementaryKind → String
  | .bool => "bool"
  | .address => "address"
  | .byte => "byte"
  | .bytes => "bytes"
  | .string => "string"
  | .uint => "uint"
  | .int => "int"

/-- The family as error messages call it. -/
def label : ElementaryKind → String
  | .bool => "Bool"
  | .address => "Address"
  | .byte => "Byte"
  | .bytes => "Bytes"
  | .string => "String"
  | .uint => "Uint"
  | .int => "Int"

def isDynamic : ElementaryKind → Bool
  | .bytes | .string => true
  | _ => false

def defaultBits : ElementaryKind → UInt16
  | .bool => 8
  | .address => 160
  | .byte => 256
  | .bytes | .string => 0
  | .uint | .int => 256

/-- The widths that exist. -/
def admits (kind : ElementaryKind) (bits : UInt16) : Bool :=
  match kind with
  | .uint | .int | .byte => 8 ≤ bits.toNat && bits.toNat ≤ 256 && bits.toNat % 8 == 0
  | .bool => bits == 8
  | .address => bits == 160
  | .bytes | .string => bits == 0

end ElementaryKind

structure Elementary where
  kind : ElementaryKind
  /-- An omitted width is the family's default. -/
  bits : Option UInt16
  deriving DecidableEq, Repr

namespace Elementary

def width (e : Elementary) : UInt16 := e.bits.getD e.kind.defaultBits

def isDynamic (e : Elementary) : Bool := e.kind.isDynamic

def isValid (e : Elementary) : Bool := e.kind.admits e.width

/-- The spelling used in signatures. -/
def canonicalName (e : Elementary) : String :=
  match e.kind with
  | .bool => "bool"
  | .address => "address"
  | .byte => "bytes" ++ toString (e.width.toNat / 8)
  | .bytes => "bytes"
  | .string => "string"
  | .uint => "uint" ++ toString e.width.toNat
  | .int => "int" ++ toString e.width.toNat

end Elementary

/-- The bits that hold every index below `count`. -/
def enumBits (count : Nat) : Nat := if count ≤ 1 then 0 else (count - 1).log2 + 1

mutual

inductive Ty where
  | elementary (type : Elementary)
  | enumeration (variants : List String)
  /-- Without a length the array is dynamic. -/
  | array (element : Ty) (length : Option UInt64)
  | record (fields : List Field)
  /-- A function value: it can be described, but it has no place in calldata. -/
  | function
  | reference (name : String)

structure Field where
  name : String
  type : Ty

end

instance : Inhabited Ty := ⟨.function⟩
instance : Inhabited Field := ⟨⟨"", .function⟩⟩

namespace Ty

def ofWidth (kind : ElementaryKind) (bits : UInt16) : Ty := .elementary ⟨kind, some bits⟩
def uint (bits : UInt16) : Ty := ofWidth .uint bits
def int (bits : UInt16) : Ty := ofWidth .int bits
def bool : Ty := ofWidth .bool 8
def address : Ty := ofWidth .address 160
def bytes : Ty := ofWidth .bytes 0
def string : Ty := ofWidth .string 0

/-- Byte strings of `size` bytes, where the width in bits can be written down. -/
def fixedBytes (size : UInt16) : Option Ty :=
  if size.toNat * 8 < UInt16.size then some (ofWidth .byte (size * 8)) else none

mutual

/-- Every mention of another definition, from left to right. -/
def references : Ty → List String
  | .elementary _ => []
  | .enumeration _ => []
  | .array element _ => element.references
  | .record fields => referencesOfFields fields
  | .function => []
  | .reference name => [name]

def referencesOfFields : List Field → List String
  | [] => []
  | ⟨_, type⟩ :: rest => type.references ++ referencesOfFields rest

end

end Ty

structure Definition where
  name : String
  body : Ty

/-- A function, whose parameter list is decoded as one record. -/
structure Signature where
  name : String
  params : List Field

/-- What one definition file holds. -/
structure Schema where
  package : Option String
  types : List Definition
  functions : List Signature

end Calldata
