import Calldata.Interface.TypeString

/-!
Contract interfaces: a list of entries, of which functions and the constructor have parameters to
decode. A tuple becomes a record. Parameters without a name are named by their position, and
functions that share a name are told apart by their signatures.
-/
namespace Calldata
namespace Interface

structure Param where
  name : String
  type : String
  /-- The members of a tuple. -/
  components : List Param

structure Entry where
  kind : String
  name : String
  inputs : List Param

/-- A parameter whose type string cannot be read. -/
structure ParamError where
  param : String
  type : String
  defect : TypeStringDefect
  deriving DecidableEq, Repr

def ParamError.message (e : ParamError) : String :=
  let param := e.param
  let type := e.type
  s!"parameter '{param}' has unsupported type '{type}': " ++ e.defect.message

def fieldName (name : String) (position : Nat) : String :=
  if name = "" then "_" ++ toString position else name

mutual

/-- The type of a parameter that error messages call `shown`. -/
def typeOf (shown : String) : Param → Except ParamError Ty
  | ⟨_, type, components⟩ => do
    let (base, rest) := splitBase (Text.trim type.toList)
    let body ←
      if base = "tuple".toList then Ty.record <$> fieldsFrom 0 components
      else
        match base? base with
        | some ty => .ok ty
        | none => .error ⟨shown, type, .unknownBase⟩
    match suffixes rest with
    | .ok lengths => return arrays body lengths
    | .error defect => .error ⟨shown, type, defect⟩

/-- The fields of a parameter list of which the first stands at `position`. -/
def fieldsFrom (position : Nat) : List Param → Except ParamError (List Field)
  | [] => return []
  | ⟨name, type, components⟩ :: rest => do
    let shown := fieldName name position
    let body ← typeOf shown ⟨name, type, components⟩
    return ⟨shown, body⟩ :: (← fieldsFrom (position + 1) rest)

end

def fields (params : List Param) : Except ParamError (List Field) := fieldsFrom 0 params

mutual

/-- The type as signatures spell it: tuples by their members, and plain `uint` and `int` with
their width. -/
def signatureType : Param → String
  | ⟨_, type, components⟩ =>
    match after? "tuple".toList type.toList with
    | some suffix => "(" ++ ",".intercalate (signatureTypes components) ++ ")" ++ String.ofList suffix
    | none =>
      let (base, suffix) := splitBase type.toList
      if base = "uint".toList then "uint256" ++ String.ofList suffix
      else if base = "int".toList then "int256" ++ String.ofList suffix
      else type

def signatureTypes : List Param → List String
  | [] => []
  | p :: rest => signatureType p :: signatureTypes rest

end

def signature (name : String) (inputs : List Param) : String :=
  name ++ "(" ++ ",".intercalate (signatureTypes inputs) ++ ")"

/-- The name of an entry that can be called. -/
def Entry.callName? (e : Entry) : Option String :=
  if e.kind = "function" then some e.name
  else if e.kind = "constructor" then some "constructor"
  else none

/-- The entries that can be called, with their names. -/
def callable (entries : List Entry) : List (String × Entry) :=
  entries.filterMap fun e => e.callName?.map (·, e)

/-- The name a callable entry gets among all of them. -/
def functionName (names : List String) (name : String) (e : Entry) : String :=
  if 1 < names.count name then signature name e.inputs else name

def functions (entries : List Entry) : Except ParamError (List Signature) :=
  (callable entries).mapM fun (name, e) => do
    return ⟨functionName ((callable entries).map Prod.fst) name e, ← fields e.inputs⟩

end Interface
end Calldata
