import Calldata.Json.Basic

/-!
Data as a definition file gives it, whatever the notation of the file: tables, lists and scalars. A
scalar is known by what it can be read as, since notations differ there: an unquoted number is only
a number in one and a piece of text as well in another.
-/
namespace Calldata

inductive Datum where
  /-- A scalar as text, as a count, and as the mark of an absent value. -/
  | scalar (text : Option String) (count : Option Nat) (absent : Bool)
  /-- A place where nothing is written: empty text, an empty list or table, or absent. -/
  | blank
  /-- Items in order. If the list is `positional` they may also be the fields of a record. -/
  | list (items : List Datum) (positional : Bool)
  | table (members : List (String × Datum))

namespace Datum

def text? : Datum → Option String
  | .scalar text _ _ => text
  | .blank => some ""
  | _ => none

def countBelow? (bound : Nat) : Datum → Option Nat
  | .scalar _ (some n) _ => if n < bound then some n else none
  | _ => none

def list? : Datum → Option (List Datum)
  | .list items _ => some items
  | .blank => some []
  | _ => none

def isAbsent : Datum → Bool
  | .scalar _ _ absent => absent
  | .blank => true
  | _ => false

/-- The values of a record's fields. A table gives them by name, in any order, each at most once,
and may say more than that; a positional list gives them in order and may stop early. -/
def fields? (names : List String) : Datum → Option (List (Option Datum))
  | .table members => names.mapM fun name =>
      match members.filter (·.1 == name) with
      | [] => some none
      | [m] => some (some m.2)
      | _ => none
  | .list items positional =>
    if positional ∧ items.length ≤ names.length then
      some (items.map some ++ List.replicate (names.length - items.length) none)
    else none
  | .blank => some (names.map fun _ => none)
  | .scalar _ _ _ => none

/-- A field that may be missing or marked absent. -/
def optional? (read : Datum → Option α) : Option Datum → Option (Option α)
  | none => some none
  | some d => if d.isAbsent then some none else (read d).map some

/-- A list that may be missing. -/
def listOr? (read : Datum → Option α) : Option Datum → Option (List α)
  | none => some []
  | some d => do (← d.list?).mapM read

/-- A value that cannot be read as anything. -/
def unreadable : Datum := .scalar none none false

/-- A table with the given keys, which must be text for it to be read. -/
def ofPairs (pairs : List (Datum × Datum)) : Datum :=
  match pairs.mapM fun (key, d) => key.text?.map (·, d) with
  | some members => .table members
  | none => unreadable

mutual

/-- How many lists and tables are inside each other. -/
def depth : Datum → Nat
  | .scalar _ _ _ => 0
  | .blank => 0
  | .list items _ => depthOfItems items + 1
  | .table members => depthOfMembers members + 1

def depthOfItems : List Datum → Nat
  | [] => 0
  | d :: rest => max d.depth (depthOfItems rest)

def depthOfMembers : List (String × Datum) → Nat
  | [] => 0
  | (_, d) :: rest => max d.depth (depthOfMembers rest)

end

end Datum

namespace Json

mutual

/-- In JSON a string is only text, an integer only a count, and `null` only absent. Lists are
positional. -/
def toDatum : Json → Datum
  | .null => .scalar none none true
  | .bool _ => .scalar none none false
  | .integer n => .scalar none (if 0 ≤ n then some n.toNat else none) false
  | .decimal _ => .scalar none none false
  | .string s => .scalar (some s) none false
  | .array items => .list (itemsToData items) true
  | .object members => .table (membersToData members)

def itemsToData : List Json → List Datum
  | [] => []
  | j :: rest => j.toDatum :: itemsToData rest

def membersToData : List (String × Json) → List (String × Datum)
  | [] => []
  | (key, j) :: rest => (key, j.toDatum) :: membersToData rest

end

end Json
end Calldata
