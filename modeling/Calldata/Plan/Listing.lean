import Calldata.Plan.Basic

/-!
Plans as readable text, in the order in which they run: loops, copies, pointers. Checks stand last.
-/
namespace Calldata
namespace Plan

def copyLine (c : Copy) : String :=
  "copy mem[" ++ c.dst.text ++ "] <- cd[" ++ c.src.text ++ "] size " ++ c.size.text ++ "  # " ++
    ", ".intercalate c.names

def pointerLine (p : Pointer) : String :=
  "ptr  mem[" ++ p.dst.text ++ "] = " ++ p.value.text ++
    match p.name with
    | some name => "  # " ++ name
    | none => ""

def checkLine (c : Check) : String :=
  "check " ++ c.actual.text ++ " == " ++ c.expected.text ++ "  # " ++ c.name

def cursorLine (c : Cursor) : String :=
  "    cursor " ++ c.name ++ " = " ++ c.init.text ++ " step " ++ c.step.text

def indented (lines : List String) : List String := lines.map ("    " ++ ·)

mutual

def lines : Plan → List String
  | ⟨pointers, copies, loops, checks, _, _⟩ =>
    loopLines loops ++ copies.map copyLine ++ pointers.map pointerLine ++ checks.map checkLine

def loopLines : List Loop → List String
  | [] => []
  | ⟨name, index, count, cursors, body⟩ :: rest =>
    ("loop " ++ index ++ " in 0.." ++ count.text ++ "  # " ++ name) :: cursors.map cursorLine ++
      indented body.lines ++ ["end"] ++ loopLines rest

end

def listing (p : Plan) : String :=
  String.join ((p.lines ++ ["memory " ++ p.memorySize.text,
    "calldata " ++ (p.calldataSize.map Term.text).getD "?"]).map (· ++ "\n"))

end Plan
end Calldata
