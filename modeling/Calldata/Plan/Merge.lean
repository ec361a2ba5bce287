import Calldata.Plan.Basic
import Calldata.Polynomial.OfTerm

/-!
Merging copies. Two copies become one when the gap between them is the same in calldata as in
memory, is known, and is so small that copying over it is cheaper than starting a copy. Copies are
first brought into the order of their destinations as far as that order is known.
-/
namespace Calldata
namespace Copy

/-- The price of starting a copy, and of copying one more word. -/
def startCost : Int := 12
def wordCost : Int := 3

/-- The widest gap worth copying over, in bytes. -/
def widestGap : Int := startCost / wordCost * 32

/-- Puts a copy into a list that holds the last destination first. It passes only those copies that
certainly start after it. -/
def insertByDst (c : Copy) : List Copy → List Copy
  | [] => [c]
  | p :: rest =>
    if p.dst.greater c.dst = .holds then p :: insertByDst c rest else c :: p :: rest

/-- The gap between two copies that can be merged. -/
def gap (first second : Copy) : Option Int64 := do
  let src ← second.src.distance (first.src + first.size)
  let dst ← second.dst.distance (first.dst + first.size)
  if src = dst ∧ 0 ≤ src.toInt ∧ src.toInt ≤ widestGap then some src else none

/-- Adds the next copy to merged ones, of which the last comes first. -/
def join (merged : List Copy) (c : Copy) : List Copy :=
  match merged with
  | [] => [c]
  | last :: rest =>
    match last.gap c with
    | some g =>
      { last with size := last.size + .literal g + c.size, names := last.names ++ c.names } :: rest
    | none => c :: last :: rest

def sorted (copies : List Copy) : List Copy :=
  (copies.foldl (fun done c => insertByDst c done) []).reverse

def merge (copies : List Copy) : List Copy := ((sorted copies).foldl join []).reverse

end Copy

namespace Plan

mutual

/-- Merges the copies of a plan and of every loop in it. -/
def merged : Plan → Plan
  | ⟨pointers, copies, loops, checks, memorySize, calldataSize⟩ =>
    ⟨pointers, Copy.merge copies, mergedLoops loops, checks, memorySize, calldataSize⟩

def mergedLoops : List Loop → List Loop
  | [] => []
  | ⟨name, index, count, cursors, body⟩ :: rest =>
    ⟨name, index, count, cursors, body.merged⟩ :: mergedLoops rest

end

end Plan
end Calldata
