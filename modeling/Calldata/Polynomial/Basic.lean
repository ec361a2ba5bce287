import Calldata.Checked

/-!
Integer polynomials with 64-bit coefficients over named atoms. A polynomial is the list of its
terms in ascending order of their monomials, none with coefficient zero, so two polynomials are the
same function of their atoms only if they are the same list. A monomial is an ascending list of
atoms with repetitions; the empty one carries the constant.
-/
namespace Calldata

abbrev Monomial := List String

namespace Monomial

def insertAtom (a : String) : Monomial → Monomial
  | [] => [a]
  | b :: rest => if a ≤ b then a :: b :: rest else b :: insertAtom a rest

/-- The product of two monomials: all atoms of both, in order. -/
def mul (m n : Monomial) : Monomial := m.foldr insertAtom n

end Monomial

structure Polynomial where
  terms : List (Monomial × Int64)
  deriving DecidableEq, Repr

namespace Polynomial

def zero : Polynomial := ⟨[]⟩

def constant (c : Int64) : Polynomial := if c = 0 then zero else ⟨[([], c)]⟩

def atom (name : String) : Polynomial := ⟨[([name], 1)]⟩

def asConstant (p : Polynomial) : Option Int64 :=
  match p.terms with
  | [] => some 0
  | [([], c)] => some c
  | _ => none

/-- Adds one term at its place in the order; a term that becomes zero is dropped. -/
def addTermTo (m : Monomial) (c : Int64) :
    List (Monomial × Int64) → Option (List (Monomial × Int64))
  | [] => some (if c = 0 then [] else [(m, c)])
  | (n, d) :: rest =>
    if m = n then do
      let e ← checked (d.toInt + c.toInt)
      return if e = 0 then rest else (n, e) :: rest
    else if m < n then some (if c = 0 then (n, d) :: rest else (m, c) :: (n, d) :: rest)
    else do return (n, d) :: (← addTermTo m c rest)

def addTerm (p : Polynomial) (m : Monomial) (c : Int64) : Option Polynomial :=
  (addTermTo m c p.terms).map mk

/-- The sum, if each coefficient met on the way fits. -/
def add (p q : Polynomial) : Option Polynomial :=
  q.terms.foldlM (fun acc t => acc.addTerm t.1 t.2) p

def sub (p q : Polynomial) : Option Polynomial :=
  q.terms.foldlM (fun acc t => do acc.addTerm t.1 (← checked (-t.2.toInt))) p

def mul (p q : Polynomial) : Option Polynomial :=
  p.terms.foldlM (fun acc s =>
    q.terms.foldlM (fun acc t => do
      acc.addTerm (s.1.mul t.1) (← checked (s.2.toInt * t.2.toInt))) acc) zero

def termText (t : Monomial × Int64) : String :=
  "*".intercalate (toString t.2.toInt :: t.1)

def text (p : Polynomial) : String :=
  if p.terms.isEmpty then "0" else " + ".intercalate (p.terms.map termText)

end Polynomial
end Calldata
