/-!
Byte counts. A count is a natural number below 2^64; a sum or product that would pass that bound
stays at it.
-/
namespace Calldata

def wordSize : Nat := 32

/-- The nearest count. -/
def capped (n : Nat) : Nat := min n 0xFFFFFFFFFFFFFFFF

end Calldata
