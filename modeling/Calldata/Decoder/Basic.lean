import Calldata.Plan.Listing

/-!
The decoders made in one run, each a finished plan with the name of its type.
-/
namespace Calldata

structure Decoder where
  typeName : String
  /-- The plan checks every offset. -/
  strict : Bool
  plan : Plan

structure DecoderSet where
  version : UInt32
  decoders : List Decoder

namespace DecoderSet

/-- The version that new sets carry. -/
def currentVersion : UInt32 := 1

def ofList (decoders : List Decoder) : DecoderSet := ⟨currentVersion, decoders⟩

def listing (d : DecoderSet) : String :=
  "# decoder IR v" ++ toString d.version.toNat ++ "\n" ++
    String.join (d.decoders.map fun decoder =>
      "\ndecoder " ++ decoder.typeName ++ (if decoder.strict then " (strict)\n" else " (lenient)\n") ++
        decoder.plan.listing)

end DecoderSet
end Calldata
