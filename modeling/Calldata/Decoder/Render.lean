import Calldata.Decoder.Json
import Calldata.Decoder.Protobuf

/-!
The three forms in which decoders are written out.
-/
namespace Calldata

inductive OutputFormat where
  | json
  | protobuf
  | listing
  deriving DecidableEq, Repr

namespace OutputFormat

def all : List OutputFormat := [.json, .protobuf, .listing]

def name : OutputFormat → String
  | .json => "json"
  | .protobuf => "protobuf"
  | .listing => "listing"

/-- The format as reports call it. -/
def label : OutputFormat → String
  | .json => "Json"
  | .protobuf => "Protobuf"
  | .listing => "Listing"

end OutputFormat

def DecoderSet.render (d : DecoderSet) : OutputFormat → ByteArray
  | .json => (d.toJson.pretty ++ "\n").toUTF8
  | .protobuf => ⟨d.toProtobuf.toArray⟩
  | .listing => d.listing.toUTF8

end Calldata
