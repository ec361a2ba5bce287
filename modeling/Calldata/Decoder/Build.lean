import Calldata.Decoder.Basic
import Calldata.Plan.Synthesis

/-!
Building the decoder of one root: its layouts, then its plan.
-/
namespace Calldata

inductive DecoderError where
  | layout (error : LayoutError)
  | synthesis (error : SynthesisError)
  deriving DecidableEq, Repr

def DecoderError.message : DecoderError → String
  | .layout error => error.message
  | .synthesis error => error.message

def Decoder.ofRoot (arena : Arena) (options : Options) (name : String) (root : NodeId) :
    Except DecoderError Decoder :=
  match LayoutTable.ofTree arena root with
  | .error e => .error (.layout e)
  | .ok layouts =>
    match Synthesizer.build ⟨arena, layouts, options⟩ root name with
    | .error e => .error (.synthesis e)
    | .ok plan => .ok ⟨name, options.strict, plan⟩

end Calldata
