import Calldata.Datum
import Calldata.Text.Decimal
import Calldata.Yaml.Token

/-!
Reading YAML text: one document, as data. A scalar without quotes can be text, a count and the mark
of an absent value at the same time; a quoted one is only text. Lists are not positional.
-/
namespace Calldata
namespace Yaml

def baseDigit? (base : Nat) (c : Char) : Option Nat := do
  let d ← hexDigit? c
  if d < base then some d else none

def inBase? (base : Nat) (cs : List Char) : Option Nat :=
  if cs.isEmpty then none
  else do
    let n ← cs.foldlM (fun n c => do return n * base + (← baseDigit? base c)) 0
    if n < UInt64.size then some n else none

/-- The count that a plain scalar spells: decimal without needless zeros in front, or with a mark
for the base; a plus sign may stand in front. -/
def count? (text : List Char) : Option Nat :=
  let unsigned := match text with
    | '+' :: rest => rest
    | cs => cs
  match unsigned with
  | '0' :: 'x' :: rest => inBase? 16 rest
  | '0' :: 'o' :: rest => inBase? 8 rest
  | '0' :: 'b' :: rest => inBase? 2 rest
  | '0' :: _ :: _ => none
  | cs => Text.digits? UInt64.size cs

def isNull (text : String) : Bool :=
  text == "~" || text == "null" || text == "Null" || text == "NULL"

def ofScalar (text : String) (plain : Bool) : Datum :=
  if plain then
    if text == "" then .blank else .scalar (some text) (count? text.toList) (isNull text)
  else .scalar (some text) none false

mutual

/-- A node at the start of the tokens, and the tokens after it. In block context it may be a block
collection; behind a key it may be a sequence that is not indented. -/
def node : Nat → (block behindKey : Bool) → List Token → Option (Datum × List Token)
  | 0, _, _, _ => none
  | fuel + 1, block, behindKey, tokens =>
    match tokens with
    | .scalar text plain :: rest => some (ofScalar text plain, rest)
    | .flowSequence :: rest => flowItems fuel true [] rest
    | .flowMapping :: rest => flowMembers fuel true [] rest
    | .blockSequence :: rest => if block then blockItems fuel [] rest else none
    | .blockMapping :: rest => if block then blockMembers fuel [] rest else none
    | .entry :: _ => if behindKey then looseItems fuel [] tokens else none
    | _ => none

/-- The entries of a block sequence, up to its end. -/
def blockItems : Nat → List Datum → List Token → Option (Datum × List Token)
  | 0, _, _ => none
  | fuel + 1, done, tokens =>
    match tokens with
    | .blockEnd :: rest => some (.list done.reverse false, rest)
    | .entry :: .entry :: rest => blockItems fuel (.blank :: done) (.entry :: rest)
    | .entry :: .blockEnd :: rest => blockItems fuel (.blank :: done) (.blockEnd :: rest)
    | .entry :: rest => do
      let (item, rest) ← node fuel true false rest
      blockItems fuel (item :: done) rest
    | _ => none

/-- The entries of a sequence that is not indented, up to whatever is not an entry. -/
def looseItems : Nat → List Datum → List Token → Option (Datum × List Token)
  | 0, _, _ => none
  | fuel + 1, done, tokens =>
    match tokens with
    | .entry :: .entry :: rest => looseItems fuel (.blank :: done) (.entry :: rest)
    | .entry :: .key :: rest => looseItems fuel (.blank :: done) (.key :: rest)
    | .entry :: .value :: rest => looseItems fuel (.blank :: done) (.value :: rest)
    | .entry :: .blockEnd :: rest => looseItems fuel (.blank :: done) (.blockEnd :: rest)
    | .entry :: rest => do
      let (item, rest) ← node fuel true false rest
      looseItems fuel (item :: done) rest
    | rest => some (.list done.reverse false, rest)

/-- The members of a block mapping, up to its end. -/
def blockMembers : Nat → List (Datum × Datum) → List Token → Option (Datum × List Token)
  | 0, _, _ => none
  | fuel + 1, done, tokens =>
    match tokens with
    | .blockEnd :: rest => some (.ofPairs done.reverse, rest)
    | .key :: rest => do
      let (key, rest) ←
        match rest with
        | .key :: _ | .value :: _ | .blockEnd :: _ => some (.blank, rest)
        | _ => node fuel true true rest
      let (item, rest) ←
        match rest with
        | .value :: .key :: _ | .value :: .value :: _ | .value :: .blockEnd :: _ =>
          some (.blank, rest.tail)
        | .value :: rest => node fuel true true rest
        | _ => some (.blank, rest)
      blockMembers fuel ((key, item) :: done) rest
    | _ => none

/-- The items of a sequence in brackets; `first` says that none has been read. An item may be a
single pair. -/
def flowItems : Nat → (first : Bool) → List Datum → List Token → Option (Datum × List Token)
  | 0, _, _, _ => none
  | fuel + 1, first, done, tokens =>
    match tokens with
    | .flowSequenceEnd :: rest => some (.list done.reverse false, rest)
    | _ => do
      let tokens ←
        match first, tokens with
        | true, tokens => some tokens
        | false, .comma :: rest => some rest
        | false, _ => none
      match tokens with
      | .flowSequenceEnd :: rest => some (.list done.reverse false, rest)
      | .key :: rest =>
        let (key, rest) ←
          match rest with
          | .value :: _ | .comma :: _ | .flowSequenceEnd :: _ => some (.blank, rest)
          | _ => node fuel false false rest
        let (item, rest) ←
          match rest with
          | .value :: .comma :: _ | .value :: .flowSequenceEnd :: _ => some (.blank, rest.tail)
          | .value :: rest => node fuel false false rest
          | _ => some (.blank, rest)
        flowItems fuel false (.ofPairs [(key, item)] :: done) rest
      | _ =>
        let (item, rest) ← node fuel false false tokens
        flowItems fuel false (item :: done) rest

/-- The members of a mapping in braces; a member may be a key alone. -/
def flowMembers : Nat → (first : Bool) → List (Datum × Datum) → List Token →
    Option (Datum × List Token)
  | 0, _, _, _ => none
  | fuel + 1, first, done, tokens =>
    match tokens with
    | .flowMappingEnd :: rest => some (.ofPairs done.reverse, rest)
    | _ => do
      let tokens ←
        match first, tokens with
        | true, tokens => some tokens
        | false, .comma :: rest => some rest
        | false, _ => none
      match tokens with
      | .flowMappingEnd :: rest => some (.ofPairs done.reverse, rest)
      | .key :: rest =>
        let (key, rest) ←
          match rest with
          | .value :: _ | .comma :: _ | .flowMappingEnd :: _ => some (.blank, rest)
          | _ => node fuel false false rest
        let (item, rest) ←
          match rest with
          | .value :: .comma :: _ | .value :: .flowMappingEnd :: _ => some (.blank, rest.tail)
          | .value :: rest => node fuel false false rest
          | _ => some (.blank, rest)
        flowMembers fuel false ((key, item) :: done) rest
      | _ =>
        let (key, rest) ← node fuel false false tokens
        flowMembers fuel false ((key, .blank) :: done) rest

end

/-- The content of a document, and the tokens after it. -/
def content (tokens : List Token) : Option (Datum × List Token) :=
  match tokens with
  | [] | .documentEnd :: _ | .documentStart :: _ => some (.blank, tokens)
  | _ => node (2 * tokens.length + 2) true false tokens

/-- A text with one document; an empty text holds a blank. -/
def parse? (text : String) : Option Datum := do
  let tokens ← tokens? text
  let (datum, rest) ←
    match tokens with
    | .documentStart :: rest => content rest
    | .documentEnd :: _ => none
    | tokens => content tokens
  if rest.all (· == .documentEnd) then some datum else none

end Yaml
end Calldata
