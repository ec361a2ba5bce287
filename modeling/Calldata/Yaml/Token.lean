/-!
The tokens of YAML text: scalars, indicators, and the starts and ends of collections, of which those
of block collections come from indentation. Covered are plain and quoted scalars, block and flow
collections, comments and document marks; text that uses more has no tokens.

Whether a scalar is a key shows only when a colon follows it, so the place of the last token that
may be a key is kept for every level of brackets, and the tokens that open a mapping are put in
there when the colon comes. Such a key stands on one line and within 1024 characters.
-/
namespace Calldata
namespace Yaml

inductive Token where
  | blockSequence
  | blockMapping
  | blockEnd
  | flowSequence
  | flowSequenceEnd
  | flowMapping
  | flowMappingEnd
  | entry
  | comma
  | key
  | value
  | scalar (text : String) (plain : Bool)
  | documentStart
  | documentEnd
  deriving DecidableEq, Repr

def isBreak (c : Char) : Bool :=
  c == '\n' || c == '\r' || c == '\x85' || c == ' ' || c == ' '

def isSpace (c : Char) : Bool := c == ' ' || c == '\t'

/-- A blank, a line break or the end. -/
def endsWord : List Char → Bool
  | [] => true
  | c :: _ => isSpace c || isBreak c

/-- Characters that a text may contain. -/
def isPrintable (c : Char) : Bool :=
  c == '\t' || c == '\n' || c == '\r' || (0x20 ≤ c.toNat && c.toNat ≤ 0x7E) || c == '\x85' ||
    (0xA0 ≤ c.toNat && c.toNat ≤ 0xFFFD) || 0x10000 ≤ c.toNat

/-- The break that a line break character stands for inside a scalar. -/
def normalBreak (c : Char) : Char := if c == ' ' || c == ' ' then c else '\n'

/-- A mark that starts or ends a document. -/
def isDocumentMark : List Char → Bool
  | '-' :: '-' :: '-' :: rest => endsWord rest
  | '.' :: '.' :: '.' :: rest => endsWord rest
  | _ => false

/-- A position in the text, and the text from there on. -/
structure Position where
  rest : List Char
  index : Nat
  line : Nat
  column : Nat

namespace Position

/-- Past a character that does not break the line. -/
def next (p : Position) (rest : List Char) : Position := ⟨rest, p.index + 1, p.line, p.column + 1⟩

/-- Past a line break of the given number of characters. -/
def nextLine (p : Position) (length : Nat) (rest : List Char) : Position :=
  ⟨rest, p.index + length, p.line + 1, 0⟩

end Position

/-- Blanks and line breaks inside a scalar that may still turn out to be its end. `breaks` holds
the characters from the first line break on, last first; an escaped break has no first character. -/
structure Gap where
  spaces : List Char
  breaks : Option (Option Char × List Char)

namespace Gap

def none : Gap := ⟨[], Option.none⟩

def isEmpty (g : Gap) : Bool := g.spaces.isEmpty && g.breaks.isNone

def addSpace (g : Gap) (c : Char) : Gap :=
  if g.breaks.isSome then g else { g with spaces := c :: g.spaces }

def addBreak (g : Gap) (c : Char) : Gap :=
  match g.breaks with
  | Option.none => ⟨[], some (some (normalBreak c), [])⟩
  | some (first, more) => ⟨[], some (first, normalBreak c :: more)⟩

/-- What the gap means between two parts of a scalar, put in front of a reversed text: a single
line break is a space, and of several the first is dropped. -/
def onto (g : Gap) (done : List Char) : List Char :=
  match g.breaks with
  | Option.none => g.spaces ++ done
  | some (some '\n', []) => ' ' :: done
  | some (some '\n', more) => more ++ done
  | some (some first, more) => more ++ first :: done
  | some (Option.none, more) => more ++ done

end Gap

/-- A scalar, where it ends, and whether a line break follows it directly. -/
structure Scalar where
  text : String
  position : Position
  atLineStart : Bool

/-- A scalar without quotes. It goes on over line breaks as long as the lines are indented by
`least` columns, and inside brackets as long as it likes. -/
def plainFrom (inFlow : Bool) (least : Nat) (done : List Char) (gap : Gap) :
    (p : Position) → List Char → Option Scalar
  | p, [] => some ⟨String.ofList done.reverse, { p with rest := [] }, gap.breaks.isSome⟩
  | p, c :: rest =>
    let stop : Option Scalar :=
      some ⟨String.ofList done.reverse, { p with rest := c :: rest }, gap.breaks.isSome⟩
    if isSpace c then
      if c == '\t' && gap.breaks.isSome && p.column < least then none
      else plainFrom inFlow least done (gap.addSpace c) (p.next rest) rest
    else if c == '\r' && rest.head? == some '\n' then
      plainFrom inFlow least done gap { p with index := p.index + 1 } rest
    else if isBreak c then plainFrom inFlow least done (gap.addBreak c) (p.nextLine 1 rest) rest
    else if !gap.isEmpty && ((!inFlow && p.column < least) || c == '#' ||
        (p.column == 0 && isDocumentMark (c :: rest))) then stop
    else if c == ':' && inFlow && (rest.head?.map (",?[]\x7b\x7d".toList.contains ·)).getD false then none
    else if (c == ':' && endsWord rest) || (inFlow && ",[]\x7b\x7d".toList.contains c) then stop
    else plainFrom inFlow least (c :: gap.onto done) Gap.none (p.next rest) rest

/-- A scalar in single quotes, from behind the opening quote; a quote inside is written twice. -/
def singleFrom (done : List Char) (gap : Gap) : (p : Position) → List Char → Option Scalar
  | _, [] => none
  | p, c :: rest =>
    if isSpace c then singleFrom done (gap.addSpace c) (p.next rest) rest
    else if c == '\r' && rest.head? == some '\n' then
      singleFrom done gap { p with index := p.index + 1 } rest
    else if isBreak c then singleFrom done (gap.addBreak c) (p.nextLine 1 rest) rest
    else if p.column == 0 && isDocumentMark (c :: rest) then none
    else if c == '\'' then
      match rest with
      | '\'' :: rest => singleFrom ('\'' :: gap.onto done) Gap.none ((p.next rest).next rest) rest
      | _ => some ⟨String.ofList (gap.onto done).reverse, p.next rest, false⟩
    else singleFrom (c :: gap.onto done) Gap.none (p.next rest) rest

/-- What an escape of one character stands for. -/
def escaped? : Char → Option Char
  | '0' => some '\x00'
  | 'a' => some '\x07'
  | 'b' => some '\x08'
  | 't' => some '\t'
  | '\t' => some '\t'
  | 'n' => some '\n'
  | 'v' => some '\x0b'
  | 'f' => some '\x0c'
  | 'r' => some '\r'
  | 'e' => some '\x1b'
  | ' ' => some ' '
  | '"' => some '"'
  | '/' => some '/'
  | '\\' => some '\\'
  | 'N' => some '\x85'
  | '_' => some '\xa0'
  | 'L' => some ' '
  | 'P' => some ' '
  | _ => none

/-- The number of hexadecimal digits after the letter of an escape by code point. -/
def codeLength? : Char → Option Nat
  | 'x' => some 2
  | 'u' => some 4
  | 'U' => some 8
  | _ => none

def hexDigit? (c : Char) : Option Nat :=
  if c.isDigit then some (c.toNat - '0'.toNat)
  else if 'a' ≤ c ∧ c ≤ 'f' then some (c.toNat - 'a'.toNat + 10)
  else if 'A' ≤ c ∧ c ≤ 'F' then some (c.toNat - 'A'.toNat + 10)
  else none

/-- A character from its hexadecimal code point. -/
def codePoint? (digits : List Char) : Option Char := do
  let n ← digits.foldlM (fun n c => do return n * 16 + (← hexDigit? c)) 0
  if n < 0xD800 ∨ (0xE000 ≤ n ∧ n ≤ 0x10FFFF) then some (Char.ofNat n) else none

/-- A scalar in double quotes, from behind the opening quote. -/
def doubleWithin : Nat → List Char → Gap → Position → Option Scalar
  | 0, _, _, _ => none
  | fuel + 1, done, gap, p =>
    match p.rest with
    | [] => none
    | c :: rest =>
      if isSpace c then doubleWithin fuel done (gap.addSpace c) (p.next rest)
      else if c == '\r' && rest.head? == some '\n' then
        doubleWithin fuel done gap { p with rest, index := p.index + 1 }
      else if isBreak c then doubleWithin fuel done (gap.addBreak c) (p.nextLine 1 rest)
      else if p.column == 0 && isDocumentMark (c :: rest) then none
      else if c == '"' then some ⟨String.ofList (gap.onto done).reverse, p.next rest, false⟩
      else if c == '\\' then
        match rest with
        | [] => none
        | '\r' :: '\n' :: rest =>
          doubleWithin fuel (gap.onto done) ⟨[], some (none, [])⟩ (p.nextLine 3 rest)
        | e :: rest =>
          if isBreak e then
            doubleWithin fuel (gap.onto done) ⟨[], some (none, [])⟩ (p.nextLine 2 rest)
          else
            match escaped? e, codeLength? e with
            | some c, _ => doubleWithin fuel (c :: gap.onto done) Gap.none ((p.next rest).next rest)
            | none, some n =>
              if (rest.take n).length = n then
                match codePoint? (rest.take n) with
                | some c =>
                  doubleWithin fuel (c :: gap.onto done) Gap.none
                    ⟨rest.drop n, p.index + 2 + n, p.line, p.column + 2 + n⟩
                | none => none
              else none
            | none, none => none
      else doubleWithin fuel (c :: gap.onto done) Gap.none (p.next rest)

/-- A token that may be the start of a key: how many tokens are in front of it, and where it is. A
key is required where a line of a block mapping starts. -/
structure Candidate where
  token : Nat
  index : Nat
  line : Nat
  column : Nat
  required : Bool

structure Scanner where
  position : Position
  tokens : Array Token
  /-- The number of open brackets. -/
  flow : Nat
  /-- The columns of the open block collections, innermost first. -/
  indents : List Nat
  /-- Whether a key may start here. -/
  keyAllowed : Bool
  /-- The last candidate at each level of brackets, innermost first. -/
  candidates : List (Option Candidate)

namespace Scanner

def start (text : List Char) : Scanner :=
  { position := ⟨text, 0, 0, 0⟩
    tokens := #[]
    flow := 0
    indents := []
    keyAllowed := true
    candidates := [none] }

def push (s : Scanner) (t : Token) : Scanner := { s with tokens := s.tokens.push t }

/-- Opens a block collection at a column, unless one is open there or further in. -/
def roll (s : Scanner) (column : Nat) (t : Token) (place : Nat) : Scanner :=
  if 0 < s.flow then s
  else
    match s.indents with
    | indent :: _ =>
      if indent < column then
        { s with indents := column :: s.indents, tokens := s.tokens.insertIdxIfInBounds place t }
      else s
    | [] => { s with indents := [column], tokens := s.tokens.insertIdxIfInBounds place t }

/-- Closes the block collections that are further in than a column. -/
def closeTo (column : Nat) : List Nat → Array Token → List Nat × Array Token
  | [], tokens => ([], tokens)
  | indent :: rest, tokens =>
    if column < indent then closeTo column rest (tokens.push .blockEnd) else (indent :: rest, tokens)

def unroll (s : Scanner) (column : Nat) : Scanner :=
  if 0 < s.flow then s
  else
    let (indents, tokens) := closeTo column s.indents s.tokens
    { s with indents, tokens }

def unrollAll (s : Scanner) : Scanner :=
  if 0 < s.flow then s
  else { s with indents := [], tokens := s.indents.foldl (fun ts _ => ts.push .blockEnd) s.tokens }

/-- Gives up the candidate of the current level, which must not be a required key. -/
def dropCandidate (s : Scanner) : Option Scanner :=
  match s.candidates with
  | some c :: rest => if c.required then none else some { s with candidates := none :: rest }
  | _ => some s

/-- Makes the coming token a candidate if a key may start here. -/
def saveCandidate (s : Scanner) : Option Scanner :=
  if s.keyAllowed then do
    let s ← s.dropCandidate
    let p := s.position
    let required := s.flow == 0 && s.indents.head? == some p.column
    return { s with candidates := some ⟨s.tokens.size, p.index, p.line, p.column, required⟩ :: s.candidates.tail }
  else some s

/-- Past blanks, comments and line breaks. -/
def skipFrom (flow : Bool) (inComment keyAllowed : Bool) : (p : Position) → List Char → Position × Bool
  | p, [] => ({ p with rest := [] }, keyAllowed)
  | p, c :: rest =>
    if c == '\r' && rest.head? == some '\n' then
      skipFrom flow inComment keyAllowed { p with index := p.index + 1 } rest
    else if isBreak c then skipFrom flow false (keyAllowed || !flow) (p.nextLine 1 rest) rest
    else if inComment || c == ' ' || (c == '\t' && (flow || !keyAllowed)) then
      skipFrom flow inComment keyAllowed (p.next rest) rest
    else if c == '#' then skipFrom flow true keyAllowed (p.next rest) rest
    else ({ p with rest := c :: rest }, keyAllowed)

def skip (s : Scanner) : Scanner :=
  let (position, keyAllowed) := skipFrom (0 < s.flow) false s.keyAllowed s.position s.position.rest
  { s with position, keyAllowed }

/-- Takes an indicator of one character. -/
def take (s : Scanner) (t : Token) (rest : List Char) : Scanner :=
  { s.push t with position := s.position.next rest }

def openFlow (s : Scanner) (t : Token) (rest : List Char) : Option Scanner := do
  let s ← s.saveCandidate
  return { s.take t rest with
    flow := s.flow + 1
    keyAllowed := true
    candidates := none :: s.candidates }

def closeFlow (s : Scanner) (t : Token) (rest : List Char) : Option Scanner := do
  let s ← s.dropCandidate
  return { s.take t rest with
    flow := s.flow - 1
    keyAllowed := false
    candidates := if 0 < s.flow then s.candidates.tail else s.candidates }

def comma (s : Scanner) (rest : List Char) : Option Scanner := do
  let s ← s.dropCandidate
  return { s.take .comma rest with keyAllowed := true }

def blockEntry (s : Scanner) (rest : List Char) : Option Scanner := do
  if s.flow == 0 && !s.keyAllowed then none
  else
    let s ← (s.roll s.position.column .blockSequence s.tokens.size).dropCandidate
    return { s.take .entry rest with keyAllowed := true }

def explicitKey (s : Scanner) (rest : List Char) : Option Scanner := do
  if s.flow == 0 && !s.keyAllowed then none
  else
    let s ← (s.roll s.position.column .blockMapping s.tokens.size).dropCandidate
    return { s.take .key rest with keyAllowed := s.flow == 0 }

/-- The candidate of the current level if it can still be a key; none at all if it is too late for
a key that is required. -/
def candidate (s : Scanner) : Option (Option Candidate) :=
  match s.candidates with
  | some c :: _ =>
    if c.line < s.position.line || c.index + 1024 < s.position.index then
      if c.required then none else some none
    else some (some c)
  | _ => some none

def colon (s : Scanner) (rest : List Char) : Option Scanner := do
  match ← s.candidate with
  | some c =>
    let s := { s with tokens := s.tokens.insertIdxIfInBounds c.token .key }
    let s := s.roll c.column .blockMapping c.token
    return { s.take .value rest with keyAllowed := false, candidates := none :: s.candidates.tail }
  | none =>
    if s.flow == 0 && !s.keyAllowed then none
    else
      let s := s.roll s.position.column .blockMapping s.tokens.size
      return { s.take .value rest with
        keyAllowed := s.flow == 0
        candidates := none :: s.candidates.tail }

def documentMark (s : Scanner) (t : Token) (rest : List Char) : Option Scanner := do
  let s ← s.unrollAll.dropCandidate
  let p := s.position
  return { s.push t with position := ⟨rest, p.index + 3, p.line, p.column + 3⟩, keyAllowed := false }

/-- Takes a scalar that `read` finds. -/
def scalar (s : Scanner) (plain : Bool) (read : Scanner → Option Scalar) : Option Scanner := do
  let s ← s.saveCandidate
  let found ← read s
  return { s.push (.scalar found.text plain) with
    position := found.position
    keyAllowed := found.atLineStart }

/-- Whether a plain scalar can start here. -/
def startsPlain (flow : Bool) : List Char → Bool
  | [] => false
  | '-' :: rest => !(rest.head?.map isSpace).getD false
  | '?' :: rest => !flow && !endsWord rest
  | ':' :: rest => !flow && !endsWord rest
  | c :: _ => !",[]\x7b\x7d#&*!|>'\"%@\x60".toList.contains c && !isSpace c

/-- Takes the next token of a text that is not blank here. -/
def step (s : Scanner) : Option Scanner :=
  let p := s.position
  let flow := decide (0 < s.flow)
  if p.column == 0 && isDocumentMark p.rest then
    match p.rest with
    | '-' :: _ => s.documentMark .documentStart (p.rest.drop 3)
    | _ => s.documentMark .documentEnd (p.rest.drop 3)
  else if p.column == 0 && p.rest.head? == some '%' then none
  else
    match p.rest with
    | [] => some s
    | '[' :: rest => s.openFlow .flowSequence rest
    | '\x7b' :: rest => s.openFlow .flowMapping rest
    | ']' :: rest => s.closeFlow .flowSequenceEnd rest
    | '\x7d' :: rest => s.closeFlow .flowMappingEnd rest
    | ',' :: rest => s.comma rest
    | '\'' :: rest => s.scalar false fun s => singleFrom [] Gap.none (s.position.next rest) rest
    | '"' :: rest => s.scalar false fun s =>
        doubleWithin (rest.length + 1) [] Gap.none (s.position.next rest)
    | c :: rest =>
      if c == '-' && endsWord rest then s.blockEntry rest
      else if c == '?' && (flow || endsWord rest) then s.explicitKey rest
      else if c == ':' && (flow || endsWord rest) then s.colon rest
      else if startsPlain flow p.rest then
        s.scalar true fun s =>
          plainFrom flow ((s.indents.head?.map (· + 1)).getD 0) [] Gap.none s.position s.position.rest
      else none

/-- Every step takes one character at least. -/
def stepsWithin : Nat → Scanner → Option (List Token)
  | 0, _ => none
  | fuel + 1, s =>
    let s := s.skip
    if s.position.rest.isEmpty then
      (s.unrollAll.dropCandidate).map fun s => s.tokens.toList
    else do
      let s ← (s.unroll s.position.column).step
      stepsWithin fuel s

end Scanner

def dropMark : List Char → List Char
  | '﻿' :: rest => rest
  | cs => cs

def tokens? (text : String) : Option (List Token) :=
  let cs := dropMark text.toList
  if cs.all isPrintable then Scanner.stepsWithin (cs.length + 1) (Scanner.start cs) else none

end Yaml
end Calldata
