import Calldata.Command.Basic

/-!
Command lines. An option has a long name and may have a letter; its value is the next argument or
stands behind `=`, and behind a letter also directly. Letters may be joined. Only some options may
be repeated.
-/
namespace Calldata
namespace Arguments

inductive Arity where
  | flag
  | value
  | values
  deriving DecidableEq, Repr

structure Switch where
  name : String
  letter : Option Char
  arity : Arity

/-- A use of a switch, with its value if it takes one. -/
structure Use where
  switch : Switch
  value : String

def looksLikeSwitch (argument : String) : Bool :=
  argument.startsWith "-" && argument != "-"

/-- The value in the next argument, and the arguments after it. -/
def nextValue? : List String → Option (String × List String)
  | [] => none
  | argument :: rest => if looksLikeSwitch argument then none else some (argument, rest)

/-- Letters behind one dash, and the arguments after them. -/
def letters? (switches : List Switch) (rest : List String) : List Char → Option (List Use × List String)
  | [] => some ([], rest)
  | c :: cs => do
    let switch ← switches.find? (·.letter == some c)
    if switch.arity = .flag then
      let (uses, rest) ← letters? switches rest cs
      return (⟨switch, ""⟩ :: uses, rest)
    else
      match cs with
      | [] =>
        let (value, rest) ← nextValue? rest
        return ([⟨switch, value⟩], rest)
      | '=' :: value => return ([⟨switch, String.ofList value⟩], rest)
      | value => return ([⟨switch, String.ofList value⟩], rest)

/-- A long name, and the arguments after it and its value. -/
def long? (switches : List Switch) (rest : List String) (cs : List Char) : Option (List Use × List String) := do
  let name := String.ofList (cs.takeWhile (· ≠ '='))
  let switch ← switches.find? (·.name == name)
  match switch.arity, cs.dropWhile (· ≠ '=') with
  | .flag, [] => return ([⟨switch, ""⟩], rest)
  | .flag, _ :: _ => none
  | _, [] =>
    let (value, rest) ← nextValue? rest
    return ([⟨switch, value⟩], rest)
  | _, _ :: value => return ([⟨switch, String.ofList value⟩], rest)

/-- The switches in front of the first argument that is none, and the arguments from there on.
Every round takes one argument at least. -/
def usesWithin (switches : List Switch) : Nat → List String → Option (List Use × List String)
  | 0, arguments => if arguments.isEmpty then some ([], []) else none
  | _, [] => some ([], [])
  | fuel + 1, argument :: rest =>
    match argument.toList with
    | ['-', '-'] => if rest.isEmpty then some ([], []) else none
    | '-' :: '-' :: cs => do
      let (uses, rest) ← long? switches rest cs
      let (more, rest) ← usesWithin switches fuel rest
      return (uses ++ more, rest)
    | '-' :: c :: cs => do
      let (uses, rest) ← letters? switches rest (c :: cs)
      let (more, rest) ← usesWithin switches fuel rest
      return (uses ++ more, rest)
    | _ => some ([], argument :: rest)

/-- Switches that take part at most once each, unless they may be repeated. -/
def uses? (switches : List Switch) (arguments : List String) : Option (List Use × List String) := do
  let (uses, rest) ← usesWithin switches arguments.length arguments
  if switches.all fun s => s.arity = .values || uses.countP (·.switch.name == s.name) ≤ 1 then
    some (uses, rest)
  else none

def has (uses : List Use) (name : String) : Bool := uses.any (·.switch.name == name)

def valuesOf (uses : List Use) (name : String) : List String :=
  (uses.filter (·.switch.name == name)).map Use.value

def verbose : Switch := ⟨"verbose", some 'v', .flag⟩
def files : Switch := ⟨"files", some 'f', .values⟩
def types : Switch := ⟨"type", some 't', .values⟩
def json : Switch := ⟨"json", none, .flag⟩
def strict : Switch := ⟨"strict", none, .flag⟩
def noMerge : Switch := ⟨"no-merge", none, .flag⟩
def format : Switch := ⟨"format", none, .value⟩
def output : Switch := ⟨"output", some 'o', .value⟩

/-- Paths are not empty, and there must be one file at least. -/
def filesOf? (uses : List Use) : Option (List String) :=
  let paths := valuesOf uses files.name
  if paths.isEmpty || paths.contains "" then none else some paths

def outputOf? (uses : List Use) : Option (Option String) :=
  match valuesOf uses output.name with
  | [] => some none
  | path :: _ => if path = "" then none else some (some path)

def formatOf? (uses : List Use) : Option OutputFormat :=
  match valuesOf uses format.name with
  | [] => some .json
  | name :: _ => OutputFormat.all.find? (·.name == name)

def analyze? (isVerbose : Bool) (arguments : List String) : Option Command := do
  let (uses, rest) ← uses? [verbose, files, types, json] arguments
  if !rest.isEmpty then none
  else
    return .analyze {
      files := ← filesOf? uses
      types := valuesOf uses types.name
      json := has uses json.name
      verbose := isVerbose || has uses verbose.name }

def codegen? (isVerbose : Bool) (arguments : List String) : Option Command := do
  let (uses, rest) ← uses? [verbose, files, types, strict, noMerge, format, output] arguments
  if !rest.isEmpty then none
  else
    return .codegen {
      files := ← filesOf? uses
      types := valuesOf uses types.name
      options := { strict := has uses strict.name, merge := !has uses noMerge.name }
      format := ← formatOf? uses
      output := ← outputOf? uses
      verbose := isVerbose || has uses verbose.name }

end Arguments

/-- The command that a command line asks for. -/
def Command.ofArguments? (arguments : List String) : Option Command := do
  let (uses, rest) ← Arguments.uses? [Arguments.verbose] arguments
  let isVerbose := Arguments.has uses Arguments.verbose.name
  match rest with
  | "analyze" :: rest => Arguments.analyze? isVerbose rest
  | "codegen" :: rest => Arguments.codegen? isVerbose rest
  | _ => none

end Calldata
