import DesignTokens.Command.Arguments
import DesignTokens.Platform

/-!
# What the tool is asked to do

The command line of the tool: `Invocation.read` turns arguments into an `Invocation`, or says why
there is none. A global option may stand at either level; where it has a value at both, the inner
one counts.
-/

namespace DesignTokens

open Arguments (Grammar Matches OptionShape Progress Stop)

structure ConvertArguments where
  input : String
  format : Option String
  output : Option String
  destination : Option String

structure BuildArguments where
  input : String
  brand : String
  platforms : Option (List Platform)
  tokensDir : Option String
  out : Option String

inductive Request
  | nothing
  | convert (arguments : ConvertArguments)
  | build (arguments : BuildArguments)

structure Invocation where
  listFormats : Bool
  verbose : Bool
  config : Option String
  request : Request

namespace Invocation

/-! ### Grammars -/

def globalOptions : List OptionShape :=
  [⟨"list-formats", none, .flag⟩, ⟨"config", none, .single⟩, ⟨"verbose", some 'v', .flag⟩,
   ⟨"help", some 'h', .help⟩]

def topGrammar : Grammar :=
  { options := globalOptions ++ [⟨"version", some 'V', .version⟩]
    takesOperand := false
    commands := ["convert", "build", "help"] }

def convertGrammar : Grammar :=
  { options := globalOptions ++
      [⟨"to", none, .single⟩, ⟨"output", some 'o', .single⟩, ⟨"destination", none, .single⟩]
    takesOperand := true
    commands := [] }

def buildGrammar : Grammar :=
  { options := globalOptions ++
      [⟨"brand", none, .single⟩, ⟨"platform", none, .choices (Platform.all.map Platform.name)⟩,
       ⟨"tokens-dir", none, .single⟩, ⟨"out", none, .single⟩]
    takesOperand := true
    commands := [] }

/-! ### Reading -/

/-- Reads all arguments of the last level. -/
def readLast (grammar : Grammar) (arguments : List String) : Except Stop Matches := do
  let (progress, _) ← grammar.read {} arguments
  return (← progress.settle).found

/-- Something that has to be given. -/
def required {α : Type} : Option α → Except Stop α
  | some value => .ok value
  | none => .error .misuse

def readConvert (arguments : List String) : Except Stop (Matches × Request) := do
  let found ← readLast convertGrammar arguments
  return (found, .convert {
    input := ← required found.operand
    format := found.value? "to"
    output := found.value? "output"
    destination := found.value? "destination" })

def readBuild (arguments : List String) : Except Stop (Matches × Request) := do
  let found ← readLast buildGrammar arguments
  return (found, .build {
    input := ← required found.operand
    brand := ← required (found.value? "brand")
    platforms := (found.values? "platform").map (·.filterMap Platform.ofName?)
    tokensDir := found.value? "tokens-dir"
    out := found.value? "out" })

/-- Whether the arguments of `help` name a command, or none. -/
def isHelpTopic : List String → Bool
  | [] => true
  | [topic] => topGrammar.commands.contains topic
  | _ => false

def readCommand (name : String) (arguments : List String) : Except Stop (Matches × Request) :=
  match name with
  | "convert" => readConvert arguments
  | "build" => readBuild arguments
  | _ => .error (if isHelpTopic arguments then .help else .misuse)

/-- The call that the arguments of both levels say. -/
def ofMatches (outer inner : Matches) (request : Request) : Invocation :=
  { listFormats := outer.hasFlag "list-formats" || inner.hasFlag "list-formats"
    verbose := outer.hasFlag "verbose" || inner.hasFlag "verbose"
    config := (inner.value? "config").or (outer.value? "config")
    request }

/-- Reads a command line. It must say something. -/
def read (arguments : List String) : Except Stop Invocation := do
  match ← topGrammar.read {} arguments with
  | (progress, some (name, rest)) =>
    let (inner, request) ← readCommand name rest
    return ofMatches (← progress.settle).found inner request
  | (progress, none) =>
    let outer := (← progress.settle).found
    if outer.isEmpty then .error .misuse else return ofMatches outer {} .nothing

end Invocation
end DesignTokens
