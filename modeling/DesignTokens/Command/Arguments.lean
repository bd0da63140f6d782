/-!
# Reading command lines

A `Grammar` says which options a command has, whether it takes an operand, and which commands may
follow it. `Grammar.read` reads the arguments of one level up to the name of a following command.

An option is long (`--name`) or short (`-n`); short ones may be written in one argument. The value
of an option is attached (`--name=value`, `-nvalue`, `-n=value`) or the next argument, which must
not look like an option then. Behind `--` everything is an operand. A value is taken in, and refused
if the option had one before, only when the next option, operand or the end of the level is reached.
-/

namespace DesignTokens.Arguments

/-- What an option does. -/
inductive OptionKind
  /-- It is there or not. -/
  | flag
  /-- It has one value. -/
  | single
  /-- It has a value of a list each time that it is given. -/
  | choices (values : List String)
  /-- It asks for help. -/
  | help
  /-- It asks for the version. -/
  | version
  deriving DecidableEq

structure OptionShape where
  name : String
  short : Option Char
  kind : OptionKind
  deriving DecidableEq

/-- What a level of a command line may hold. -/
structure Grammar where
  options : List OptionShape
  takesOperand : Bool
  commands : List String

/-- What was read of a level. -/
structure Matches where
  flags : List String := []
  values : List (String × String) := []
  operand : Option String := none

namespace Matches

def hasFlag (found : Matches) (name : String) : Bool :=
  found.flags.contains name

def value? (found : Matches) (name : String) : Option String :=
  found.values.lookup name

/-- All values of an option in order, unless it was not given. -/
def values? (found : Matches) (name : String) : Option (List String) :=
  match found.values.filter (·.1 == name) with
  | [] => none
  | given => some (given.map (·.2))

def isEmpty (found : Matches) : Bool :=
  found.flags.isEmpty && found.values.isEmpty && found.operand.isNone

end Matches

/-- Why reading stops before the end. -/
inductive Stop
  | help
  | version
  | misuse
  deriving DecidableEq

/-- The option whose value is due or has just been given. -/
structure Pending where
  shape : OptionShape
  value : Option String

/-- How far the reading of a level is. -/
structure Progress where
  found : Matches := {}
  pending : Option Pending := none
  operandsOnly : Bool := false

namespace Progress

/-- Takes in the value that has been given last. -/
def settle (p : Progress) : Except Stop Progress :=
  match p.pending with
  | none => .ok p
  | some ⟨_, none⟩ => .error .misuse
  | some ⟨shape, some value⟩ =>
    let refused :=
      match shape.kind with
      | .choices values => !values.contains value
      | _ => (p.found.value? shape.name).isSome
    if refused then .error .misuse
    else
      .ok { p with
        found := { p.found with values := p.found.values ++ [(shape.name, value)] }
        pending := none }

/-- Takes in an option that has no value. -/
def giveFlag (p : Progress) (shape : OptionShape) : Except Stop Progress := do
  let p ← p.settle
  match shape.kind with
  | .help => .error .help
  | .version => .error .version
  | _ =>
    if p.found.hasFlag shape.name then .error .misuse
    else return { p with found := { p.found with flags := p.found.flags ++ [shape.name] } }

/-- Takes in an option that has a value, with the value if it is attached. -/
def giveOption (p : Progress) (shape : OptionShape) (attached : Option String) :
    Except Stop Progress := do
  let p ← p.settle
  match attached with
  | some _ => ({ p with pending := some ⟨shape, attached⟩ } : Progress).settle
  | none => return { p with pending := some ⟨shape, none⟩ }

def giveOperand (p : Progress) (grammar : Grammar) (operand : String) : Except Stop Progress := do
  let p ← p.settle
  if grammar.takesOperand && p.found.operand.isNone then
    return { p with found := { p.found with operand := some operand } }
  else .error .misuse

def awaitsValue (p : Progress) : Bool :=
  p.pending.any (·.value.isNone)

def giveValue (p : Progress) (value : String) : Progress :=
  { p with pending := p.pending.map fun pending => { pending with value := some value } }

end Progress

namespace OptionShape

def takesValue (shape : OptionShape) : Bool :=
  match shape.kind with
  | .single | .choices _ => true
  | _ => false

end OptionShape

namespace Grammar

def long? (grammar : Grammar) (name : String) : Option OptionShape :=
  grammar.options.find? (·.name == name)

def short? (grammar : Grammar) (letter : Char) : Option OptionShape :=
  grammar.options.find? (·.short == some letter)

/-- A long option, read behind its dashes. -/
def readLong (grammar : Grammar) (text : List Char) (p : Progress) : Except Stop Progress :=
  let name := String.ofList (text.takeWhile (· != '='))
  let attached :=
    match text.dropWhile (· != '=') with
    | [] => none
    | _ :: value => some (String.ofList value)
  match grammar.long? name with
  | none => .error .misuse
  | some shape =>
    if shape.takesValue then p.giveOption shape attached
    else if attached.isSome then .error .misuse
    else p.giveFlag shape

/-- Short options in one argument, read behind its dash. -/
def readShort (grammar : Grammar) : List Char → Progress → Except Stop Progress
  | [], p => .ok p
  | letter :: rest, p =>
    match grammar.short? letter with
    | none => .error .misuse
    | some shape =>
      if shape.takesValue then
        match rest with
        | [] => p.giveOption shape none
        | '=' :: value => p.giveOption shape (some (String.ofList value))
        | value => p.giveOption shape (some (String.ofList value))
      else do
        readShort grammar rest (← p.giveFlag shape)

/-- Reads the arguments of a level, up to the name of a command with the arguments behind it. -/
def read (grammar : Grammar) :
    Progress → List String → Except Stop (Progress × Option (String × List String))
  | p, [] => .ok (p, none)
  | p, argument :: rest =>
    if p.operandsOnly then do
      read grammar (← p.giveOperand grammar argument) rest
    else if !p.awaitsValue && grammar.commands.contains argument then
      .ok (p, some (argument, rest))
    else
      match argument.toList with
      | ['-', '-'] => read grammar { p with operandsOnly := true } rest
      | '-' :: '-' :: text => do
        read grammar (← grammar.readLong text p) rest
      | '-' :: letter :: letters => do
        read grammar (← grammar.readShort (letter :: letters) p) rest
      | _ =>
        if p.awaitsValue then read grammar (p.giveValue argument) rest
        else do
          read grammar (← p.giveOperand grammar argument) rest

end Grammar
end DesignTokens.Arguments
