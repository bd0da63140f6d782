import DesignTokens.Command.Extras
import DesignTokens.Command.Host
import DesignTokens.Command.Invocation
import DesignTokens.Config.Layers
import DesignTokens.Dictionary.Export
import DesignTokens.Platform.Plan
import DesignTokens.Registry

/-!
# Running the tool

`Tool.run` takes the arguments of a call and works with a host: it lists the formats, converts a
dictionary into one document, or builds the files of a brand. It answers with the exit code: 0 when
all went well, 1 when something went wrong, which the diagnostics then tell, 2 for a misused command
line.
-/

namespace DesignTokens.Tool

open Arguments (Stop)

variable {m : Type → Type} [Monad m]

/-- A part of a run. It fails with the text of its diagnostics. -/
abbrev Run (m : Type → Type) : Type → Type := ExceptT String m

/-- Fails unless a file operation succeeds. -/
def attempt {α : Type} (context : String) (operation : m (Except FileError α)) : Run m α := do
  match ← (operation : Run m _) with
  | .ok value => return value
  | .error cause => throw (context ++ ": " ++ cause.message ++ "\n")

def require {α : Type} (result : Except Error α) : Run m α :=
  match result with
  | .ok value => pure value
  | .error cause => throw ("Error: " ++ cause.message ++ "\n")

/-! ### Settings -/

/-- The file of this name, or the one with `.toml` behind it. -/
def settingsFile (host : Host m) (name : String) (required : Bool) : m SettingsFile := do
  let longer := Path.appendExtension name "toml"
  let path ← do
    if ← host.isFile name then pure (some name)
    else if ← host.isFile longer then pure (some longer)
    else pure none
  match path with
  | none => return ⟨name, none, required⟩
  | some path =>
    match ← host.readText path with
    | .ok text => return ⟨name, some text, required⟩
    | .error _ => return ⟨name, none, required⟩

/-- Loads the settings of `tokens.toml`, if it is there, and of the file that was named. -/
def loadSettings (host : Host m) (named : Option String) : Run m Settings := do
  let standing ← (settingsFile host "tokens.toml" false : m _)
  let files ← match named with
    | none => pure [standing]
    | some name => do
      let file ← (settingsFile host name true : m _)
      pure [standing, file]
  match Settings.load (files.map .file) with
  | .ok settings => return settings
  | .error cause => throw ("Failed to load configuration: " ++ cause.message ++ "\n")

/-! ### Commands -/

/-- A name with blanks behind it, for a column of texts. -/
def column (width : Nat) (text : String) : String :=
  text ++ String.ofList (List.replicate (width - text.length) ' ')

def listing : String :=
  "Available formats:\n\n" ++
    String.join (Registry.standard.descriptions.map fun (name, description) =>
      "  " ++ column 36 name ++ " " ++ description ++ "\n") ++
    "\nPlatforms:\n" ++
    String.join (Platform.all.map fun platform => "  " ++ platform.name ++ "\n")

def loadDictionary (host : Host m) (path : String) : Run m Dictionary := do
  let source ← attempt ("Error reading file '" ++ path ++ "'") (host.readText path)
  require (Dictionary.ofExport source)

/-- The format that was named, or that the name of the output calls for. -/
def formatName (arguments : ConvertArguments) : Run m String :=
  match arguments.format.or (arguments.output.bind Registry.standard.forFile?) with
  | some name => pure name
  | none =>
    throw ("Error: Could not detect format from the output filename\n" ++
      "Please specify --to explicitly\n")

/-- The name that decides on the header: the destination, the name of the output, or one that suits
the format. -/
def destinationOf (arguments : ConvertArguments) (format : String) : String :=
  (arguments.destination.or (arguments.output.bind Path.fileName?)).getD
    (Registry.standard.standardDestination format)

def writeText (host : Host m) (path text : String) : Run m Unit :=
  attempt ("Error writing file '" ++ path ++ "'") (host.writeText path text)

def convert (host : Host m) (settings : Settings) (extras : Params)
    (arguments : ConvertArguments) : Run m Unit := do
  let name ← formatName arguments
  let format ← require (Registry.standard.get name)
  let dictionary ← loadDictionary host arguments.input
  let context ← require (settings.contextFor name (destinationOf arguments name) extras)
  let text := format.document dictionary context
  match arguments.output with
  | some path => writeText host path text
  | none => (host.print text : m Unit)

/-- Makes a directory and those above it that are missing, at most `fuel` of them. -/
def makeDirectories (host : Host m) : Nat → String → m (Except FileError Unit)
  | 0, _ => return .error .notFound
  | fuel + 1, path => do
    if path.isEmpty then return .ok ()
    match ← host.makeDirectory path with
    | .ok () => return .ok ()
    | .error .notFound =>
      match Path.parent? path with
      | none => return .error (.other "failed to create whole tree")
      | some parent =>
        match ← makeDirectories host fuel parent with
        | .error cause => return .error cause
        | .ok () => settle path (← host.makeDirectory path)
    | .error cause => settle path (.error cause)
where
  /-- A directory that is there after all is as good as a new one. -/
  settle (path : String) : Except FileError Unit → m (Except FileError Unit)
    | .ok () => return .ok ()
    | .error cause => do
      if ← host.isDirectory path then return .ok () else return .error cause

/-- Writes a generated file, and the directories that it needs. -/
def saveFile (host : Host m) (file : OutputFile) : Run m Unit := do
  match Path.parent? file.path with
  | none => pure ()
  | some parent =>
    attempt ("Error creating directory '" ++ parent ++ "'")
      (makeDirectories host (parent.length + 1) parent)
  writeText host file.path file.contents
  (host.print (file.path ++ "\n") : m Unit)

/-- Builds the files of a brand. -/
def build (host : Host m) (settings : Settings) (arguments : BuildArguments) : Run m Unit := do
  let dictionary ← loadDictionary host arguments.input
  let tokensDir := arguments.tokensDir.getD settings.build.tokensDir
  let (modes, _) ← (Detector.empty.detect host.isDirectory arguments.brand tokensDir : m _)
  let config := settings.forBrand arguments.brand modes
  let config := { config with buildPath := arguments.out.getD config.buildPath }
  for platform in arguments.platforms.getD Platform.all do
    for file in (Plan.ofPlatform config platform).outputs dictionary do
      saveFile host file

/-! ### Calls -/

def version : String := "0.1.0"

def usage : String :=
  "Usage: tokens convert <INPUT> [--to <FORMAT>] [-o <FILE>] [--destination <NAME>]\n" ++
  "       tokens build <INPUT> --brand <BRAND> [--platform <PLATFORM>]... [--tokens-dir <DIR>]\n" ++
  "                    [--out <DIR>]\n" ++
  "       tokens --list-formats\n" ++
  "Options: --config <PATH>, --extra-<KEY> [VALUE], -v, --verbose, -h, --help, -V, --version\n"

def carryOut (host : Host m) (invocation : Invocation) (extras : Params) : Run m Unit := do
  if invocation.listFormats then (host.print listing : m Unit)
  else
    let settings ← loadSettings host invocation.config
    let (settings, extras) ← require (settings.overriddenBy extras)
    match invocation.request with
    | .convert arguments => convert host settings extras arguments
    | .build arguments => build host settings arguments
    | .nothing => throw "Unknown subcommand. Use --help for usage information.\n"

/-- Runs the tool with the arguments of a call, and answers with the exit code. -/
def run (host : Host m) (arguments : List String) : m Nat := do
  let (arguments, extras) := Extras.split arguments
  match Invocation.read arguments with
  | .error .help =>
    host.warn usage
    return 0
  | .error .version =>
    host.print ("tokens " ++ version ++ "\n")
    return 0
  | .error .misuse =>
    host.warn usage
    return 2
  | .ok invocation =>
    match ← (carryOut host invocation extras).run with
    | .ok () => return 0
    | .error text =>
      host.warn text
      return 1

end DesignTokens.Tool
