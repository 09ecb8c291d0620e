import DocPatch.Patcher

/-! The command line: its arguments, and what each command does with files and standard input. -/

namespace DocPatch.CommandLine

/-- What is asked for. Without an instruction file the instruction comes from standard input. -/
inductive Command where
  | compile (filter : String) (instruction : Option String)
  | apply (document filter : String) (instruction projection : Option String)

/-- What arguments amount to. -/
inductive Request where
  | version
  | misuse
  | run (timestampField : String) (command : Command)

/-- The name of the program and its version. -/
def versionText : String := "rillpatch 0.1.0"

/-- The name and the attached value of a long option. -/
def option? (argument : String) : Option (String × Option String) :=
  match argument.toList with
  -- Two dashes alone are no option, so a character has to follow them.
  | '-' :: '-' :: c :: rest =>
    let name := String.ofList ((c :: rest).takeWhile (· != '='))
    -- An equals sign attaches a value, which may be empty.
    match (c :: rest).dropWhile (· != '=') with
    | [] => some (name, none)
    | _ :: value => some (name, some (String.ofList value))
  | _ => none

/-- Whether an argument can be the value of the option before it: a dash may only stand alone. -/
def isValue (argument : String) : Bool :=
  argument = "-" || argument.toList.head? != some '-'

/-- An option of a command; the name of a file cannot be empty. -/
structure OptionFormat where
  name : String
  isFile : Bool

/-- Takes up an option, once. -/
def takeOption (formats : List OptionFormat) (given : List (String × String))
    (name value : String) : Option (List (String × String)) := do
  let format ← formats.find? fun format => format.name = name
  -- The name of a file may not be empty, while other values may.
  if (given.lookup name).isSome || (format.isFile && value.isEmpty) then none
  else some ((name, value) :: given)

/-- Reads the options of a command. Two dashes may end them. -/
def options (formats : List OptionFormat) (given : List (String × String)) :
    List String → Option (List (String × String))
  | [] => some given
  | argument :: rest =>
    -- Nothing but options is expected, so nothing may stand behind the dashes.
    if argument = "--" then if rest.isEmpty then some given else none
    else
      match option? argument with
      | none => none
      | some (name, some value) =>
        match takeOption formats given name value with
        | some given => options formats given rest
        | none => none
      -- The value stands in the next argument, unless that is an option itself.
      | some (name, none) =>
        match rest with
        | [] => none
        | value :: rest =>
          if isValue value then
            match takeOption formats given name value with
            | some given => options formats given rest
            | none => none
          else none

/-- Reads the options of the command that prints operations. -/
def compileCommand (arguments : List String) : Option Command := do
  let given ← options [⟨"filter", false⟩, ⟨"instruction", true⟩] [] arguments
  return .compile (← given.lookup "filter") (given.lookup "instruction")

/-- Reads the options of the command that patches a document. -/
def applyCommand (arguments : List String) : Option Command := do
  let formats :=
    [⟨"document", true⟩, ⟨"filter", false⟩, ⟨"instruction", true⟩, ⟨"projection", false⟩]
  let given ← options formats [] arguments
  return .apply (← given.lookup "document") (← given.lookup "filter") (given.lookup "instruction")
    (given.lookup "projection")

/-- A command under a timestamp field, the standard one unless another was given. -/
def request (timestampField : Option String) : Option Command → Request
  | some command => .run (timestampField.getD Settings.standard.timestampField) command
  | none => .misuse

/-- Reads the arguments of the program. -/
def parse (timestampField : Option String) : List String → Request
  | [] => .misuse
  | argument :: rest =>
    -- The version wins over what follows, and over an option in front.
    if argument = "--version" || argument.toList.take 2 = ['-', 'V'] then .version
    else if argument = "compile" then request timestampField (compileCommand rest)
    else if argument = "apply" then request timestampField (applyCommand rest)
    -- The option in front of the command may be given once.
    else if timestampField.isSome then .misuse
    else
      match option? argument with
      | some ("timestamp-field", some value) => parse (some value) rest
      | some ("timestamp-field", none) =>
        match rest with
        | [] => .misuse
        | value :: rest => if isValue value then parse (some value) rest else .misuse
      | _ => .misuse

/-- The world around the program: its files, its standard input and its clock. -/
structure Surroundings (m : Type → Type) where
  fileText : String → m (Except FileError String)
  inputText : m (Except FileError String)
  now : m Timestamp

/-- Reads a text and says what was being done if that fails. -/
def reading (activity : String) (result : Except ReadError α) : Except Failure α :=
  result.mapError fun error => .during activity (.unreadable error)

/-- Reads the instruction, from its file or from standard input. -/
def instruction [Monad m] (world : Surroundings m) (file : Option String) :
    ExceptT Failure m Instruction := do
  let source := match file with
    | some file => world.fileText file
    | none => world.inputText
  -- The source is read as a whole before any of it is parsed.
  let text ← ExceptT.mk (return (← source).mapError .file)
  ExceptT.mk (return reading "parsing patch instruction" (Instruction.parse text))

/-- Carries a command out and returns the value to print. -/
def run [Monad m] (world : Surroundings m) (timestampField : String) :
    Command → ExceptT Failure m Json
  -- The filter is parsed before the instruction is read, so its error comes first.
  | .compile filter instructionFile => do
    let filter ← ExceptT.mk (return reading "parsing --filter" (Json.parseFields filter))
    let instruction ← instruction world instructionFile
    let time ← ExceptT.lift world.now
    let planned := Patch.operations filter instruction timestampField time
    let operations ← ExceptT.mk (return planned.mapError fun error => .unsupportedShape error.path)
    return .array (operations.map Operation.toJson)
  | .apply documentFile filter instructionFile projection => do
    let filter ← ExceptT.mk (return reading "parsing --filter" (Json.parseFields filter))
    let projection ← ExceptT.mk
      (return reading "parsing --projection" (projection.mapM Json.parseFields))
    let text ← ExceptT.mk (return (← world.fileText documentFile).mapError .file)
    let document ← ExceptT.mk (return reading ("parsing " ++ documentFile) (Json.parse text))
    let instruction ← instruction world instructionFile
    let time ← ExceptT.lift world.now
    -- A collection that holds the one document stands in for a store.
    let patcher := Patcher.start (.ofDocuments [document]) { Settings.standard with timestampField }
    ExceptT.mk (return (patcher.patch filter instruction projection time).1)

/-- How the program ends: its exit code, and what it printed to the two streams. -/
structure Report where
  exitCode : Nat
  output : String
  errors : String

/-- Runs the program on its arguments. A misuse is reported by the exit code alone. -/
def execute [Monad m] (world : Surroundings m) (arguments : List String) : m Report := do
  match parse none arguments with
  | .version => return ⟨0, versionText ++ "\n", ""⟩
  | .misuse => return ⟨2, "", ""⟩
  -- Failures of a command are reported on the error output.
  | .run timestampField command =>
    match ← (run world timestampField command).run with
    | .ok value => return ⟨0, value.pretty ++ "\n", ""⟩
    | .error failure => return ⟨1, "", "Error: " ++ failure.diagnostic ++ "\n"⟩

end DocPatch.CommandLine
