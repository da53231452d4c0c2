import JsonShapes.Run.Report
import JsonShapes.Text.ControlSequence

/-!
# The command line

Options may stand before, between and after the two folders. An option with a value takes it from
behind an equals sign or from the next argument, whatever that looks like; of a repeated option the
last value counts. After two dashes everything is a folder.

What is wrong is reported in this order: options, then the input folder, then folders that are
missing or too many. Asking for help wins over all but a wrong option.

Lines for the user are shown without control sequences, which a name of a file or of a member may
hold; in files they stay.

A call is a plan like a run: `plan` gives the effects and the status, from the arguments and the
files that there are. Where a run raises a fault that no case is made for, the call has no status
but that fault.
-/

namespace JsonShapes.CommandLine

/-- What is wrong with the arguments of a call. -/
inductive UsageError where
  | unknownOption (option : String)
  | unexpectedValue (option : String)
  | missingValue (option : String)
  | missingFolder (name : String)
  | extraArguments (arguments : List String)
  | inputNotFound (path : String)
  | inputNotFolder (path : String)
deriving DecidableEq, Repr

/-- The names under which the two folders are asked for. -/
def inputName : String := "INPUT-DIR"

@[inherit_doc inputName]
def outputName : String := "OUTPUT-DIR"

/-- How the program is called. -/
def usage : String :=
  "Usage: json-dts " ++ inputName ++ " " ++ outputName

/-- What the program does. -/
def instructions : List String :=
  ["Reads all JSON files inside INPUT-DIR (including those in subdirectories),",
   "parses each into a TS declaration file with matching name and places those",
   "into OUTPUT-DIR, matching the folder structure inside of INPUT-DIR."]

/-- The words by which an error is known to be about arguments that are too many. -/
def extraWords : String := "unexpected extra argument"

/-- The words for an error. -/
def UsageError.message : UsageError → String
  | .unknownOption option => "No such option: " ++ option
  | .unexpectedValue option => "Option '" ++ option ++ "' does not take a value."
  | .missingValue option => "Option '" ++ option ++ "' requires an argument."
  | .missingFolder name => "Missing argument '" ++ name ++ "'."
  | .extraArguments arguments =>
    "Got " ++ extraWords ++ (if arguments.length = 1 then "" else "s") ++ " ("
      ++ " ".intercalate arguments ++ ")"
  | .inputNotFound path =>
    "Invalid value for '" ++ inputName ++ "': Directory '" ++ path ++ "' does not exist."
  | .inputNotFolder path =>
    "Invalid value for '" ++ inputName ++ "': Directory '" ++ path ++ "' is a file."

/-- Whether some words stand anywhere in a text. -/
def mentions (words : List Char) : List Char → Bool
  | [] => words.isEmpty
  | c :: rest => words.isPrefixOf (c :: rest) || mentions words rest

/-- Whether the usage line alone explains an error. It does if a folder is missing, and if the words
for the error speak of extra arguments, be it by what the user has written. -/
def UsageError.isArity : UsageError → Bool
  | .missingFolder _ => true
  | error => mentions extraWords.toList error.message.toList

/-! ### Arguments -/

/-- The arguments of a call, sorted out. -/
structure Arguments where
  help : Bool
  config : Option String
  report : Option String
  folders : List String
deriving DecidableEq, Repr

/-- The call without arguments. -/
def Arguments.none : Arguments :=
  ⟨false, .none, .none, []⟩

/-- An option that takes a value. -/
inductive Valued where
  | config
  | report

/-- The option with a value of a name. -/
def valued? : String → Option Valued
  | "--config" => some .config
  | "--report" => some .report
  | _ => none

/-- Gives an option its value. -/
def Arguments.set (arguments : Arguments) (value : String) : Valued → Arguments
  | .config => { arguments with config := some value }
  | .report => { arguments with report := some value }

/-- The name of an option, and the value behind the first equals sign. -/
def splitValue (argument : String) : String × Option String :=
  let name := argument.toList.takeWhile (· ≠ '=')
  match argument.toList.dropWhile (· ≠ '=') with
  | [] => (argument, none)
  | _ :: value => (String.ofList name, some (String.ofList value))

/-- Sorts out letters that stand together after one dash. -/
def letters (arguments : Arguments) : List Char → Except UsageError Arguments
  | [] => return arguments
  | 'h' :: rest => letters { arguments with help := true } rest
  | c :: _ => throw (.unknownOption ("-" ++ c.toString))

/-- Whether an argument is an option: a dash with something behind it. -/
def isOption (argument : String) : Bool :=
  argument.startsWith "-" && argument ≠ "-"

/-- Sorts out an option that takes its value, if any, from behind an equals sign. -/
def option (arguments : Arguments) (argument : String) : Except UsageError Arguments :=
  let (name, value) := splitValue argument
  match valued? name, value with
  | some v, some value => return arguments.set value v
  | some _, none => throw (.missingValue name)
  | none, value =>
    if name = "--help" then
      if value.isSome then throw (.unexpectedValue name) else return { arguments with help := true }
    else if argument.startsWith "--" then throw (.unknownOption name)
    else letters arguments (argument.toList.drop 1)

/-- Sorts out the arguments of a call after those that are already. -/
def sortOut (arguments : Arguments) : List String → Except UsageError Arguments
  | [] => return arguments
  | "--" :: rest => return { arguments with folders := arguments.folders ++ rest }
  | argument :: value :: rest =>
    if !isOption argument then
      sortOut { arguments with folders := arguments.folders ++ [argument] } (value :: rest)
    else match valued? argument with
      | some v => sortOut (arguments.set value v) rest
      | none => do sortOut (← option arguments argument) (value :: rest)
  | [argument] =>
    if isOption argument then option arguments argument
    else return { arguments with folders := arguments.folders ++ [argument] }

/-! ### Requests -/

/-- What is asked for: two folders, and where the configuration and the report are. -/
structure Request where
  folders : Run.Folders
  config : Path
  report : Option Path

/-- Why a call is not carried out. -/
inductive Refusal where
  | usage (error : UsageError)
  | fault (fault : Fault)

/-- Refuses a path with the character NUL in it. -/
def requirePath (path : String) : Except Refusal Unit :=
  if path.contains '\x00' then throw (.fault (.file .nulCharacter)) else return

/-- The location that an argument for a folder means. -/
def locate (base : Location) (folder : String) : Location :=
  Path.straighten (Path.route base (Path.parse folder))

/-- Checks the folder to read from, which an argument means: it has to exist. -/
def requireInput (files : FileTree) (base : Location) (folder : String) : Except Refusal Unit :=
  match files.follow base (.absolute (locate base folder)) with
  | .ok (.found _ (.folder _)) => return
  | .ok (.found _ (.file _)) => throw (.usage (.inputNotFolder folder))
  | _ => throw (.usage (.inputNotFound folder))

/-- What a call from a folder asks for. -/
def Arguments.request (arguments : Arguments) (files : FileTree) (base : Location) :
    Except Refusal Request := do
  (arguments.config.toList ++ arguments.report.toList).forM requirePath
  match arguments.folders with
  | [] => throw (.usage (.missingFolder inputName))
  | input :: rest =>
    requirePath input
    requireInput files base input
    match rest with
    | [] => throw (.usage (.missingFolder outputName))
    | output :: extra =>
      requirePath output
      if extra ≠ [] then throw (.usage (.extraArguments extra))
      return {
        folders := ⟨locate base input, locate base output⟩
        config := Path.parse (arguments.config.getD Settings.fileName)
        report := arguments.report.map Path.parse }

/-! ### Calls -/

/-- What is found where the configuration is looked for. -/
def configSource (files : FileTree) (base : Location) (path : Path) : Settings.Source :=
  match files.follow base path with
  | .ok (.found _ (.file octets)) => .file octets
  | .ok (.found _ (.folder _)) => .folder
  | _ => .missing

/-- The effects that write a report. -/
def reportEffects (path : Path) (text : String) : List Effect :=
  [.makeFolders path.parent, .write path (text ++ "\n")]

/-- The plan of what is asked for, which ends with the status of the call. -/
def Request.plan (request : Request) (files : FileTree) (base : Location) : Plan Nat :=
  match Settings.load (configSource files base request.config) with
  | .error fault => ⟨[], .error fault⟩
  | .ok settings =>
    let run := Run.plan settings request.folders files
    match run.outcome with
    | .ok summary =>
      let report := match request.report with
        | some path => reportEffects path (summary.reportText settings)
        | none => []
      ⟨run.effects ++ report, .ok 0⟩
    | .error (.malformed document detail) =>
      ⟨run.effects ++ [.complain ("Malformed JSON in " ++ document ++ ": " ++ detail)], .ok 1⟩
    | .error fault => ⟨run.effects, .error fault⟩

/-- The plan for a call with wrong arguments. -/
def usagePlan (error : UsageError) : Plan Nat :=
  ⟨.complain usage :: if error.isArity then [] else [.complain error.message], .ok 1⟩

/-- The plan of a call from a folder, with the files that there are and with lines as they are. -/
def rawPlan (files : FileTree) (base : Location) (argv : List String) : Plan Nat :=
  match sortOut .none argv with
  | .error error => usagePlan error
  | .ok arguments =>
    if arguments.help then ⟨(usage :: "" :: instructions).map .say, .ok 0⟩
    else match arguments.request files base with
      | .ok request => request.plan files base
      | .error (.usage error) => usagePlan error
      | .error (.fault fault) => ⟨[], .error fault⟩

/-- An effect without control sequences in what is shown. -/
def shown : Effect → Effect
  | .say line => .say (ControlSequence.remove line)
  | .complain line => .complain (ControlSequence.remove line)
  | effect => effect

/-- The plan of a call from a folder, with the files that there are. -/
def plan (files : FileTree) (base : Location) (argv : List String) : Plan Nat :=
  let raw := rawPlan files base argv
  ⟨raw.effects.map shown, raw.outcome⟩

end JsonShapes.CommandLine
