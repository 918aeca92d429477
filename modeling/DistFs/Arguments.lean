import DistFs.Command
import DistFs.Startup
/-!
# Command lines

What the arguments of the program ask for. Options stand before or after the name of the command;
what an option says after it replaces what it says before it. A lone double dash ends the options
after the name.
-/

namespace DistFs

inductive Verb where
  | tree
  | ls
  | cat
  | touch
  | mkdir
  | rm
deriving DecidableEq

namespace Verb

def all : List Verb := [tree, ls, cat, touch, mkdir, rm]

def name : Verb → String
  | tree => "tree"
  | ls => "ls"
  | cat => "cat"
  | touch => "touch"
  | mkdir => "mkdir"
  | rm => "rm"

def about : Verb → String
  | tree => "Print every path in the filesystem"
  | ls => "List a directory"
  | cat => "Print the contents of a file"
  | touch => "Create an empty file"
  | mkdir => "Create a directory"
  | rm => "Remove a file or directory"

def ofName? (s : String) : Option Verb := all.find? (·.name = s)

def command? : Verb → Option Path → Option Command
  | tree, _ => some .tree
  | ls, p => some (.list (p.getD .root))
  | cat, some p => some (.show p)
  | touch, some p => some (.makeFile p)
  | mkdir, some p => some (.makeDirectory p)
  | rm, some p => some (.remove p)
  | _, none => none

end Verb

inductive Topic where
  | program
  | verb (v : Verb)
  | help
deriving DecidableEq

inductive Invocation where
  | run (command : Command) (config : Option String) (storage : List StorageConfig)
  | help (topic : Topic)
  | version

namespace Invocation

/-! ## Options -/

structure Options where
  config : Option String := none
  storage : List StorageConfig := []

inductive OptionName where
  | config
  | storage

def Options.note (o : Options) (value : String) : OptionName → Option Options
  | .config => if value = "" || o.config.isSome then none else some { o with config := some value }
  | .storage =>
    match StorageConfig.ofArgument value with
    | .ok s => some { o with storage := o.storage ++ [s] }
    | .error _ => none

def Options.orElse (later earlier : Options) : Options where
  config := later.config <|> earlier.config
  storage := if later.storage = [] then earlier.storage else later.storage

inductive Argument where
  | word (s : String)
  | dashes
  | help
  | version
  | option (name : OptionName) (value : Option String)
  | unknown

def dropEquals : List Char → List Char
  | '=' :: cs => cs
  | cs => cs

def Argument.ofLong (cs : List Char) : Argument :=
  let name := String.ofList (cs.takeWhile (· ≠ '='))
  let value := match cs.dropWhile (· ≠ '=') with
    | _ :: value => some (String.ofList value)
    | [] => none
  match name, value with
  | "config", _ => option .config value
  | "storage", _ => option .storage value
  | "help", none => help
  | "version", none => version
  | _, _ => unknown

def Argument.ofShort (c : Char) (rest : List Char) : Argument :=
  let value := if rest = [] then none else some (String.ofList (dropEquals rest))
  match c with
  | 'c' => option .config value
  | 's' => option .storage value
  | 'h' => help
  | 'V' => version
  | _ => unknown

def Argument.ofString (s : String) : Argument :=
  match s.toList with
  | ['-', '-'] => dashes
  | '-' :: '-' :: cs => .ofLong cs
  | '-' :: c :: cs => .ofShort c cs
  | _ => word s

def isValue (s : String) : Bool :=
  match Argument.ofString s with
  | .word _ => true
  | _ => false

/-! ## Reading -/

/-- Reads what follows the name of a command. `plain` says that the options have ended. -/
def readCommand (v : Verb) (earlier : Options) :
    Bool → Options → Option Path → List String → Option Invocation
  | _, o, p, [] => do
    let o := o.orElse earlier
    return run (← v.command? p) o.config o.storage
  | plain, o, p, arg :: rest =>
    match if plain then .word arg else Argument.ofString arg with
    | .word s =>
      match v, p, Path.read s with
      | .tree, _, _ | _, some _, _ | _, _, .error _ => none
      | _, none, .ok p => readCommand v earlier plain o (some p) rest
    | .dashes => readCommand v earlier true o p rest
    | .help => some (help (.verb v))
    | .option name (some value) =>
      match o.note value name with
      | some o => readCommand v earlier plain o p rest
      | none => none
    | .option name none =>
      match rest with
      | value :: rest =>
        match isValue value, o.note value name with
        | true, some o => readCommand v earlier plain o p rest
        | _, _ => none
      | [] => none
    | .version | .unknown => none

def readTopic : List String → Option Topic
  | [] => some .program
  | [name] => if name = "help" then some .help else (Verb.ofName? name).map .verb
  | _ => none

def readOptions : Options → List String → Option Invocation
  | _, [] => none
  | o, arg :: rest =>
    match Argument.ofString arg with
    | .word s =>
      if s = "help" then (readTopic rest).map help
      else match Verb.ofName? s with
        | some v => readCommand v o false {} none rest
        | none => none
    | .help => some (help .program)
    | .version => some version
    | .option name (some value) =>
      match o.note value name with
      | some o => readOptions o rest
      | none => none
    | .option name none =>
      match rest with
      | value :: rest =>
        match isValue value, o.note value name with
        | true, some o => readOptions o rest
        | _, _ => none
      | [] => none
    | .dashes | .unknown => none

def parse (args : List String) : Option Invocation := readOptions {} args

end Invocation

/-! ## Help -/

namespace Topic

def table (rows : List (String × String)) : String :=
  let width := (rows.map (·.1.length)).foldl max 0
  String.join (rows.map fun (left, right) =>
    "  " ++ left ++ String.ofList (List.replicate (width - left.length) ' ') ++ "  " ++ right ++
      "\n")

def optionRows : List (String × String) :=
  [("-c, --config <CONFIG>", "Cluster configuration (YAML)"),
    ("-s, --storage <STORAGE>",
      "Storage server over a host directory, as name=dir; may be repeated"),
    ("-h, --help", "Print help")]

def helpAbout : String := "Print this message or the help of the given subcommand(s)"

def operand : Verb → Option (String × String)
  | .tree => none
  | .ls => some ("[PATH]", "[default: /]")
  | _ => some ("<PATH>", "")

def text : Topic → String
  | program =>
    "Usage: dfs [OPTIONS] <COMMAND>\n\nCommands:\n" ++
      table (Verb.all.map (fun v => (v.name, v.about)) ++ [("help", helpAbout)]) ++
      "\nOptions:\n" ++ table (optionRows ++ [("-V, --version", "Print version")])
  | verb v =>
    let operands := (operand v).toList
    v.about ++ "\n\nUsage: dfs " ++ v.name ++ " [OPTIONS]" ++
      String.join (operands.map fun row => " " ++ row.1) ++ "\n" ++
      (if operands = [] then "" else "\nArguments:\n" ++ table operands) ++
      "\nOptions:\n" ++ table optionRows
  | help =>
    helpAbout ++ "\n\nUsage: dfs help [COMMAND]...\n\nArguments:\n" ++
      table [("[COMMAND]...", "Print help for the subcommand(s)")]

end Topic

end DistFs
