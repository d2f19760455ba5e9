/-!
# The arguments of the command line

There are two commands.  `netlist` writes the deck of a project, to a file when `-o` or `--out`
names one; `simulate` runs a project on a server, at another address when `-a` or `--addr` gives
one.  The value of an option is the next argument or is attached to the option.

Arguments are read from left to right, and the first that cannot be understood decides.
-/

namespace Netlisting.Cli

inductive Command where
  | netlist (project : String) (out : Option String)
  | simulate (project : String) (addr : Option String)
  deriving DecidableEq

/-- What the arguments ask for. -/
inductive Request where
  | command (command : Command)
  | version
  | help
  | misuse
  deriving DecidableEq

/-- What a command takes besides a project: an option with a value. -/
structure Form where
  short : Char
  long : String
  /-- Whether the value may be empty. -/
  emptyValue : Bool
  make : String → Option String → Command

def netlistForm : Form := ⟨'o', "out", false, .netlist⟩

def simulateForm : Form := ⟨'a', "addr", true, .simulate⟩

/-- How one argument reads. -/
inductive Word where
  | plain (text : String)
  | option
  | optionWith (value : String)
  | help
  | unknown
  | endOfOptions
  deriving DecidableEq

/-- A value attached to a short option may have an equals sign in front. -/
def attached : List Char → String
  | '=' :: rest => String.ofList rest
  | rest => String.ofList rest

def Form.word (f : Form) (arg : String) : Word :=
  match arg.toList with
  | ['-'] => .plain arg
  | ['-', '-'] => .endOfOptions
  | '-' :: '-' :: name =>
    if name = "help".toList then .help
    else if name = f.long.toList then .option
    else if (f.long.toList ++ ['=']).isPrefixOf name then
      .optionWith (String.ofList (name.drop (f.long.length + 1)))
    else .unknown
  | '-' :: 'h' :: _ => .help
  | '-' :: c :: rest =>
    if c ≠ f.short then .unknown
    else if rest.isEmpty then .option
    else .optionWith (attached rest)
  | _ => .plain arg

/-- What has been read of a command. -/
structure Draft where
  project : Option String := none
  value : Option String := none

/-- The project may be given once, and has a name. -/
def Draft.withProject? (d : Draft) (text : String) : Option Draft :=
  if d.project.isNone ∧ text ≠ "" then some { d with project := some text } else none

/-- The option may be given once. -/
def Draft.withValue? (d : Draft) (f : Form) (text : String) : Option Draft :=
  if d.value.isNone ∧ (f.emptyValue ∨ text ≠ "") then some { d with value := some text } else none

def Draft.request (d : Draft) (f : Form) : Request :=
  match d.project with
  | some project => .command (f.make project d.value)
  | none => .misuse

/-- Arguments that are no options, whatever they look like. -/
def plainWords (f : Form) (d : Draft) : List String → Request
  | [] => d.request f
  | arg :: rest =>
    match d.withProject? arg with
    | some d => plainWords f d rest
    | none => .misuse

def words (f : Form) (d : Draft) : List String → Request
  | [] => d.request f
  | arg :: rest =>
    match f.word arg with
    | .help => .help
    | .unknown => .misuse
    | .endOfOptions => plainWords f d rest
    | .plain text =>
      match d.withProject? text with
      | some d => words f d rest
      | none => .misuse
    | .optionWith value =>
      match d.withValue? f value with
      | some d => words f d rest
      | none => .misuse
    | .option =>
      match rest with
      | [] => .misuse
      | value :: rest =>
        match f.word value, d.withValue? f value with
        | .plain _, some d => words f d rest
        | _, _ => .misuse

def Request.ofArguments : List String → Request
  | "netlist" :: rest => words netlistForm {} rest
  | "simulate" :: rest => words simulateForm {} rest
  | "help" :: rest =>
    match rest with
    | [] => .help
    | topic :: _ => if ["netlist", "simulate", "help"].contains topic then .help else .misuse
  | arg :: _ =>
    match arg.toList with
    | '-' :: 'V' :: _ => .version
    | '-' :: 'h' :: _ => .help
    | _ => if arg = "--version" then .version else if arg = "--help" then .help else .misuse
  | [] => .misuse

end Netlisting.Cli
