import Netlisting.Cli.Arguments
import Netlisting.Cli.Report
import Netlisting.Project.Compiled
import Netlisting.Text.Quoted

/-!
# Running a command

A command reads a project, compiles it, and writes the deck or simulates it.  What it needs from
outside is a `Host`: files and a simulation server, in a monad of the host's own.  Each operation of
a host answers with a reason when it fails.
-/

namespace Netlisting.Cli

structure Host (m : Type → Type) where
  read : String → m (Except String String)
  makeFolders : String → m (Except String Unit)
  write : String → String → m (Except String Unit)
  simulate : ClientConfig → Submission → m (Except SessionError Finished)

def versionText : String := "schemsim 0.1.0\n"

/-- The path without its last part; nothing for a path that has no last part. -/
def parent? (path : String) : Option String :=
  let noise := fun pieces : List (List Char) => pieces.dropWhile fun p => p = [] ∨ p = ['.']
  match (Text.pieces (· == '/') path.toList).reverse with
  | [] => none
  | last :: before =>
    match noise (last :: before) with
    | [] => if path.startsWith "/" ∨ path = "" then none else some ""
    | _ :: rest =>
      let kept := (noise rest).reverse
      if kept.isEmpty then
        some (if path.startsWith "/" then "/" else if path.startsWith "./" then "." else "")
      else some (Text.join "/" (kept.map String.ofList))

/-- The project in a file, or the outcome that says why there is none. -/
def projectOf (path : String) : Except String String → Except Outcome Project
  | .error reason =>
    .error (failure ("Failed to read project file " ++ Text.quoted path ++ ".") [reason])
  | .ok text =>
    match Project.ofText? text with
    | some project => .ok project
    | none =>
      .error (failure ("Failed to parse project file " ++ Text.quoted path ++ ".")
        ["the text does not describe a project"])

/-- What a project compiles to, or the outcome that says why it does not.  An error that ends the
program has an exit code of its own. -/
def submissionOf (p : Project) : Except Outcome Submission :=
  match p.compile with
  | .ok s => .ok s
  | .error e =>
    if e.fatal then .error { code := 101, err := Text.join "\n" e.chain ++ "\n" }
    else match e.chain with
      | message :: causes => .error (failure message causes)
      | [] => .error (failure "" [])

variable {m : Type → Type} [Monad m]

/-- Reads and compiles the project at a path. -/
def load (host : Host m) (path : String) : m (Except Outcome (Project × Submission)) := do
  let text ← host.read path
  return (projectOf path text).bind fun p => (submissionOf p).map fun s => (p, s)

/-- Writes a deck to a file, in a folder that is made when it is missing. -/
def save (host : Host m) (path deck : String) : m Outcome := do
  let folder := (parent? path).getD ""
  match ← host.makeFolders folder with
  | .error reason =>
    return failure ("Failed to create directory " ++ Text.quoted folder ++ ".") [reason]
  | .ok () =>
    match ← host.write path deck with
    | .error reason =>
      return failure ("Failed to write deck to " ++ Text.quoted path ++ ".") [reason]
    | .ok () => return { err := "Deck written to " ++ Text.quoted path ++ ".\n" }

def Command.run (host : Host m) : Command → m Outcome
  | .netlist path out => do
    match ← load host path with
    | .error outcome => return outcome
    | .ok (_, s) =>
      match out with
      | some file => save host file s.deck
      | none => return { out := s.deck }
  | .simulate path addr => do
    match ← load host path with
    | .error outcome => return outcome
    | .ok (p, s) =>
      let config := p.client.config addr
      match ← host.simulate config s with
      | .ok finished => return finished.outcome
      | .error e =>
        return failure ("Failed to start simulation on " ++ config.addr ++ ".") [e.message]

/-- Does what the arguments ask for. -/
def run (host : Host m) (arguments : List String) : m Outcome :=
  match Request.ofArguments arguments with
  | .command c => c.run host
  | .version => return { out := versionText }
  | .help => return {}
  | .misuse => return { code := 2 }

end Netlisting.Cli
