import Netlisting.Cli.Run

/-!
# The program

Files are those of the system.  No transport to a simulation server is linked in, so every server is
out of reach.
-/

namespace Netlisting.Cli

/-- The reason that the system gives for an error. -/
def reasonOf (e : IO.Error) : String :=
  let coded := fun (details : String) (code : UInt32) =>
    details.capitalize ++ " (os error " ++ toString code ++ ")"
  match e with
  | .noFileOrDirectory _ code details => coded details code
  | .permissionDenied _ code details => coded details code
  | .inappropriateType _ code details => coded details code
  | .alreadyExists _ code details => coded details code
  | .invalidArgument _ code details => coded details code
  | .resourceExhausted _ code details => coded details code
  | .otherError code details => coded details code
  | e => toString e

def guarded {α : Type} (act : IO α) : IO (Except String α) := do
  match ← act.toBaseIO with
  | .ok a => return .ok a
  | .error e => return .error (reasonOf e)

def systemHost : Host IO where
  read path := guarded (IO.FS.readFile path)
  makeFolders path := guarded (if path.isEmpty then pure () else IO.FS.createDirAll path)
  write path text := guarded (IO.FS.writeFile path text)
  simulate config submission :=
    return (Session.ofContact config submission
      (.unreachable "Network is unreachable (os error 101)")).map fun s => ⟨s.id, [], 0, s.state⟩

end Netlisting.Cli

open Netlisting in
def main (arguments : List String) : IO UInt32 := do
  let outcome ← Cli.run Cli.systemHost arguments
  IO.print outcome.out
  IO.eprint outcome.err
  return outcome.code.toUInt32
