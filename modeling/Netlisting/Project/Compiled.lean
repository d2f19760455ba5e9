import Netlisting.Flattening.Basic
import Netlisting.Project.Basic
import Netlisting.Stream.Client

/-!
# Compiling a project

Compiling flattens the top cell out of the libraries of the project and renders its directives.
Without probes a simulator of the first dialect would save nothing, so it is asked for the default
vectors.

An error is a chain of texts, from what was attempted to the cause.
-/

namespace Netlisting

inductive ProjectError where
  | flattening (top : CellRef) (cause : CompileError)
  | directives (cause : RenderError)

/-- The causes behind an error of the compiler, outermost first. -/
def CompileError.causes : CompileError → List String
  | resolve _ _ _ cause => [cause.message]
  | _ => []

def ProjectError.chain : ProjectError → List String
  | flattening top cause =>
    ("Failed to flatten " ++ top.shown ++ ".") :: cause.message :: cause.causes
  | directives cause => ["Failed to translate directives.", cause.message]

def ProjectError.fatal : ProjectError → Bool
  | flattening _ cause => cause.fatal
  | directives _ => false

namespace Project

def documents (p : Project) : List (String × String × Cell) :=
  p.shelves.flatMap fun shelf => shelf.cells.map fun cell => (shelf.space, shelf.version, cell)

def store (p : Project) : Library.Store := Library.Store.ofList p.documents

/-- What the directives became, with a request for the default vectors where nothing is probed. -/
def withDefaults (p : Project) (d : Directory) (output : Directive.Output) : Directive.Output :=
  if output.vectors.isEmpty && p.dialect == .ngspice && !d.defaultVectors.isEmpty then
    { output with text := ".save " ++ Text.join " " d.defaultVectors ++ "\n" ++ output.text }
  else output

/-- Everything that is sent to a server. -/
def compile (p : Project) : Except ProjectError Submission :=
  let walk := flattenRef p.store.source p.compileOptions p.top
  match (walk.run Library.Resolver.empty).1 with
  | .error e => .error (.flattening p.top e)
  | .ok netlist =>
    match Directive.renderAll netlist.directory p.dialect p.directives with
    | .error e => .error (.directives e)
    | .ok output =>
      .ok { netlist
            deckOptions := p.deckOptions
            output := p.withDefaults netlist.directory output
            options := p.client.options }

end Project

end Netlisting
