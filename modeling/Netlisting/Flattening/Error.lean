import Netlisting.Design.Path
import Netlisting.Library.Resolver

/-!
# What can be wrong with a design

Every error says where it is: the path of the level, and the instance, net or parameter there.
`misfiled` is not about the design but about its document: an instance is stored under a key that
is not its name, and what is found under its name does not fit.

Some errors are not reported but end the program (`fatal`).
-/

namespace Netlisting

inductive CompileError where
  | resolve (path : InstancePath) (inst : String) (cell : CellRef) (cause : Library.ResolveError)
  | unconnectedPort (path : InstancePath) (inst port cell : String)
  | unknownPort (path : InstancePath) (inst port cell : String)
  | unknownNet (path : InstancePath) (net referencedBy : String)
  | missingPortNet (cell port : String)
  | invalidName (path : InstancePath) (name : String)
  | notSubcircuit (cell : String)
  | recursive (path : InstancePath) (cell : String) (cycle : List String)
  | unresolvedParam (path : InstancePath) (inst param name : String)
  | undeclaredParam (path : InstancePath) (inst param cell : String)
  | invalidExpr (path : InstancePath) (inst param reason : String)
  | crashed (path : InstancePath) (inst param : String)
  | misfiled (path : InstancePath) (inst : String)
  | tooDeep (path : InstancePath)
  deriving DecidableEq

def CompileError.message : CompileError → String
  | resolve path inst cell cause =>
    "cannot resolve cell `" ++ cell.shown ++ "` of instance `" ++ inst ++ "` in `" ++ path.shown ++
      "`: " ++ cause.message
  | unconnectedPort path inst port cell =>
    "unconnected port: instance `" ++ inst ++ "` in `" ++ path.shown ++
      "` does not specify a connection for port `" ++ port ++ "` of cell `" ++ cell ++ "`"
  | unknownPort path inst port cell =>
    "unknown port: instance `" ++ inst ++ "` in `" ++ path.shown ++ "` connects port `" ++ port ++
      "`, which cell `" ++ cell ++ "` does not have"
  | unknownNet path net referencedBy =>
    "unknown net `" ++ net ++ "` in `" ++ path.shown ++ "`, referenced by " ++ referencedBy
  | missingPortNet cell port =>
    "port `" ++ port ++ "` of cell `" ++ cell ++ "` has no internal net with the same name"
  | invalidName path name =>
    "invalid name `" ++ name ++ "` in `" ++ path.shown ++
      "`: instance and net names may not contain `.`"
  | notSubcircuit cell =>
    "cell `" ++ cell ++ "` is a primitive device and cannot be used as the top cell"
  | recursive path cell cycle =>
    "recursive hierarchy: instance `" ++ path.shown ++ "` re-enters cell `" ++ cell ++ "` (" ++
      Text.join " -> " cycle ++ ")"
  | unresolvedParam path inst param name =>
    "unresolved parameter: `" ++ param ++ "` of instance `" ++ inst ++ "` in `" ++ path.shown ++
      "` references undefined name `" ++ name ++ "`"
  | undeclaredParam path inst param cell =>
    "instance `" ++ inst ++ "` in `" ++ path.shown ++ "` sets parameter `" ++ param ++
      "`, which cell `" ++ cell ++ "` does not declare"
  | invalidExpr path inst param reason =>
    "invalid value for parameter `" ++ param ++ "` of instance `" ++ inst ++ "` in `" ++
      path.shown ++ "`: " ++ reason
  | crashed path inst param =>
    "the value of parameter `" ++ param ++ "` of instance `" ++ inst ++ "` in `" ++ path.shown ++
      "` cannot be read to its end"
  | misfiled path inst => "instance `" ++ inst ++ "` in `" ++ path.shown ++ "` is misfiled"
  | tooDeep path => "the hierarchy does not end at `" ++ path.shown ++ "`"

def CompileError.fatal : CompileError → Bool
  | crashed .. | misfiled .. | tooDeep .. => true
  | _ => false

end Netlisting
