import Netlisting.Flattening.Basic

/-!
# Compiling with a memory

A compiler remembers its last result.  The same top cell, library token and options give the same
netlist again without a walk, unless the token has just dropped the cache of the resolver.  The
serial number of a result tells a remembered netlist from a new one.
-/

namespace Netlisting

structure Compiled where
  serial : Nat
  netlist : Netlist

structure Memo where
  top : Cell
  token : String
  options : CompileOptions
  result : Compiled

structure Compiler where
  last : Option Memo := none
  made : Nat := 0

namespace Compiler

def empty : Compiler := {}

def recalls (m : Memo) (top : Cell) (token : String) (o : CompileOptions) : Bool :=
  m.token == token && m.options.same o && m.top.same top

/-- The remembered result for this request. -/
def remembered? (c : Compiler) (top : Cell) (token : String) (o : CompileOptions) :
    Option Compiled :=
  c.last.bind fun m => if recalls m top token o then some m.result else none

/-- Flattens and remembers.  A failure leaves the memory alone. -/
def compileAnew (c : Compiler) (source : Library.Source) (top : Cell) (token : String)
    (o : CompileOptions) (r : Library.Resolver) :
    Except CompileError Compiled × Compiler × Library.Resolver :=
  match (flatten source o top).run r with
  | (.ok netlist, r) =>
    let result : Compiled := ⟨c.made, netlist⟩
    (.ok result, ⟨some ⟨top, token, o, result⟩, c.made + 1⟩, r)
  | (.error e, r) => (.error e, c, r)

def compile (c : Compiler) (source : Library.Source) (top : Cell) (token : String)
    (o : CompileOptions) (r : Library.Resolver) :
    Except CompileError Compiled × Compiler × Library.Resolver :=
  match r.sync token with
  | (true, r) => c.compileAnew source top token o r
  | (false, r) =>
    match c.remembered? top token o with
    | some result => (.ok result, c, r)
    | none => c.compileAnew source top token o r

end Compiler

end Netlisting
