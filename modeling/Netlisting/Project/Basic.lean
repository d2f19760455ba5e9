import Netlisting.Design.Reading
import Netlisting.Directive.Rendering
import Netlisting.Flattening.Params
import Netlisting.Netlist.Deck
import Netlisting.Stream.Settings
import Netlisting.Toml.Reader

/-!
# Projects

A project file holds libraries of cells, names the cell to simulate, and says what to run and
where.  At the top level of the file and among the settings of the client no key may be unknown; all
other tables may hold more than is read.
-/

namespace Netlisting

/-- Cells stored under one namespace and version. -/
structure Shelf where
  space : String
  version : String
  cells : List Cell

structure Project where
  top : CellRef
  dialect : Dialect := .ngspice
  compileOptions : CompileOptions := {}
  deckOptions : DeckOptions := {}
  directives : List Directive := []
  client : ClientSettings := {}
  shelves : List Shelf := []

open Document

def Shelf.ofDocument? (d : Document) : Option Shelf := do
  let d ← d.record? ["namespace", "version", "cells"]
  return ⟨← d.required "namespace" asText?, ← d.required "version" asText?,
    ← d.defaulted "cells" [] (listOf Cell.ofDocument?)⟩

def Dialect.ofDocument? (d : Document) : Option Dialect :=
  match d.asName? with
  | some "ngspice" => some .ngspice
  | some "xyce" => some .xyce
  | _ => none

def CompileOptions.ofDocument? (d : Document) : Option CompileOptions := do
  let d ← d.record? ["params", "symbolic", "ground"]
  let default : CompileOptions := {}
  return ⟨← d.defaulted "params" ∅ textTable?,
    NameSet.ofList (← d.defaulted "symbolic" [] (listOf asText?)),
    ← d.defaulted "ground" default.ground (listOf asText?)⟩

def DeckOptions.ofDocument? (d : Document) : Option DeckOptions := do
  let d ← d.record? ["title", "corner", "temperature", "includes", "extra"]
  let default : DeckOptions := {}
  return { title := ← d.optional "title" asText?
           corner := ← d.defaulted "corner" default.corner asText?
           temperature := ← d.optional "temperature" asDecimal?
           includes := ← d.defaulted "includes" [] (listOf Include.ofDocument?)
           extra := ← d.defaulted "extra" [] (listOf asText?) }

namespace Project

def keys : List String :=
  ["top", "dialect", "compile", "netlist", "directives", "client", "libraries"]

def ofDocument? (d : Document) : Option Project := do
  guard (d.onlyKeys keys)
  return { top := ← d.required "top" CellRef.ofDocument?
           dialect := ← d.defaulted "dialect" .ngspice Dialect.ofDocument?
           compileOptions := ← d.defaulted "compile" {} CompileOptions.ofDocument?
           deckOptions := ← d.defaulted "netlist" {} DeckOptions.ofDocument?
           directives := ← d.defaulted "directives" [] (listOf Directive.ofDocument?)
           client := ← d.defaulted "client" {} ClientSettings.ofDocument?
           shelves := ← d.defaulted "libraries" [] (listOf Shelf.ofDocument?) }

/-- The project that a text describes. -/
def ofText? (text : String) : Option Project := (Toml.ofText? text).bind ofDocument?

end Project

end Netlisting
