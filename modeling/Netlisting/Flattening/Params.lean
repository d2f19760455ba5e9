import Netlisting.Expr.Parser
import Netlisting.Flattening.Error
import Netlisting.Text.Casing

/-!
# The parameters of a level

The expressions that an instance gives are evaluated in the scope of the level that holds the
instance; the defaults of a cell are evaluated over the parameters declared before them.  Names
that neither scope knows are looked up among the parameters of the top cell that stay symbolic.

The top cell is evaluated twice: once with all values, so that symbolic parameters have a default
value, and once with the symbolic parameters standing for themselves.
-/

namespace Netlisting

/-- What to make of the top cell: overrides of its parameters, the parameters to leave to the
simulator, and the names of nets that are ground, in any case.  A top-level net `0` is always
ground. -/
structure CompileOptions where
  params : Table String String := ∅
  symbolic : NameSet := ∅
  ground : List String := ["0", "gnd"]

def CompileOptions.isGround (o : CompileOptions) (net : String) : Bool :=
  net == "0" || o.ground.any fun g => Text.sameFold g net

/-- The same options, up to the order of what has no order. -/
def CompileOptions.same (a b : CompileOptions) : Bool :=
  a.params.sameEntries b.params && a.symbolic.sameNames b.symbolic && a.ground == b.ground

namespace Params

/-- The names of a level in front of the symbolic parameters. -/
def layered (inner outer : Table String Value) : Scope := fun name =>
  match inner.get? name with
  | some v => some v
  | none => outer.get? name

/-- Where an expression stands, for the errors about it. -/
structure Site where
  path : InstancePath
  inst : String

/-- The error about an expression that cannot be read. -/
def unreadable (site : Site) (param : String) (e : Expr.ParseError) : CompileError :=
  match e with
  | .unexpected .. => .invalidExpr site.path site.inst param e.message
  | .crash _ => .crashed site.path site.inst param

def evaluate (site : Site) (param : String) (scope : Scope) (expression : String) :
    Except CompileError Value :=
  match Expr.parse expression with
  | .error e => .error (unreadable site param e)
  | .ok e =>
    match e.eval scope with
    | .ok v => .ok v
    | .error (.unbound name) => .error (.unresolvedParam site.path site.inst param name)
    | .error e => .error (.invalidExpr site.path site.inst param e.message)

/-- Evaluates expressions in one scope, in order. -/
def evaluateAll (site : Site) (scope : Scope) :
    List (String × String) → Except CompileError (List (String × Value))
  | [] => .ok []
  | (param, expression) :: rest => do
    let value ← evaluate site param scope expression
    let values ← evaluateAll site scope rest
    return (param, value) :: values

/-- The override of a declared parameter if there is one, or else its default over the parameters
before it. -/
def valueOf (site : Site) (symbolic overrides scope : Table String Value) (param : String)
    (default : Option String) : Except CompileError Value :=
  match overrides.get? param, default with
  | some value, _ => .ok value
  | none, some expression => evaluate site param (layered scope symbolic) expression
  | none, none => .error (.unresolvedParam site.path site.inst param param)

/-- Gives every declared parameter its value, in order. -/
def fill (site : Site) (symbolic overrides : Table String Value) (scope : Table String Value) :
    List (String × Option String) → Except CompileError (Table String Value)
  | [] => .ok scope
  | (param, default) :: rest => do
    let value ← valueOf site symbolic overrides scope param default
    fill site symbolic overrides (scope.put param value) rest

def declared (site : Site) (symbolic overrides : Table String Value) (cell : Cell) :
    Except CompileError (Table String Value) :=
  fill site symbolic overrides ∅ cell.params.entries

/-- The parameters of an instance of `cell`.  Devices hand parameters that they do not declare on
to the simulator; a subcircuit must declare all that it is given. -/
def ofInstance (path : InstancePath) (symbolic scope : Table String Value) (i : Instance)
    (cell : Cell) : Except CompileError (Table String Value) := do
  let site : Site := ⟨path, i.name⟩
  let overrides := Table.ofList
    (← evaluateAll site (layered scope symbolic) i.params.entries)
  let values ← declared site symbolic overrides cell
  let extra := overrides.entries.filter fun e => !cell.params.contains e.1
  match cell.contents, extra with
  | _, [] => return values
  | .device _, extra => return extra.foldl (fun t e => t.put e.1 e.2) values
  | .schematic _, (param, _) :: _ =>
    .error (.undeclaredParam path i.name param cell.name)

/-- The parameters of the top level, and the default values of those left symbolic. -/
structure TopParams where
  scope : Table String Value
  defaults : Table String Value

/-- Symbolic parameters stand for themselves. -/
def standIns (names : List String) : Table String Value :=
  Table.ofList (names.map fun n => (n, Value.symbolic n))

def ofTop (o : CompileOptions) (top : Cell) : Except CompileError TopParams := do
  let site : Site := ⟨InstancePath.top, top.name⟩
  match (o.params.keys ++ o.symbolic.names).find? fun n => !top.params.contains n with
  | some n => .error (.undeclaredParam site.path top.name n top.name)
  | none => pure ()
  let closed : Scope := fun _ => none
  let concrete ← declared site ∅ (Table.ofList (← evaluateAll site closed o.params.entries)) top
  let defaults := Table.ofList
    (o.symbolic.names.filterMap fun n => (concrete.get? n).map fun v => (n, v))
  let symbolic := standIns o.symbolic.names
  let kept := o.params.entries.filter fun e => !o.symbolic.contains e.1
  let values ← evaluateAll site closed kept
  let overrides := symbolic.entries.foldl (fun t e => t.put e.1 e.2) (Table.ofList values)
  let scope ← declared site symbolic overrides top
  return ⟨scope, defaults⟩

end Params

end Netlisting
