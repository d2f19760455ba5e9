import Netlisting.Decimal.Printing

/-!
# Parameter expressions

A parameter is given by an expression over numbers, texts and the names of other parameters, and
has a `Value`.  A value is a number, a text, or *symbolic*: the text of an expression that is
left for the simulator, because it depends on a parameter that is to be swept.

`Expr.eval` reads names in a `Scope`.  Operands come before operators, the left before the right,
and a text operand is reported before anything else that may be wrong with an operation.
-/

namespace Netlisting

/-- A sequence of two steps succeeds when both do. -/
theorem of_except_bind_eq_ok {ε α β : Type} {x : Except ε α} {f : α → Except ε β} {b : β}
    (h : x.bind f = .ok b) : ∃ a, x = .ok a ∧ f a = .ok b := by
  cases x with
  | error e => cases h
  | ok a => exact ⟨a, rfl, h⟩

theorem of_except_map_eq_ok {ε α β : Type} {f : α → β} {x : Except ε α} {b : β}
    (h : x.map f = .ok b) : ∃ a, x = .ok a ∧ f a = b := by
  cases x with
  | error e => cases h
  | ok a => exact ⟨a, rfl, Except.ok.inj h⟩

theorem eq_ok_of_toOption {ε α : Type} {x : Except ε α} {a : α} (h : x.toOption = some a) :
    x = .ok a := by
  cases x with
  | error e => cases h
  | ok b => exact congrArg Except.ok (Option.some.inj h)

inductive BinaryOp where
  | add | sub | mul | div
  deriving DecidableEq

def BinaryOp.symbol : BinaryOp → Char
  | .add => '+'
  | .sub => '-'
  | .mul => '*'
  | .div => '/'

inductive Expr where
  | number (value : Decimal)
  | text (value : String)
  | name (name : String)
  | neg (operand : Expr)
  | binary (op : BinaryOp) (left right : Expr)
  deriving DecidableEq

inductive Value where
  | number (value : Decimal)
  | text (value : String)
  | symbolic (expression : String)
  deriving DecidableEq

/-- How a value is written: a symbolic one in braces. -/
def Value.shown : Value → String
  | .number n => n.text
  | .text s => s
  | .symbolic s => "\x7b" ++ s ++ "\x7d"

def Value.isNumber : Value → Bool
  | .number _ => true
  | _ => false

def Value.isText : Value → Bool
  | .text _ => true
  | _ => false

/-- A value as an operand inside a symbolic expression. -/
def Value.operand : Value → String
  | .number n => n.text
  | .text s => s
  | .symbolic s => s

/-- The values of the names that an expression may use. -/
abbrev Scope := String → Option Value

inductive EvalError where
  | unbound (name : String)
  | divisionByZero
  | textOperand (op : Char)
  | overflow
  deriving DecidableEq

def EvalError.message : EvalError → String
  | .unbound name => "`" ++ name ++ "` is not defined"
  | .divisionByZero => "division by zero"
  | .textOperand op => "cannot apply `" ++ op.toString ++ "` to a string operand"
  | .overflow => "arithmetic overflow"

namespace Expr

/-- The result of an operator on numbers, if it has one. -/
def result? : BinaryOp → Decimal → Decimal → Option Decimal
  | .add, a, b => a.add? b
  | .sub, a, b => a.sub? b
  | .mul, a, b => a.mul? b
  | .div, a, b => a.div? b

/-- Arithmetic on numbers. -/
def compute (op : BinaryOp) (a b : Decimal) : Except EvalError Decimal :=
  if op = .div ∧ b.isZero then .error .divisionByZero
  else match result? op a b with
    | some n => .ok n
    | none => .error .overflow

/-- An operation on values.  One symbolic operand makes the result symbolic. -/
def combine (op : BinaryOp) : Value → Value → Except EvalError Value
  | .text _, _ => .error (.textOperand op.symbol)
  | _, .text _ => .error (.textOperand op.symbol)
  | .number a, .number b => (compute op a b).map .number
  | a, b => .ok (.symbolic ("(" ++ a.operand ++ op.symbol.toString ++ b.operand ++ ")"))

def negate : Value → Except EvalError Value
  | .number n => .ok (.number n.neg)
  | .symbolic s => .ok (.symbolic ("-(" ++ s ++ ")"))
  | .text _ => .error (.textOperand '-')

def eval (scope : Scope) : Expr → Except EvalError Value
  | .number n => .ok (.number n)
  | .text s => .ok (.text s)
  | .name n => match scope n with
    | some v => .ok v
    | none => .error (.unbound n)
  | .neg e => (eval scope e).bind negate
  | .binary op l r => (eval scope l).bind fun a => (eval scope r).bind fun b => combine op a b

/-- The names that an expression uses, in order of appearance and with repetitions. -/
def names : Expr → List String
  | .number _ => []
  | .text _ => []
  | .name n => [n]
  | .neg e => e.names
  | .binary _ l r => l.names ++ r.names

end Expr

end Netlisting
