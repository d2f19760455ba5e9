import Netlisting.Decimal.Printing
import Netlisting.Document.Basic

/-!
# The values of a sweep

A parameter takes the values of a list, or those from `start` towards `stop` in steps of `step`.
A range is walked by adding the step to the value reached, as decimals; the walk ends beyond the
stop value, where the sum is too large, and where it no longer changes the value.  `points` never
gives more than one value above `pointBound`, which is enough to tell that there are too many.
-/

namespace Netlisting

inductive SweepValues where
  | list (values : List Decimal)
  | range (start stop step : Decimal)
  deriving DecidableEq

namespace SweepValues

def pointBound : Nat := 10000

/-- Whether a value has not yet passed the stop value, walking down when the step has a minus
sign and up otherwise. -/
def within (stop step value : Decimal) : Bool :=
  if step.negative then stop.le value else value.le stop

/-- At most `count` values, from `value` on. -/
def walk (stop step : Decimal) (count : Nat) (value : Decimal) : List Decimal :=
  match count with
  | 0 => []
  | count + 1 =>
    if within stop step value then
      value.normalize :: match value.add? step with
        | some next => if next.order value = .eq then [] else walk stop step count next
        | none => []
    else []

def points : SweepValues → List Decimal
  | list values => values.map Decimal.normalize
  | range start stop step => walk stop step (pointBound + 1) start

inductive Fault where
  | noValues
  | tooManyValues
  | zeroStep
  | wrongDirection
  deriving DecidableEq

def Fault.message : Fault → String
  | noValues => "no values given"
  | tooManyValues => "too many values"
  | zeroStep => "step is zero"
  | wrongDirection => "step moves away from the stop value"

/-- What is wrong with a sweep, if anything is. -/
def fault? : SweepValues → Option Fault
  | list values =>
    if values.isEmpty then some .noValues
    else if pointBound < values.length then some .tooManyValues
    else none
  | range start stop step =>
    if step.isZero then some .zeroStep
    else if stop.order start ≠ .eq ∧ start.lt stop = step.negative then some .wrongDirection
    else if pointBound < (range start stop step).points.length then some .tooManyValues
    else none

/-- Exactly one of the two forms. -/
def ofDocument? : Document → Option SweepValues
  | .table [("list", values)] => (values.listOf Document.asDecimal?).map list
  | .table [("range", d)] => do
    let start ← d.required "start" Document.asDecimal?
    let stop ← d.required "stop" Document.asDecimal?
    let step ← d.required "step" Document.asDecimal?
    return range start stop step
  | _ => none

end SweepValues

end Netlisting
