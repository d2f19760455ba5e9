import Netlisting.Binary64.Printing
import Netlisting.Netlist.Directory

/-!
# Records

A simulation reports its results as a stream of records: samples of the probes, progress, the
simulator's log, errors that do not end it, and at last how it ended.

`dropSamples n` removes the oldest `n` samples of a sequence of records and nothing else; both the
intake and the history make room in that way.  `sampleCount_dropSamples` and
`nonSamples_dropSamples` say what is left.
-/

namespace Netlisting

/-- The value of a probe at one point.  Small-signal analyses give complex values. -/
inductive SampleValue where
  | real (value : Binary64)
  | complex (re im : Binary64)
  deriving DecidableEq

namespace SampleValue

def re : SampleValue → Binary64
  | real x => x
  | complex re _ => re

def im : SampleValue → Binary64
  | real _ => Binary64.zero
  | complex _ im => im

def isComplex : SampleValue → Bool
  | real _ => false
  | complex .. => true

def magnitude (v : SampleValue) : Binary64 := Binary64.hypotenuse v.re v.im

def phaseDegrees (v : SampleValue) : Binary64 := Binary64.angleDegrees v.re v.im

/-- The sign between the parts is a minus exactly when the imaginary part is below zero; any other
part is written behind a plus, with the sign that it has. -/
def shown : SampleValue → String
  | real x => x.text
  | complex re im =>
    if im.lt Binary64.zero then re.text ++ "-" ++ im.negate.text ++ "i"
    else re.text ++ "+" ++ im.text ++ "i"

end SampleValue

/-- One value for each probe, at one point of an analysis.  `x` is the independent variable: a
time, a frequency, or what is swept. -/
structure Sample where
  analysis : String
  x : Binary64
  values : Table String SampleValue
  deriving DecidableEq

inductive Severity where
  | info | warning | error
  deriving DecidableEq

def Severity.name : Severity → String
  | info => "Info"
  | warning => "Warning"
  | error => "Error"

inductive ErrorKind where
  | simulator
  | outOfOrderSample
  deriving DecidableEq

def ErrorKind.name : ErrorKind → String
  | simulator => "Simulator"
  | outOfOrderSample => "OutOfOrderSample"

/-- An error that does not end the simulation.  `reference` is an identifier of the netlist, and
`location` the place in the design that it stands for. -/
structure ErrorReport where
  kind : ErrorKind
  message : String
  reference : Option String := none
  location : Option Location := none
  deriving DecidableEq

inductive FinalStatus where
  | completed
  | failed (message : String)
  | cancelled
  deriving DecidableEq

inductive Record where
  | progress (fraction : Binary64)
  | sample (sample : Sample)
  | log (severity : Severity) (message : String)
  | error (report : ErrorReport)
  | done (status : FinalStatus)
  deriving DecidableEq

namespace Record

def isSample : Record → Bool
  | sample _ => true
  | _ => false

def asSample? : Record → Option Sample
  | sample s => some s
  | _ => none

def finalStatus? : Record → Option FinalStatus
  | done status => some status
  | _ => none

end Record

/-- The samples among the records, in order. -/
def samplesOf (records : List Record) : List Sample := records.filterMap Record.asSample?

def sampleCount (records : List Record) : Nat := records.countP Record.isSample

/-- The records without the first `n` samples. -/
def dropSamples : Nat → List Record → List Record
  | 0, records => records
  | _ + 1, [] => []
  | n + 1, r :: rest => if r.isSample then dropSamples n rest else r :: dropSamples (n + 1) rest

@[simp] theorem dropSamples_zero (records : List Record) : dropSamples 0 records = records := by
  cases records <;> rfl

@[simp] theorem dropSamples_nil (n : Nat) : dropSamples n [] = [] := by
  cases n <;> rfl

theorem dropSamples_cons_of_isSample {r : Record} (h : r.isSample = true) (n : Nat)
    (rest : List Record) : dropSamples (n + 1) (r :: rest) = dropSamples n rest := by
  simp [dropSamples, h]

theorem dropSamples_cons_of_not_isSample {r : Record} (h : r.isSample = false) (n : Nat)
    (rest : List Record) : dropSamples n (r :: rest) = r :: dropSamples n rest := by
  cases n <;> simp [dropSamples, h]

theorem sampleCount_dropSamples (n : Nat) (records : List Record) :
    sampleCount (dropSamples n records) = sampleCount records - n := by
  induction records generalizing n with
  | nil => simp [sampleCount]
  | cons r rest ih =>
    cases h : r.isSample
    · rw [dropSamples_cons_of_not_isSample h]
      simpa [sampleCount, h] using ih n
    · cases n with
      | zero => simp
      | succ n =>
        rw [dropSamples_cons_of_isSample h, ih]
        simp [sampleCount, h]

/-- What is not a sample stays, in order. -/
theorem nonSamples_dropSamples (n : Nat) (records : List Record) :
    (dropSamples n records).filter (fun r => !r.isSample) =
      records.filter fun r => !r.isSample := by
  induction records generalizing n with
  | nil => simp
  | cons r rest ih =>
    cases h : r.isSample
    · rw [dropSamples_cons_of_not_isSample h]
      simp [h, ih]
    · cases n with
      | zero => simp
      | succ n =>
        rw [dropSamples_cons_of_isSample h, ih]
        simp [h]

/-- The newest samples stay, in order. -/
theorem samplesOf_dropSamples (n : Nat) (records : List Record) :
    samplesOf (dropSamples n records) = (samplesOf records).drop n := by
  induction records generalizing n with
  | nil => simp [samplesOf]
  | cons r rest ih =>
    cases r with
    | sample s =>
      cases n with
      | zero => simp
      | succ n =>
        rw [dropSamples_cons_of_isSample rfl, ih]
        simp [samplesOf, Record.asSample?]
    | _ =>
      rw [dropSamples_cons_of_not_isSample rfl]
      simpa [samplesOf, Record.asSample?, List.filterMap_cons] using ih n

end Netlisting
