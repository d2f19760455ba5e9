import Netlisting.Stream.Record

/-!
# Putting samples into order

Samples of an analysis may arrive slightly out of order.  The buffer holds back up to `depth`
samples of every analysis, sorted by the independent variable, and releases the first of them when
there are more.  A sample that lies before one already released comes too late: it is dropped, and
an error record says so.  The last value released is the *watermark* of the analysis.

The place of a new sample is found by halving (`bisect`), behind all samples that are not greater.
Values that compare with nothing, such as the result of a division by zero, can stand anywhere.
-/

namespace Netlisting

/-- Halves a range that starts at `base` until one element is left, and goes behind that element
if it is accepted. -/
def bisect (accept : Nat → Bool) (base size : Nat) : Nat :=
  if size < 2 then
    if size = 1 ∧ accept base = true then base + 1 else base
  else
    let middle := base + size / 2
    bisect accept (if accept middle then middle else base) (size - size / 2)
  termination_by size

/-- The samples of one analysis that are held back, and the last value released. -/
structure Held where
  samples : List Sample := []
  watermark : Option Binary64 := none
  deriving DecidableEq

namespace Held

/-- The watermark, when a sample at `x` lies before it. -/
def behind? (h : Held) (x : Binary64) : Option Binary64 := h.watermark.filter x.lt

def place (h : Held) (x : Binary64) : Nat :=
  bisect (fun i => (h.samples[i]?).any fun s => s.x.le x) 0 h.samples.length

def insert (h : Held) (s : Sample) : Held :=
  let n := h.place s.x
  { h with samples := h.samples.take n ++ s :: h.samples.drop n }

/-- Releases the first `n` samples. -/
def release (h : Held) (n : Nat) : List Sample × Held :=
  let ready := h.samples.take n
  (ready, ⟨h.samples.drop n, (ready.getLast?.map Sample.x).or h.watermark⟩)

end Held

structure ReorderBuffer where
  depth : Nat
  analyses : Table String Held := ∅
  deriving DecidableEq

namespace ReorderBuffer

def depthDefault : Nat := 8

def ofDepth (depth : Nat) : ReorderBuffer := ⟨depth, ∅⟩

def held (b : ReorderBuffer) (analysis : String) : Held := (b.analyses.get? analysis).getD {}

/-- What is reported in place of a sample that comes too late. -/
def lateReport (s : Sample) (released : Binary64) : ErrorReport where
  kind := .outOfOrderSample
  message := s.analysis ++ " sample at " ++ s.x.text ++ " arrived after the sample at " ++
    released.text

/-- Takes a sample and gives the records that are ready. -/
def push (b : ReorderBuffer) (s : Sample) : List Record × ReorderBuffer :=
  match (b.held s.analysis).behind? s.x with
  | some released => ([.error (lateReport s released)], b)
  | none =>
    let h := (b.held s.analysis).insert s
    let (ready, h) := h.release (h.samples.length - b.depth)
    (ready.map .sample, { b with analyses := b.analyses.put s.analysis h })

/-- Releases all samples, analysis by analysis. -/
def flush (b : ReorderBuffer) : List Record × ReorderBuffer :=
  ((b.analyses.values.flatMap Held.samples).map .sample,
    { b with analyses := b.analyses.map fun _ h => (h.release h.samples.length).2 })

end ReorderBuffer

end Netlisting
