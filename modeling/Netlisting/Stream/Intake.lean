import Netlisting.Stream.Record

/-!
# The intake

The queue between the receiver of a session and its consumer.  It holds at most `capacity`
records, with one exception: a record that is not a sample is never refused by `pushEvicting`, so
the queue may grow beyond its capacity when it has no samples left to evict.
-/

namespace Netlisting

structure Intake where
  capacity : Nat
  queue : List Record := []
  closed : Bool := false
  dropped : Nat := 0
  capacity_pos : 0 < capacity
  deriving DecidableEq

namespace Intake

def capacityDefault : Nat := 1024

/-- An empty queue.  It has room for at least one record. -/
def ofCapacity (capacity : Nat) : Intake where
  capacity := max capacity 1
  capacity_pos := by omega

def isFull (q : Intake) : Bool := decide (q.capacity ≤ q.queue.length)

/-- Appends a record if there is room for it.  A closed queue takes every record and forgets it.
The answer tells whether the record was taken. -/
def tryPush (q : Intake) (r : Record) : Bool × Intake :=
  if q.closed then (true, q)
  else if q.isFull then (false, q)
  else (true, { q with queue := q.queue ++ [r] })

/-- Appends a record and evicts the oldest samples to make room for it.  A sample that finds no
sample to evict is dropped itself.  The answer is the number of samples that were lost. -/
def pushEvicting (q : Intake) (r : Record) : Nat × Intake :=
  if q.closed then (0, q)
  else
    let excess := q.queue.length + 1 - q.capacity
    let evicted := min excess (sampleCount q.queue)
    let kept := dropSamples excess q.queue
    if r.isSample && decide (q.capacity ≤ kept.length) then
      (evicted + 1, { q with queue := kept, dropped := q.dropped + 1 })
    else (evicted, { q with queue := kept ++ [r], dropped := q.dropped + evicted })

inductive Received where
  | record (record : Record)
  | closed
  | waiting
  deriving DecidableEq

/-- Takes the first record.  What is queued can be taken after closing. -/
def receive (q : Intake) : Received × Intake :=
  match q.queue with
  | r :: rest => (.record r, { q with queue := rest })
  | [] => (if q.closed then .closed else .waiting, q)

def close (q : Intake) : Intake := { q with closed := true }

/-- Forgets what is queued and closes. -/
def abandon (q : Intake) : Intake := { q with queue := [], closed := true }

def size (q : Intake) : Nat := q.queue.length

@[simp] theorem closed_abandon (q : Intake) : q.abandon.closed = true := rfl

@[simp] theorem queue_abandon (q : Intake) : q.abandon.queue = [] := rfl

theorem tryPush_of_closed {q : Intake} (h : q.closed = true) (r : Record) :
    q.tryPush r = (true, q) := by
  simp [tryPush, h]

theorem pushEvicting_of_closed {q : Intake} (h : q.closed = true) (r : Record) :
    q.pushEvicting r = (0, q) := by
  simp [pushEvicting, h]

end Intake

end Netlisting
