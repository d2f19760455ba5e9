import Netlisting.Stream.Record

/-!
# The history of a session

The records that a consumer has taken, kept to be looked at again.  Samples may be limited in
number, and then the oldest are discarded; all other records stay.

The samples are counted as they come and go, and only the count tells whether there are too many;
the oldest of them may stand anywhere among the other records.
-/

namespace Netlisting

structure History where
  limit : Option Nat
  records : List Record := []
  /-- How many samples are counted. -/
  count : Nat := 0
  discarded : Nat := 0
  deriving DecidableEq

namespace History

def limitDefault : Nat := 100000

def ofLimit (limit : Option Nat) : History := { limit }

/-- The records without the first sample among them, if there is one. -/
def withoutFirst? : List Record → Option (List Record)
  | [] => none
  | r :: rest => if r.isSample then some rest else (withoutFirst? rest).map (r :: ·)

/-- Discards the oldest sample, again and again, while more than `most` are counted. -/
def evict (most : Nat) (h : History) : History :=
  if most < h.count then
    match withoutFirst? h.records with
    | some rest =>
      evict most { h with records := rest, count := h.count - 1, discarded := h.discarded + 1 }
    | none => h
  else h
  termination_by h.count

/-- Appends a record, and counts it if it is a sample. -/
def enter (h : History) (r : Record) : History :=
  { h with
    records := h.records ++ [r]
    count := if r.isSample then h.count + 1 else h.count }

def push (h : History) (r : Record) : History :=
  match h.limit with
  | some most => (h.enter r).evict most
  | none => h.enter r

def samples (h : History) : List Sample := samplesOf h.records

def size (h : History) : Nat := h.records.length

end History

end Netlisting
