import Netlisting.Table
import Netlisting.Text.Casing

/-!
# Vectors and probes

A simulator reports each quantity as a vector with a name of its own.  The map leads from vectors
to the probes that asked for them.  Simulators differ in how they case the names, so a vector that
is not found as it is written is looked for up to the case of ASCII letters.
-/

namespace Netlisting

/-- Probes by vector, in the order in which the vectors were first asked for. -/
abbrev VectorMap := Table String String

namespace VectorMap

/-- The place and the probe of a vector. -/
def find? (m : VectorMap) (vector : String) : Option (Nat × String) :=
  match m.indexOf? vector with
  | some i => (m.get? vector).map fun probe => (i, probe)
  | none =>
    (m.entries.findIdx? fun e => Text.sameFold e.1 vector).bind fun i =>
      m.entries[i]?.map fun e => (i, e.2)

def rename? (m : VectorMap) (vector : String) : Option String := (m.find? vector).map Prod.snd

end VectorMap

end Netlisting
