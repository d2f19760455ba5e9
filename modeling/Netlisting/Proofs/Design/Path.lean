import Netlisting.Flattening.Level
import Netlisting.Proofs.Text.Joining

/-!
# Paths as texts

A path is shown with points between its names.  Where the names hold no points themselves the text
leads back to the path, and a qualified name leads back to the level and the name there.  The
names may be empty.
-/

namespace Netlisting

/-- No name holds a point. -/
def Dotless (names : List String) : Prop := ∀ n ∈ names, Level.hasPoint n = false

theorem dotless_append {a b : List String} : Dotless (a ++ b) ↔ Dotless a ∧ Dotless b := by
  simp only [Dotless, List.mem_append, or_imp, forall_and]

theorem dotless_singleton {n : String} : Dotless [n] ↔ Level.hasPoint n = false := by
  simp [Dotless]

theorem join_names_injective {a b : List String} (ha : a ≠ []) (hb : b ≠ []) (hda : Dotless a)
    (hdb : Dotless b) (h : Text.join "." a = Text.join "." b) : a = b := by
  have hpoint : ∀ names, Dotless names → ∀ n ∈ names, '.' ∉ n.toList := by
    intro names hnames n hn
    simpa [Level.hasPoint] using hnames n hn
  exact Text.join_injective ha hb (hpoint a hda) (hpoint b hdb) h

namespace InstancePath

theorem isTop_iff {p : InstancePath} : p.isTop = true ↔ p = top := by
  obtain ⟨names⟩ := p
  simp [isTop, top]

/-- A qualified name is shown as the path that ends with it. -/
theorem qualify_eq_join (p : InstancePath) (name : String) :
    p.qualify name = Text.join "." (p.names ++ [name]) := by
  obtain ⟨names⟩ := p
  cases names with
  | nil => simp [qualify, isTop, Text.join]
  | cons first rest =>
      rw [Text.join, String.intercalate_append_of_ne_nil (by simp) (by simp)]
      simp [qualify, isTop, joined, Text.join]

theorem qualify_injective {p q : InstancePath} {a b : String} (hp : Dotless (p.names ++ [a]))
    (hq : Dotless (q.names ++ [b])) (h : p.qualify a = q.qualify b) : p = q ∧ a = b := by
  rw [qualify_eq_join, qualify_eq_join] at h
  have hnames := join_names_injective (by simp) (by simp) hp hq h
  obtain ⟨hpath, hname⟩ := List.append_inj' hnames rfl
  exact ⟨congrArg InstancePath.mk hpath, by simpa using hname⟩

theorem shown_injective {p q : InstancePath} (hp : p.isTop = false) (hq : q.isTop = false)
    (hdp : Dotless p.names) (hdq : Dotless q.names) (h : p.shown = q.shown) : p = q := by
  unfold shown at h
  rw [hp, hq] at h
  have hpne : p.names ≠ [] := by simpa [isTop] using hp
  have hqne : q.names ≠ [] := by simpa [isTop] using hq
  exact congrArg InstancePath.mk (join_names_injective hpne hqne hdp hdq h)

/-- A path below another one, seen from where that starts. -/
def within (base p : InstancePath) : InstancePath := ⟨base.names ++ p.names⟩

/-- Paths that lead to an instance of the top cell, and on from there. -/
def isBelow (p : InstancePath) (inst : String) : Bool := p.names.head? == some inst

theorem eq_of_isBelow {p : InstancePath} {a b : String} (ha : p.isBelow a = true)
    (hb : p.isBelow b = true) : a = b := by
  simp only [isBelow, beq_iff_eq] at ha hb
  exact Option.some.inj (ha.symm.trans hb)

theorem within_top (base : InstancePath) : base.within top = base := by
  simp [within, top]

theorem within_child (base p : InstancePath) (name : String) :
    base.within (p.child name) = (base.within p).child name := by
  simp [within, child]

theorem qualify_within (inst : String) (p : InstancePath) (name : String) :
    (within ⟨[inst]⟩ p).qualify name = inst ++ "." ++ p.qualify name := by
  rw [qualify_eq_join, qualify_eq_join, Text.join, Text.join]
  have hsplit : (within ⟨[inst]⟩ p).names ++ [name] = [inst] ++ (p.names ++ [name]) := by
    simp [within]
  rw [hsplit, String.intercalate_append_of_ne_nil (by simp) (by simp)]
  simp

end InstancePath

end Netlisting
