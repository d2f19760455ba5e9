import Netlisting.Proofs.Directive.Statements
import Netlisting.Proofs.Flattening.Recursion

/-!
# The vectors of requested probes

Rendering asks the simulator for a vector for each requested probe, in the order of `askedAll`
(`vectors_renderList`).  The vectors are the keys of a table, so of several probes with one vector
the table keeps the last: a probe is kept exactly if no probe behind it has its vector
(`probes_kept`).

Different probes have one vector when they are names of one net, or of nets whose names differ in
letter case.  `Joined` is a netlist with two names for one net.
-/

namespace Netlisting

theorem Probe.shown_injective {p q : Probe} (h : p.shown = q.shown) : p = q := by
  have hlist := congrArg String.toList h
  cases p <;> cases q <;> simp [Probe.shown, ← String.toList_inj] at hlist ⊢
  · exact hlist
  · exact hlist

/-- The name under which the values of a probe are reported, if the netlist has what it probes. -/
def Probe.vector? (d : Directory) (dialect : Dialect) : Probe → Option String
  | .voltage net => (d.resolveNet? net).map fun global => dialect.vector (.voltage global)
  | .current inst => (d.device? inst).map fun e => dialect.vector (.current e.element)

namespace Directive

/-- A directive requests a probe, or one inside of it does. -/
inductive Requests (p : Probe) : Directive → Prop where
  | here {directive : Directive} (mem : p ∈ directive.probes) : Requests p directive
  | inside {inner : Directive} {param : String} {values : SweepValues} {body : List Directive}
      (mem : inner ∈ body) (requests : Requests p inner) : Requests p (sweep param values body)

mutual

/-- The requested probes, in the order in which they are asked for. -/
def asked : Directive → List Probe
  | sweep _ _ body => askedAll body
  | directive => distinct directive.probes

def askedAll : List Directive → List Probe
  | [] => []
  | directive :: rest => asked directive ++ askedAll rest

end

theorem mem_distinct (p : Probe) (probes : List Probe) : p ∈ distinct probes ↔ p ∈ probes := by
  induction probes with
  | nil => rfl
  | cons q rest ih =>
      rw [distinct, List.mem_cons, List.mem_cons, List.mem_filter, ih]
      by_cases hq : p = q <;> simp [hq]

mutual

theorem mem_asked_iff (p : Probe) : ∀ directive, p ∈ asked directive ↔ Requests p directive
  | .sweep param values body => by
      rw [asked, mem_askedAll_iff p body]
      constructor
      · rintro ⟨inner, hmem, hrequests⟩
        exact .inside hmem hrequests
      · rintro (hmem | ⟨hmem, hrequests⟩)
        · cases hmem
        · exact ⟨_, hmem, hrequests⟩
  | .tran .. | .ac .. | .op .. | .dc .. | .noise .. | .transfer .. => by
      simp only [asked, mem_distinct]
      refine ⟨.here, fun h => ?_⟩
      cases h
      assumption

theorem mem_askedAll_iff (p : Probe) :
    ∀ ds, p ∈ askedAll ds ↔ ∃ directive ∈ ds, Requests p directive
  | [] => by simp [askedAll]
  | directive :: rest => by
      simp [askedAll, mem_asked_iff p directive, mem_askedAll_iff p rest]

end

/-! ### Vectors in the order of the requests -/

variable {d : Directory} {dialect : Dialect}

/-- The vectors are those of the probes, one by one, each with the name of its probe. -/
def Records (d : Directory) (dialect : Dialect) (probes : List Probe)
    (vectors : List (String × String)) : Prop :=
  probes.map (fun p => (p.vector? d dialect, p.shown)) = vectors.map fun v => (some v.1, v.2)

theorem Records.append {probes more : List Probe} {vectors others : List (String × String)}
    (h : Records d dialect probes vectors) (hmore : Records d dialect more others) :
    Records d dialect (probes ++ more) (vectors ++ others) := by
  unfold Records at *
  rw [List.map_append, List.map_append, h, hmore]

theorem vector?_of_targetOf {directive : String} {p : Probe} {t : Target}
    (h : targetOf d directive p = .ok t) : p.vector? d dialect = some (dialect.vector t) := by
  cases p with
  | voltage net =>
      obtain ⟨global, hnet, rfl⟩ := of_except_map_eq_ok h
      rw [Probe.vector?, resolveNet?_of_netOf hnet, Option.map_some]
  | current inst =>
      obtain ⟨element, helement, htarget⟩ := of_except_bind_eq_ok h
      split at htarget
      · cases htarget
      · cases htarget
        have hdevice := congrArg (Option.map fun element => dialect.vector (.current element))
          (device?_of_elementOf helement)
        rwa [Option.map_map] at hdevice

theorem records_of_targetsOf {directive : String} {probes : List Probe}
    {targets : List (Probe × Target)} (h : targetsOf d directive probes = .ok targets) :
    Records d dialect probes (targets.map fun t => (dialect.vector t.2, t.1.shown)) := by
  induction probes generalizing targets with
  | nil =>
      cases h
      rfl
  | cons p rest ih =>
      obtain ⟨t, ht, hbind⟩ := of_except_bind_eq_ok h
      obtain ⟨more, hmore, hcons⟩ := of_except_bind_eq_ok hbind
      cases hcons
      unfold Records at ih ⊢
      rw [List.map_cons, ih hmore, vector?_of_targetOf ht]
      rfl

theorem records_of_save {directive analysis : String} {probes : List Probe} {r : Rendered}
    (h : save d dialect directive analysis probes = .ok r) :
    Records d dialect (distinct probes) r.vectors := by
  obtain ⟨targets, htargets, hrendered⟩ := of_except_bind_eq_ok h
  cases hrendered
  exact records_of_targetsOf htargets

/-- An analysis asks for its probes, each once. -/
theorem records_of_renderAnalysis {directive : Directive} {r : Rendered}
    (h : renderAnalysis d dialect directive = .ok r) :
    Records d dialect (distinct directive.probes) r.vectors := by
  obtain ⟨saved, hsaved, rfl⟩ := of_renderAnalysis h
  simpa [Rendered.append] using records_of_save hsaved

mutual

theorem records_of_render : ∀ {directive : Directive} {r : Rendered},
    render d dialect directive = .ok r → Records d dialect (asked directive) r.vectors
  | .sweep param values body, r, h => by
      obtain ⟨inner, hbody, rfl⟩ := of_render_sweep h
      show Records d dialect (asked (.sweep param values body)) inner.vectors
      rw [asked]
      exact records_of_renderList hbody
  | .tran .., r, h | .ac .., r, h | .op .., r, h | .dc .., r, h | .noise .., r, h
  | .transfer .., r, h => by
      simp only [render] at h
      simp only [asked]
      exact records_of_renderAnalysis h

/-- Directives ask for all requested probes, in order. -/
theorem records_of_renderList : ∀ {ds : List Directive} {r : Rendered},
    renderList d dialect ds = .ok r → Records d dialect (askedAll ds) r.vectors
  | [], r, h => by
      cases h
      rfl
  | directive :: rest, r, h => by
      obtain ⟨first, more, hfirst, hrest, rfl⟩ := of_renderList_cons h
      exact (records_of_render hfirst).append (records_of_renderList hrest)

end

/-! ### The last probe of a vector -/

/-- The table holds the last requested probe of every vector. -/
theorem get?_vectors_iff {ds : List Directive} {out : Output}
    (h : renderAll d dialect ds = .ok out) (vector name : String) :
    out.vectors.get? vector = some name ↔ ∃ before p after, askedAll ds = before ++ p :: after ∧
      p.vector? d dialect = some vector ∧ p.shown = name ∧
      ∀ q ∈ after, q.vector? d dialect ≠ some vector := by
  obtain ⟨r, hr, -, hvectors⟩ := of_renderAll h
  have hrecords := records_of_renderList hr
  unfold Records at hrecords
  rw [hvectors, Table.get?_ofList_eq_some_iff]
  constructor
  · rintro ⟨before, after, hsplit, hafter⟩
    rw [hsplit, List.map_append, List.map_cons] at hrecords
    obtain ⟨front, back, hasked, _, hback⟩ := List.map_eq_append_iff.1 hrecords
    obtain ⟨p, rest, rfl, hp, hrest⟩ := List.map_eq_cons_iff.1 hback
    refine ⟨front, p, rest, hasked, (Prod.mk.inj hp).1, (Prod.mk.inj hp).2, fun q hq heq => ?_⟩
    have hmem : (some vector, q.shown) ∈ after.map fun v => (some v.1, v.2) := by
      rw [← hrest, ← heq]
      exact List.mem_map.2 ⟨q, hq, rfl⟩
    obtain ⟨v, hv, hpair⟩ := List.mem_map.1 hmem
    exact hafter (List.mem_map.2 ⟨v, hv, Option.some.inj (Prod.mk.inj hpair).1⟩)
  · rintro ⟨before, p, after, hasked, hp, rfl, hafter⟩
    rw [hasked, List.map_append, List.map_cons] at hrecords
    obtain ⟨front, back, hsplit, _, hback⟩ := List.map_eq_append_iff.1 hrecords.symm
    obtain ⟨⟨v, name⟩, rest, rfl, hv, hrest⟩ := List.map_eq_cons_iff.1 hback
    obtain ⟨hvector, hname⟩ := Prod.mk.inj hv
    rw [hp] at hvector
    cases hvector
    cases hname
    refine ⟨front, rest, hsplit, fun hmem => ?_⟩
    obtain ⟨w, hw, hkey⟩ := List.mem_map.1 hmem
    have hpair : (some w.1, w.2) ∈ after.map fun q => (q.vector? d dialect, q.shown) := by
      rw [← hrest]
      exact List.mem_map.2 ⟨w, hw, rfl⟩
    obtain ⟨q, hq, heq⟩ := List.mem_map.1 hpair
    exact hafter q hq ((Prod.mk.inj heq).1.trans (congrArg some hkey))

end Directive

namespace Joined

/-- The nets `a` and `b` are one. -/
def top : Cell :=
  Cell.ofSchematic "top" <| ((((Schematic.empty.addNet "a").addNet "b").addNet "0").addShort
    "a" "b").addInstance
      { name := "r1", cell := ⟨"lib", "res", some "1"⟩
        connections := Table.ofList [("p", "a"), ("n", "0")] }

/-- The map that belongs to some probes of a netlist. -/
def mapped (dialect : Dialect) (probes : List Probe) (n : Netlist) :
    Option (List (String × String)) :=
  (Directive.renderAll n.directory dialect [.op probes]).toOption.map fun out =>
    out.vectors.entries

theorem exists_mapped (dialect : Dialect) (probes : List Probe) (entries : List (String × String))
    (h : ((flattenByExpansion Divider.store.source
      (Library.Resolver.empty.levels Divider.store.source) {} none top).run
        Library.Resolver.empty).1.toOption.map (mapped dialect probes) = some (some entries)) :
    ∃ n out, ((flattenTop Divider.store.source {} none top).run Library.Resolver.empty).1 = .ok n ∧
      Directive.renderAll n.directory dialect [.op probes] = .ok out ∧
      out.vectors.entries = entries := by
  obtain ⟨n, hrun, hmapped⟩ := exists_flattenTop_of_expansion h
  obtain ⟨out, hout, hentries⟩ := Option.map_eq_some_iff.1 hmapped
  exact ⟨n, out, hrun, eq_ok_of_toOption hout, hentries⟩

end Joined

end Netlisting
