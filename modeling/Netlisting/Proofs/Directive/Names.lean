import Netlisting.Proofs.Directive.Commands
import Netlisting.Proofs.Directive.Concatenation
import Netlisting.Proofs.Directive.Vectors
import Netlisting.Proofs.Flattening.Provenance
import Netlisting.Proofs.Netlist.Lookup

/-!
# Names that directives are rendered with

What is rendered for a netlist is made of fixed text and of names of the netlist (`script`).  These
are names of global nets, each that of the class of the net that the directive calls, and elements
of devices, each that of the device whose path the directive gives (`names_written`).

One name is accepted without a net that is called so: where some net of the top level is ground,
`0` is the global name of ground, and it is resolved as all global names are (`ground_written`).
-/

namespace Netlisting

/-- A text is the name in the netlist for a name of the schematic. -/
def Name.IsWritten (o : CompileOptions) (n : Netlist) (h : Hierarchy) (c : NetClasses)
    (text : String) : Name → Prop
  | .net q => text ∈ n.directory.nets.keys ∧ h.Calls o c q text
  | .element inst | .current inst => ∃ d ∈ n.devices, d.name = inst ∧ d.element = text

/-- The element in the directory is that of a device with this path. -/
theorem Netlist.Catalogued.exists_device {n : Netlist} (hn : n.Catalogued) {inst element : String}
    (h : (n.directory.device? inst).map DeviceEntry.element = some element) :
    ∃ d ∈ n.devices, d.name = inst ∧ d.element = element := by
  obtain ⟨e, hget, rfl⟩ := Option.map_eq_some_iff.1 h
  obtain ⟨d, hd, hpath, helement⟩ := hn.device e ((Table.mem_values_iff ..).2 ⟨inst, hget⟩)
  exact ⟨d, hd, by rw [FlatDevice.name, ← hpath, hn.filed inst e hget], helement.symm⟩

section

variable {source : Library.Source} {o : CompileOptions} {key : Option Library.CellKey}
  {top : Cell} {r : Library.Resolver} {n : Netlist}

/-- Where instances are stored under their names, the classes are those of the connections. -/
theorem written_of_keyed (htop : top.Keyed) (hlib : Library.Keyed source r)
    (hrun : ((flattenTop source o key top).run r).1 = .ok n) {params : Params.TopParams}
    {h : Hierarchy}
    (hexpand : ((expandTop source (r.levels source) o key top).run r).1 = .ok (params, h))
    {a : NetSlot} (ha : a ∈ h.declared) {g : String}
    (hg : n.directory.resolveNet? a.qualified = some g) :
    (g = "0" ↔ h.AtGround o a) ∧
      (¬ h.AtGround o a → ∃ b, h.Names o a b ∧ g = b.qualified) := by
  obtain ⟨params', h', c, devices, hn⟩ := exists_flattens htop hlib hrun
  obtain rfl : h' = h := congrArg Prod.snd (Except.ok.inj (hn.expands.symm.trans hexpand))
  obtain ⟨i, hi⟩ := hn.exists_locates ha
  rw [hn.resolveNet?_of_locates hi] at hg
  obtain rfl := Option.some.inj hg
  exact hn.globalName_cases htop hlib hi

/-- All statements for a netlist are fixed text and names of it: global nets of the classes of the
nets that are called, and elements of the devices whose paths are given.  A name is refused unless a
net is called so at some level, or a device has this path, or it is that of ground. -/
theorem names_written (hrun : ((flattenTop source o key top).run r).1 = .ok n) {dialect : Dialect}
    {ds : List Directive} {out : Directive.Output}
    (hrendered : Directive.renderAll n.directory dialect ds = .ok out) :
    ∃ params h c devices,
      ((expandTop source (r.levels source) o key top).run r).1 = .ok (params, h) ∧
      h.connect o top.name ∅ NetClasses.empty = (c, devices) ∧
      n = Netlist.ofClasses top.name params.defaults c devices ∧
      ∃ write : Name → String,
        out.text = String.join ((Directive.scriptAll dialect ds).map fun s =>
          Piece.statement write s ++ "\n") ∧
        (Directive.scriptAll dialect ds).flatMap Piece.gaps =
          (Directive.partsAll ds).flatMap Directive.names ∧
        ∀ name ∈ (Directive.partsAll ds).flatMap Directive.names,
          name.IsWritten o n h c (write name) ∧
          (top.Keyed → Library.Keyed source r → ∀ a ∈ h.declared, name = .net a.qualified →
            (write name = "0" ↔ h.AtGround o a) ∧
            (¬ h.AtGround o a → ∃ b, h.Names o a b ∧ write name = b.qualified)) := by
  obtain ⟨params, h, hexpand, hn⟩ := of_flattenTop_eq_ok hrun
  obtain ⟨rendered, hlist, rfl⟩ := Directive.renderAll_eq_ok_iff.1 hrendered
  have hfound := Directive.written?_of_renderList hlist
  refine ⟨params, h, _, _, hexpand, rfl, hn, n.directory.written, ?_,
    Directive.gaps_scriptAll dialect ds, fun name hname => ⟨?_, fun htop hlib a ha hnet => ?_⟩⟩
  · rw [Directive.lines_of_renderList hlist, List.map_map]
    rfl
  · have hwritten := hfound name hname
    cases name with
    | net q =>
        generalize n.directory.written (.net q) = g at hwritten
        rw [hn] at hwritten ⊢
        exact Hierarchy.calls_of_resolveNet? rfl hwritten
    | element inst => exact (catalogued_of_flattenTop hrun).exists_device hwritten
    | current inst => exact (catalogued_of_flattenTop hrun).exists_device hwritten
  · subst hnet
    exact written_of_keyed htop hlib hrun hexpand ha (hfound _ hname)

end

/-- The second name of a net is written as the first one, and a resistor as its element. -/
theorem joined_written : ∃ n out, ∃ write : Name → String,
    ((flattenTop Divider.store.source {} none Joined.top).run Library.Resolver.empty).1 = .ok n ∧
      Directive.renderAll n.directory .ngspice [.op [.voltage "b", .current "r1"]] = .ok out ∧
      out.text = ".save v(" ++ write (.net "b") ++ ") @" ++ write (.current "r1") ++ "[i]\n.op\n" ∧
      write (.net "b") ∈ n.directory.nets.keys ∧
      ∃ d ∈ n.devices, d.name = "r1" ∧ d.element = write (.current "r1") := by
  obtain ⟨n, out, hrun, hout, -⟩ := Joined.exists_mapped .ngspice
    [.voltage "b", .current "r1"] [("v(a)", "v(b)"), ("@rr1[i]", "i(r1)")] (by decide +kernel)
  obtain ⟨_, h, c, _, -, -, -, write, htext, -, hwritten⟩ := names_written hrun hout
  have hnet : (Name.net "b").IsWritten {} n h c (write (.net "b")) :=
    (hwritten (.net "b") (by decide)).1
  have hdevice : (Name.current "r1").IsWritten {} n h c (write (.current "r1")) :=
    (hwritten (.current "r1") (by decide)).1
  refine ⟨n, out, write, hrun, hout, htext.trans ?_, hnet.1, hdevice⟩
  simp [Directive.scriptAll, Directive.script, Directive.commands, Directive.runs,
    Dialect.commands, Directive.probes, Directive.distinct, Dialect.listed, Dialect.asking,
    ← String.toList_inj]

/-! ### A name without a net -/

namespace Grounded

/-- No net is called `0`, and `gnd` is ground. -/
def top : Cell :=
  Cell.ofSchematic "top" <| ((Schematic.empty.addNet "a").addNet "gnd").addInstance
    { name := "r1", cell := ⟨"lib", "res", some "1"⟩
      connections := Table.ofList [("p", "a"), ("n", "gnd")] }

/-- The statements that ask for a net. -/
def statements (net : String) (n : Netlist) : Option String :=
  (Directive.renderAll n.directory .ngspice [.op [.voltage net]]).toOption.map
    Directive.Output.text

end Grounded

/-- Ground is asked for by its global name, which no declared net has. -/
theorem ground_written : ∃ n params h out,
    ((flattenTop Divider.store.source {} none Grounded.top).run Library.Resolver.empty).1 = .ok n ∧
      ((expandTop Divider.store.source (Library.Resolver.empty.levels Divider.store.source) {} none
        Grounded.top).run Library.Resolver.empty).1 = .ok (params, h) ∧
      (∀ a ∈ h.declared, a.qualified ≠ "0") ∧
      Directive.renderAll n.directory .ngspice [.op [.voltage "0"]] = .ok out ∧
      out.text = ".save v(0)\n.op\n" := by
  have hstatements : ((flattenByExpansion Divider.store.source
      (Library.Resolver.empty.levels Divider.store.source) {} none Grounded.top).run
        Library.Resolver.empty).1.toOption.map (Grounded.statements "0") =
      some (some ".save v(0)\n.op\n") := by decide +kernel
  have hdeclared : ((expandTop Divider.store.source
      (Library.Resolver.empty.levels Divider.store.source) {} none Grounded.top).run
        Library.Resolver.empty).1.toOption.map (fun e => e.2.declared.map NetSlot.qualified) =
      some ["a", "gnd"] := by decide +kernel
  obtain ⟨n, hrun, hsome⟩ := exists_flattenTop_of_expansion hstatements
  obtain ⟨out, hout, htext⟩ := Option.map_eq_some_iff.1 hsome
  obtain ⟨⟨params, h⟩, hexpand, hnames⟩ := Option.map_eq_some_iff.1 hdeclared
  refine ⟨n, params, h, out, hrun, eq_ok_of_toOption hexpand, fun a ha heq => ?_,
    eq_ok_of_toOption hout, htext⟩
  have hmem : a.qualified ∈ ["a", "gnd"] := by
    rw [← hnames]
    exact List.mem_map_of_mem ha
  rw [heq] at hmem
  exact absurd hmem (by decide)

end Netlisting
