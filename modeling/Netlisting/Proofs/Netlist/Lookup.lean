import Netlisting.Proofs.Netlist.SourceMap

/-!
# Looking up identifiers

An identifier is compared with the nets of a netlist and then with its devices, and letter case is
given up for the nets before the devices are asked at all.  So an identifier that is written exactly
as a net is located at the net, but one that is written exactly as a device may be `Shadowed`: by a
net, or by an earlier device, that has this name up to letter case only.  Where it is not shadowed
it is located at the device (`locate_exact`).

`Clash` is a netlist with both kinds of shadow.
-/

namespace Netlisting

namespace Text

/-- There is no blank at either end. -/
def Trimmed (text : String) : Prop :=
  text.toList.head?.all (!isBlank ·) = true ∧ text.toList.getLast?.all (!isBlank ·) = true

instance (text : String) : Decidable (Trimmed text) := inferInstanceAs (Decidable (_ ∧ _))

theorem trimStart_of_head? {text : List Char} (h : text.head?.all (!isBlank ·) = true) :
    trimStart text = text := by
  cases text with
  | nil => rfl
  | cons c rest => exact List.dropWhile_cons_of_neg (by simpa using h)

theorem trim_of_trimmed {text : String} (h : Trimmed text) :
    String.ofList (trim text.toList) = text := by
  have hstart := trimStart_of_head? h.1
  have hend : trimStart text.toList.reverse = text.toList.reverse :=
    trimStart_of_head? (by rw [List.head?_reverse]; exact h.2)
  rw [trim, hstart, hend, List.reverse_reverse, String.ofList_toList]

theorem sameFold_self (text : String) : sameFold text text = true := beq_self_eq_true _

end Text

/-- The device has this instance path or this element name, to the letter. -/
def DeviceEntry.IsCalled (e : DeviceEntry) (identifier : String) : Prop :=
  e.path.shown = identifier ∨ e.element = identifier

namespace Directory

/-- Some name that differs in letter case comes before the devices of this name: that of a net, or,
if the identifier is no instance path, that of an element. -/
def Shadowed (d : Directory) (identifier : String) : Prop :=
  (∃ net ∈ d.nets.keys, Text.sameFold net identifier = true) ∨
    identifier ∉ d.devices.keys ∧ ∃ before e after, d.devices.values = before ++ e :: after ∧
      Text.sameFold e.element identifier = true ∧
        ∀ f ∈ before ++ [e], f.element ≠ identifier

/-- Devices are filed under their instance paths. -/
def Filed (d : Directory) : Prop := ∀ path e, d.devices.get? path = some e → e.path.shown = path

theorem Filed.get?_path {d : Directory} (h : d.Filed) {e : DeviceEntry}
    (he : e ∈ d.devices.values) : d.devices.get? e.path.shown = some e := by
  obtain ⟨path, hpath⟩ := (Table.mem_values_iff ..).1 he
  rwa [h path e hpath]

/-! ### Nets and devices of a name -/

section

variable {d : Directory} {identifier : String}

theorem netNamed?_eq_none_iff :
    d.netNamed? identifier = none ↔ ∀ net ∈ d.nets.keys, Text.sameFold net identifier = false := by
  unfold netNamed?
  cases hexact : d.nets.get? identifier with
  | some e =>
      have hmem : identifier ∈ d.nets.keys := (Table.get?_isSome_iff _ _).1 (by rw [hexact]; rfl)
      refine iff_of_false nofun fun hnone => ?_
      exact Bool.false_ne_true ((hnone identifier hmem).symm.trans (Text.sameFold_self identifier))
  | none => simp [Table.keys]

/-- A net that is found has the name exactly, or else up to letter case. -/
theorem of_netNamed?_eq_some {e : NetEntry} (h : d.netNamed? identifier = some e) :
    ∃ net, d.nets.get? net = some e ∧ Text.sameFold net identifier = true ∧
      (net = identifier ∨ identifier ∉ d.nets.keys) := by
  unfold netNamed? at h
  cases hexact : d.nets.get? identifier with
  | some exact =>
      rw [hexact] at h
      exact ⟨identifier, hexact.trans h, Text.sameFold_self _, .inl rfl⟩
  | none =>
      rw [hexact] at h
      obtain ⟨⟨net, entry⟩, hfind, rfl⟩ := Option.map_eq_some_iff.1 h
      have hfold : Text.sameFold net identifier = true := by simpa using List.find?_some hfind
      exact ⟨net, (Table.get?_eq_some_iff ..).2 (List.mem_of_find?_eq_some hfind), hfold,
        .inr ((Table.get?_eq_none_iff ..).1 hexact)⟩

theorem byElement?_eq (d : Directory) (identifier : String) :
    (d.byElement? identifier).map Prod.snd =
      d.devices.values.find? fun e => Text.sameFold e.element identifier := by
  rw [byElement?, Table.values, List.find?_map]
  rfl

theorem deviceNamed?_eq (d : Directory) (identifier : String) :
    d.deviceNamed? identifier = (d.devices.get? identifier).or
      (d.devices.values.find? fun e => Text.sameFold e.element identifier) := by
  rw [← byElement?_eq, deviceNamed?]
  cases d.devices.get? identifier <;> rfl

theorem deviceNamed?_eq_none_iff :
    d.deviceNamed? identifier = none ↔ identifier ∉ d.devices.keys ∧
      ∀ e ∈ d.devices.values, Text.sameFold e.element identifier = false := by
  simp [deviceNamed?_eq, Table.get?_eq_none_iff]

theorem of_deviceNamed?_eq_some {e : DeviceEntry} (h : d.deviceNamed? identifier = some e)
    (hfiled : d.Filed) : e ∈ d.devices.values ∧ (e.path.shown = identifier ∨
      identifier ∉ d.devices.keys ∧ Text.sameFold e.element identifier = true) := by
  rw [deviceNamed?_eq] at h
  rcases Option.or_eq_some_iff.1 h with hpath | ⟨hnone, hfind⟩
  · exact ⟨(Table.mem_values_iff ..).2 ⟨identifier, hpath⟩, .inl (hfiled identifier e hpath)⟩
  · exact ⟨List.mem_of_find?_eq_some hfind,
      .inr ⟨(Table.get?_eq_none_iff ..).1 hnone, by simpa using List.find?_some hfind⟩⟩

/-! ### Locations -/

theorem locate?_of_trimmed (htrim : Text.Trimmed identifier) :
    d.locate? identifier = ((d.netNamed? identifier).map NetEntry.location).or
      ((d.deviceNamed? identifier).map DeviceEntry.location) := by
  unfold locate?
  dsimp only
  rw [Text.trim_of_trimmed htrim]
  cases d.netNamed? identifier <;> rfl

/-- The exact name of a net leads to the net. -/
theorem locate?_of_net (htrim : Text.Trimmed identifier) {e : NetEntry}
    (h : d.nets.get? identifier = some e) : d.locate? identifier = some e.location := by
  rw [locate?_of_trimmed htrim, netNamed?, h]
  rfl

theorem of_locate?_eq_some (htrim : Text.Trimmed identifier) (hfiled : d.Filed) {l : Location}
    (h : d.locate? identifier = some l) :
    (∃ net e, d.nets.get? net = some e ∧ l = e.location ∧ Text.sameFold net identifier = true ∧
      (net = identifier ∨ identifier ∉ d.nets.keys)) ∨
    (∀ net ∈ d.nets.keys, Text.sameFold net identifier = false) ∧
      ∃ e ∈ d.devices.values, l = e.location ∧ (e.path.shown = identifier ∨
        identifier ∉ d.devices.keys ∧ Text.sameFold e.element identifier = true) := by
  rw [locate?_of_trimmed htrim] at h
  cases hnet : d.netNamed? identifier with
  | some e =>
      rw [hnet] at h
      obtain ⟨net, hget, hname⟩ := of_netNamed?_eq_some hnet
      exact .inl ⟨net, e, hget, (Option.some.inj h).symm, hname⟩
  | none =>
      rw [hnet] at h
      obtain ⟨e, hdevice, rfl⟩ := Option.map_eq_some_iff.1 h
      obtain ⟨hmem, hname⟩ := of_deviceNamed?_eq_some hdevice hfiled
      exact .inr ⟨netNamed?_eq_none_iff.1 hnet, e, hmem, rfl, hname⟩

theorem locate?_eq_none_iff (htrim : Text.Trimmed identifier) :
    d.locate? identifier = none ↔
      (∀ net ∈ d.nets.keys, Text.sameFold net identifier = false) ∧
      identifier ∉ d.devices.keys ∧
      ∀ e ∈ d.devices.values, Text.sameFold e.element identifier = false := by
  rw [locate?_of_trimmed htrim, ← netNamed?_eq_none_iff, ← deviceNamed?_eq_none_iff]
  cases d.netNamed? identifier <;> simp

/-- A device that is found by its path or its element, but is called neither. -/
theorem shadowed_of_deviceNamed? {e : DeviceEntry} (h : d.deviceNamed? identifier = some e)
    (hfiled : d.Filed) (hcalled : ¬ e.IsCalled identifier) : d.Shadowed identifier := by
  rw [deviceNamed?_eq] at h
  rcases Option.or_eq_some_iff.1 h with hpath | ⟨hnone, hfind⟩
  · exact absurd (.inl (hfiled identifier e hpath)) hcalled
  · obtain ⟨hfold, before, after, hsplit, hbefore⟩ := List.find?_eq_some_iff_append.1 hfind
    refine .inr ⟨(Table.get?_eq_none_iff ..).1 hnone, before, e, after, hsplit, hfold, ?_⟩
    rw [List.forall_mem_append, List.forall_mem_singleton]
    refine ⟨fun f hf heq => ?_, fun heq => hcalled (.inr heq)⟩
    have hother := hbefore f hf
    rw [heq, Text.sameFold_self] at hother
    cases hother

/-- A device that is found in spite of a shadow is not one of this name. -/
theorem not_isCalled_of_shadowed {e : DeviceEntry} (hfiled : d.Filed)
    (hnet : d.netNamed? identifier = none) (hdevice : d.deviceNamed? identifier = some e)
    (h : d.Shadowed identifier) : ¬ e.IsCalled identifier := by
  rcases h with ⟨net, hmem, hfold⟩ | ⟨hnew, before, f, after, hsplit, hfold, hothers⟩
  · rw [netNamed?_eq_none_iff.1 hnet net hmem] at hfold
    cases hfold
  · have hvalue := (of_deviceNamed?_eq_some hdevice hfiled).1
    have hfirst : e ∈ before ++ [f] := by
      have hsome : ((before ++ [f]).find? fun e => Text.sameFold e.element identifier).isSome :=
        List.find?_isSome.2 ⟨f, by simp, hfold⟩
      rw [deviceNamed?_eq, (Table.get?_eq_none_iff ..).2 hnew, Option.none_or, hsplit,
        List.append_cons, List.find?_append, Option.or_of_isSome hsome] at hdevice
      exact List.mem_of_find?_eq_some hdevice
    rintro (hpath | helement)
    · have hkey := (Table.get?_isSome_iff ..).1 (Option.isSome_of_eq_some (hfiled.get?_path hvalue))
      exact hnew (hpath ▸ hkey)
    · exact hothers e hfirst helement

/-- Some device of this name is located exactly if no name comes before. -/
theorem locate?_device_iff (htrim : Text.Trimmed identifier) (hfiled : d.Filed)
    (hexact : ∃ e ∈ d.devices.values, e.IsCalled identifier) :
    (∃ e ∈ d.devices.values, e.IsCalled identifier ∧
      d.locate? identifier = some e.location) ↔ ¬ d.Shadowed identifier := by
  rw [locate?_of_trimmed htrim]
  cases hnet : d.netNamed? identifier with
  | some e =>
      obtain ⟨net, hget, hfold, _⟩ := of_netNamed?_eq_some hnet
      have hmem := (Table.get?_isSome_iff ..).1 (Option.isSome_of_eq_some hget)
      refine iff_of_false ?_ fun hclear => hclear (.inl ⟨net, hmem, hfold⟩)
      rintro ⟨f, _, _, hlocation⟩
      cases congrArg Location.kind (Option.some.inj hlocation)
  | none =>
      obtain ⟨exact, hvalue, hcalled⟩ := hexact
      have hsome : d.deviceNamed? identifier ≠ none := by
        rw [Ne, deviceNamed?_eq_none_iff]
        rintro ⟨hpath, helement⟩
        rcases hcalled with rfl | rfl
        · exact hpath ((Table.get?_isSome_iff ..).1
            (Option.isSome_of_eq_some (hfiled.get?_path hvalue)))
        · exact Bool.false_ne_true ((helement exact hvalue).symm.trans (Text.sameFold_self _))
      obtain ⟨e, hdevice⟩ := Option.ne_none_iff_exists'.1 hsome
      have hmem := (of_deviceNamed?_eq_some hdevice hfiled).1
      rw [hdevice]
      constructor
      · rintro ⟨f, hf, hfcalled, hlocation⟩ hshadowed
        have hpath : e.path = f.path := congrArg Location.path (Option.some.inj hlocation)
        have hsame : some e = some f := by
          rw [← hfiled.get?_path hmem, ← hfiled.get?_path hf, hpath]
        cases hsame
        exact not_isCalled_of_shadowed hfiled hnet hdevice hshadowed hfcalled
      · intro hclear
        refine ⟨e, hmem, ?_, rfl⟩
        by_contra hcalled
        exact hclear (shadowed_of_deviceNamed? hdevice hfiled hcalled)

end

end Directory

/-! ### The devices of a netlist -/

/-- The directory of a netlist knows its devices by their paths; of several devices of one path it
knows one. -/
structure Netlist.Catalogued (n : Netlist) : Prop where
  filed : n.directory.Filed
  known : ∀ d ∈ n.devices, d.name ∈ n.directory.devices.keys
  device : ∀ e ∈ n.directory.devices.values, ∃ d ∈ n.devices, e.path = d.path ∧
    e.element = d.element

theorem Netlist.catalogued_ofClasses (top : String) (params : Table String Value) (c : NetClasses)
    (devices : List (Occurrence Nat)) :
    (Netlist.ofClasses top params c devices).Catalogued := by
  have hentry : ∀ path e,
      (Netlist.ofClasses top params c devices).directory.devices.get? path = some e →
        ∃ d ∈ devices, d.path.shown = path ∧ d.entry = e := by
    intro path e hget
    rw [Netlist.devices_ofClasses, Table.get?_ofList_eq_some_iff] at hget
    obtain ⟨before, after, hsplit, _⟩ := hget
    have hmem : (path, e) ∈ devices.map fun d => (d.path.shown, d.entry) := by simp [hsplit]
    obtain ⟨d, hd, hpair⟩ := List.mem_map.1 hmem
    exact ⟨d, hd, (Prod.mk.inj hpair).1, (Prod.mk.inj hpair).2⟩
  constructor
  · intro path e hget
    obtain ⟨d, _, hpath, rfl⟩ := hentry path e hget
    exact hpath
  · intro d hd
    obtain ⟨f, hf, rfl⟩ := List.mem_map.1 hd
    rw [Netlist.devices_ofClasses, Table.mem_keys_ofList]
    exact List.mem_map.2 ⟨_, List.mem_map_of_mem hf, rfl⟩
  · intro e he
    obtain ⟨path, hpath⟩ := (Table.mem_values_iff ..).1 he
    obtain ⟨d, hd, _, rfl⟩ := hentry path e hpath
    exact ⟨d.flat c, List.mem_map_of_mem hd, rfl, rfl⟩

theorem catalogued_of_flattenTop {source : Library.Source} {o : CompileOptions}
    {key : Option Library.CellKey} {top : Cell} {r : Library.Resolver} {n : Netlist}
    (hrun : ((flattenTop source o key top).run r).1 = .ok n) : n.Catalogued := by
  obtain ⟨params, h, _, rfl⟩ := of_flattenTop_eq_ok hrun
  exact Netlist.catalogued_ofClasses ..

/-- The exact name of a net is located at the net, and the exact name of a device at a device of
this name unless it is shadowed.  Letter case is given up for the nets if no net has the exact name,
and for the elements if no path is exact and no net has the name in any case. -/
theorem locate_exact {source : Library.Source} {o : CompileOptions} {key : Option Library.CellKey}
    {top : Cell} {r : Library.Resolver} {n : Netlist}
    (hrun : ((flattenTop source o key top).run r).1 = .ok n) {identifier : String}
    (htrim : Text.Trimmed identifier) :
    n.Catalogued ∧
    (∀ e, n.directory.nets.get? identifier = some e →
      n.directory.locate? identifier = some e.location) ∧
    ((∃ e ∈ n.directory.devices.values, e.IsCalled identifier) →
      ((∃ e ∈ n.directory.devices.values, e.IsCalled identifier ∧
        n.directory.locate? identifier = some e.location) ↔ ¬ n.directory.Shadowed identifier)) ∧
    (∀ l, n.directory.locate? identifier = some l →
      (∃ net e, n.directory.nets.get? net = some e ∧ l = e.location ∧
        Text.sameFold net identifier = true ∧
        (net = identifier ∨ identifier ∉ n.directory.nets.keys)) ∨
      (∀ net ∈ n.directory.nets.keys, Text.sameFold net identifier = false) ∧
        ∃ e ∈ n.directory.devices.values, l = e.location ∧ (e.path.shown = identifier ∨
          identifier ∉ n.directory.devices.keys ∧ Text.sameFold e.element identifier = true)) ∧
    (n.directory.locate? identifier = none ↔
      (∀ net ∈ n.directory.nets.keys, Text.sameFold net identifier = false) ∧
      identifier ∉ n.directory.devices.keys ∧
      ∀ e ∈ n.directory.devices.values, Text.sameFold e.element identifier = false) := by
  have hn := catalogued_of_flattenTop hrun
  exact ⟨hn, fun _ => Directory.locate?_of_net htrim, Directory.locate?_device_iff htrim hn.filed,
    fun _ => Directory.of_locate?_eq_some htrim hn.filed, Directory.locate?_eq_none_iff htrim⟩

/-! ### Names that clash -/

namespace Clash

def placed (name : String) : Instance :=
  { name, cell := ⟨"lib", "res", some "1"⟩
    connections := Table.ofList [("p", "rr1"), ("n", "0")] }

/-- A net is called like the element of one resistor, and two resistors like each other. -/
def top : Cell :=
  Cell.ofSchematic "top" <| ((((Schematic.empty.addNet "rr1").addNet "0").addInstance
    (placed "r1")).addInstance (placed "A")).addInstance (placed "a")

def paths (n : Netlist) : List (InstancePath × String) :=
  n.directory.devices.values.map fun e => (e.path, e.element)

/-- The nets, the devices, and where three elements are located. -/
def summary (n : Netlist) :
    List String × List (InstancePath × String) × List (Option Location) :=
  (n.directory.nets.keys, paths n, ["RA", "Rr1", "Ra"].map n.directory.locate?)

theorem exists_flattened : ∃ n,
    ((flattenTop Divider.store.source {} none top).run Library.Resolver.empty).1 = .ok n ∧
      n.directory.nets.keys = ["rr1", "0"] ∧
      paths n = [(⟨["r1"]⟩, "Rr1"), (⟨["A"]⟩, "RA"), (⟨["a"]⟩, "Ra")] ∧
      n.directory.locate? "RA" = some ⟨.device, ⟨["A"]⟩, "top", "A"⟩ ∧
      n.directory.locate? "Rr1" = some ⟨.net, InstancePath.top, "top", "rr1"⟩ ∧
      n.directory.locate? "Ra" = some ⟨.device, ⟨["A"]⟩, "top", "A"⟩ := by
  have h : ((flattenByExpansion Divider.store.source
      (Library.Resolver.empty.levels Divider.store.source) {} none top).run
      Library.Resolver.empty).1.toOption.map summary =
      some (["rr1", "0"], [(⟨["r1"]⟩, "Rr1"), (⟨["A"]⟩, "RA"), (⟨["a"]⟩, "Ra")],
        [some ⟨.device, ⟨["A"]⟩, "top", "A"⟩, some ⟨.net, InstancePath.top, "top", "rr1"⟩,
          some ⟨.device, ⟨["A"]⟩, "top", "A"⟩]) := by decide +kernel
  obtain ⟨n, hrun, hsummary⟩ := exists_flattenTop_of_expansion h
  exact ⟨n, hrun, by simpa [summary] using hsummary⟩

theorem mem_paths {n : Netlist} {e : DeviceEntry} (h : e ∈ n.directory.devices.values) :
    (e.path, e.element) ∈ paths n :=
  List.mem_map.2 ⟨e, h, rfl⟩

theorem exists_of_mem_paths {n : Netlist} {path : InstancePath} {element : String}
    (h : (path, element) ∈ paths n) :
    ∃ e ∈ n.directory.devices.values, e.element = element := by
  obtain ⟨e, he, hpair⟩ := List.mem_map.1 h
  exact ⟨e, he, (Prod.mk.inj hpair).2⟩

end Clash

/-- The first of two resistors that are called alike is located by its element. -/
theorem clash_exact : ∃ n,
    ((flattenTop Divider.store.source {} none Clash.top).run Library.Resolver.empty).1 = .ok n ∧
      ¬ n.directory.Shadowed "RA" ∧
      ∃ e ∈ n.directory.devices.values, e.IsCalled "RA" ∧
        n.directory.locate? "RA" = some e.location := by
  obtain ⟨n, hrun, -, hpaths, hlocated, -⟩ := Clash.exists_flattened
  obtain ⟨-, -, hdevice, hanswer, -⟩ :=
    locate_exact hrun (show Text.Trimmed "RA" by decide)
  obtain ⟨_, e, _, hnet, _⟩ | ⟨_, e, he, hlocation, _⟩ := hanswer _ hlocated
  · cases congrArg Location.kind hnet
  · have hpath : ⟨["A"]⟩ = e.path := congrArg Location.path hlocation
    have hpair := Clash.mem_paths he
    rw [hpaths, ← hpath] at hpair
    have hcalled : e.IsCalled "RA" := .inr (by simpa using hpair)
    have hfound : n.directory.locate? "RA" = some e.location := hlocation ▸ hlocated
    exact ⟨n, hrun, (hdevice ⟨e, he, hcalled⟩).1 ⟨e, he, hcalled, hfound⟩, e, he, hcalled, hfound⟩

/-- The net hides the resistor that is called like it, and one resistor hides the other. -/
theorem clash_not_exact : ∃ n,
    ((flattenTop Divider.store.source {} none Clash.top).run Library.Resolver.empty).1 = .ok n ∧
      ∀ identifier ∈ ["Rr1", "Ra"], Text.Trimmed identifier ∧
        identifier ∉ n.directory.nets.keys ∧
        (∃ e ∈ n.directory.devices.values, e.element = identifier) ∧
        ∀ e ∈ n.directory.devices.values, e.IsCalled identifier →
          n.directory.locate? identifier ≠ some e.location := by
  obtain ⟨n, hrun, hnets, hpaths, -, hnet, hother⟩ := Clash.exists_flattened
  have hexists : ∀ path element, (path, element) ∈ Clash.paths n →
      ∃ e ∈ n.directory.devices.values, e.element = element :=
    fun _ _ => Clash.exists_of_mem_paths
  rw [hpaths] at hexists
  refine ⟨n, hrun, ?_⟩
  rw [List.forall_mem_cons, List.forall_mem_singleton, hnets, hnet, hother]
  refine ⟨⟨by decide, by decide, hexists ⟨["r1"]⟩ "Rr1" (by decide), ?_⟩,
    ⟨by decide, by decide, hexists ⟨["a"]⟩ "Ra" (by decide), ?_⟩⟩
  · intro e _ _ hlocation
    cases congrArg Location.kind (Option.some.inj hlocation)
  · intro e he hcalled hlocation
    have hpath : ⟨["A"]⟩ = e.path := congrArg Location.path (Option.some.inj hlocation)
    have hpair := Clash.mem_paths he
    rw [DeviceEntry.IsCalled, ← hpath] at hcalled
    rw [hpaths, ← hpath] at hpair
    rcases hcalled with hshown | helement
    · exact absurd hshown (by decide)
    · rw [helement] at hpair
      exact absurd hpair (by decide)

end Netlisting
