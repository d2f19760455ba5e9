import Netlisting.Flattening.Params

/-!
# What the parameters of a level are

`Params.Bound` says which values an instance gives to the parameters of its cell, parameter by
parameter: the value of the expression that the instance gives, read outside, or else the value of
the default, read over the parameters declared before it.  `Params.TopBound` says the same of a
top cell.  Neither mentions the order in which the values are computed.
-/

namespace Netlisting

namespace Params

/-- An expression can be read, and has this value in a scope. -/
def Denotes (scope : Scope) (expression : String) (v : Value) : Prop :=
  ∃ e, Expr.parse expression = .ok e ∧ e.eval scope = .ok v

/-- What a default may refer to: the parameters before it, and symbolic names that none of these
hides. -/
def defaultScope (symbolic values : Table String Value) (before : List String) : Scope := fun n =>
  if n ∈ before then values.get? n else symbolic.get? n

/-- The parameters declared by `entries` have the values in `overrides`, or else those of their
defaults. -/
def Filled (symbolic : Table String Value) (override? : String → Option Value)
    (entries : List (String × Option String)) (values : Table String Value) : Prop :=
  ∀ before p default after, entries = before ++ (p, default) :: after →
    match override? p with
    | some v => values.get? p = some v
    | none => ∃ text v, default = some text ∧ values.get? p = some v ∧
        Denotes (defaultScope symbolic values (before.map Prod.fst)) text v

namespace Filled

variable {symbolic values : Table String Value} {override? : String → Option Value}
  {p : String}

theorem override {params : Table String (Option String)}
    (h : Filled symbolic override? params.entries values) (hp : p ∈ params.keys) {v : Value}
    (hv : override? p = some v) : values.get? p = some v := by
  obtain ⟨before, default, after, hsplit⟩ := params.exists_entries_eq_append p hp
  have hfilled := h before p default after hsplit
  rw [hv] at hfilled
  exact hfilled

theorem default {before after : List (String × Option String)} {given : Option String}
    (h : Filled symbolic override? (before ++ (p, given) :: after) values)
    (hp : override? p = none) : ∃ text v, given = some text ∧ values.get? p = some v ∧
      Denotes (defaultScope symbolic values (before.map Prod.fst)) text v := by
  have hfilled := h before p given after rfl
  rw [hp] at hfilled
  exact hfilled

end Filled

/-- The values that an instance inside `outer` gives to the parameters of its cell. -/
structure Bound (symbolic outer : Table String Value) (i : Instance) (cell : Cell)
    (values : Table String Value) : Prop where
  /-- Declared parameters in their order, then what a device is given beyond them. -/
  keys : values.keys = cell.params.keys ++ i.params.keys.filter fun p => !cell.params.contains p
  override : ∀ p text, (p, text) ∈ i.params.entries →
    ∃ v, values.get? p = some v ∧ Denotes (layered outer symbolic) text v
  default : ∀ before p default after, cell.params.entries = before ++ (p, default) :: after →
    p ∉ i.params.keys → ∃ text v, default = some text ∧ values.get? p = some v ∧
      Denotes (defaultScope symbolic values (before.map Prod.fst)) text v
  /-- A subcircuit is given nothing that it does not declare. -/
  declared : cell.schematic?.isSome = true → ∀ p ∈ i.params.keys, p ∈ cell.params.keys

/-- The values of the parameters of a top cell. -/
structure TopBound (o : CompileOptions) (top : Cell) (values : Table String Value) : Prop where
  keys : values.keys = top.params.keys
  symbolic : ∀ p ∈ o.symbolic.names, values.get? p = some (.symbolic p)
  override : ∀ p text, (p, text) ∈ o.params.entries → p ∉ o.symbolic.names →
    ∃ v, values.get? p = some v ∧ Denotes (fun _ => none) text v
  default : ∀ before p default after, top.params.entries = before ++ (p, default) :: after →
    p ∉ o.params.keys → p ∉ o.symbolic.names → ∃ text v, default = some text ∧
      values.get? p = some v ∧
      Denotes (defaultScope (standIns o.symbolic.names) values (before.map Prod.fst)) text v

theorem denotes_of_evaluate {site : Site} {param text : String} {scope : Scope} {v : Value}
    (h : evaluate site param scope text = .ok v) : Denotes scope text v := by
  unfold evaluate at h
  cases hparse : Expr.parse text with
  | error e => simp [hparse] at h
  | ok e =>
      refine ⟨e, hparse, ?_⟩
      simp only [hparse] at h
      cases heval : e.eval scope with
      | ok value =>
          simpa [heval] using h
      | error cause => cases cause <;> simp [heval] at h

theorem evaluateAll_spec {site : Site} {scope : Scope} {entries : List (String × String)}
    {values : List (String × Value)} (h : evaluateAll site scope entries = .ok values) :
    values.map Prod.fst = entries.map Prod.fst ∧
      ∀ p text, (p, text) ∈ entries → ∃ v, (p, v) ∈ values ∧ Denotes scope text v := by
  induction entries generalizing values with
  | nil =>
      cases h
      simp
  | cons e rest ih =>
      obtain ⟨param, expression⟩ := e
      obtain ⟨first, hfirst, h⟩ := of_except_bind_eq_ok h
      obtain ⟨more, hmore, h⟩ := of_except_bind_eq_ok h
      obtain ⟨hkeys, hvalues⟩ := ih hmore
      cases h
      refine ⟨by simp [hkeys], fun p text hmem => ?_⟩
      rcases List.mem_cons.1 hmem with heq | hrest
      · cases heq
        exact ⟨first, by simp, denotes_of_evaluate hfirst⟩
      · obtain ⟨v, hv, hdenotes⟩ := hvalues p text hrest
        exact ⟨v, List.mem_cons_of_mem _ hv, hdenotes⟩

/-- The table of the values of a table of expressions. -/
theorem ofList_of_evaluateAll {site : Site} {scope : Scope} {entries : List (String × String)}
    {values : List (String × Value)} (h : evaluateAll site scope entries = .ok values)
    (hnodup : (entries.map Prod.fst).Nodup) :
    (Table.ofList values).entries = values ∧
      (Table.ofList values).keys = entries.map Prod.fst ∧
      ∀ p text, (p, text) ∈ entries →
        ∃ v, (Table.ofList values).get? p = some v ∧ Denotes scope text v := by
  obtain ⟨hkeys, hvalues⟩ := evaluateAll_spec h
  have hentries : (Table.ofList values).entries = values :=
    Table.entries_ofList values (hkeys ▸ hnodup)
  refine ⟨hentries, ?_, ?_⟩
  · rw [Table.keys, hentries, hkeys]
  · intro p text hmem
    obtain ⟨v, hv, hdenotes⟩ := hvalues p text hmem
    rw [← hentries, ← Table.get?_eq_some_iff] at hv
    exact ⟨v, hv, hdenotes⟩

theorem defaultScope_congr {symbolic values other : Table String Value} {before : List String}
    (h : ∀ n ∈ before, values.get? n = other.get? n) :
    defaultScope symbolic values before = defaultScope symbolic other before := by
  funext n
  unfold defaultScope
  split
  · next hn => exact h n hn
  · rfl

theorem layered_eq_defaultScope {symbolic scope values : Table String Value}
    (h : ∀ k ∈ scope.keys, values.get? k = scope.get? k) :
    layered scope symbolic = defaultScope symbolic values scope.keys := by
  funext n
  unfold layered defaultScope
  by_cases hn : n ∈ scope.keys
  · obtain ⟨v, hv⟩ := Option.isSome_iff_exists.1 ((Table.get?_isSome_iff scope n).2 hn)
    simp [hn, h n hn, hv]
  · simp [hn, (Table.get?_eq_none_iff scope n).2 hn]

theorem of_valueOf_eq_ok {site : Site} {symbolic overrides scope : Table String Value}
    {param : String} {default : Option String} {v : Value}
    (h : valueOf site symbolic overrides scope param default = .ok v) :
    match overrides.get? param with
    | some value => v = value
    | none => ∃ text, default = some text ∧ Denotes (layered scope symbolic) text v := by
  unfold valueOf at h
  cases hover : overrides.get? param with
  | some value =>
      rw [hover] at h
      exact (Except.ok.inj h).symm
  | none =>
      cases default with
      | none =>
          rw [hover] at h
          cases h
      | some text =>
          rw [hover] at h
          exact ⟨text, rfl, denotes_of_evaluate h⟩

/-- Filling goes on from a scope that holds the parameters before. -/
theorem fill_spec {site : Site} {symbolic overrides scope values : Table String Value}
    {entries : List (String × Option String)}
    (h : fill site symbolic overrides scope entries = .ok values)
    (hnodup : (scope.keys ++ entries.map Prod.fst).Nodup) :
    values.keys = scope.keys ++ entries.map Prod.fst ∧
      (∀ k ∈ scope.keys, values.get? k = scope.get? k) ∧
      ∀ before p default after, entries = before ++ (p, default) :: after →
        match overrides.get? p with
        | some v => values.get? p = some v
        | none => ∃ text v, default = some text ∧ values.get? p = some v ∧
            Denotes (defaultScope symbolic values (scope.keys ++ before.map Prod.fst)) text v := by
  induction entries generalizing scope with
  | nil =>
      cases h
      simp
  | cons e rest ih =>
      obtain ⟨param, default⟩ := e
      have hnew : param ∉ scope.keys := by
        intro hmem
        exact (List.nodup_append.1 hnodup).2.2 param hmem param (by simp) rfl
      obtain ⟨value, hvalue, hrest⟩ := of_except_bind_eq_ok h
      have hkeys : (scope.put param value).keys = scope.keys ++ [param] :=
        Table.keys_put_of_not_mem scope param value hnew
      obtain ⟨hall, hkept, hfilled⟩ := ih hrest (by rw [hkeys]; simpa using hnodup)
      have hscope : ∀ k ∈ scope.keys, values.get? k = scope.get? k := by
        intro k hk
        have hne : k ≠ param := fun heq => hnew (heq ▸ hk)
        rw [hkept k (by rw [hkeys]; simp [hk]), Table.get?_put, if_neg hne]
      have hparam : values.get? param = some value := by
        rw [hkept param (by rw [hkeys]; simp), Table.get?_put, if_pos rfl]
      refine ⟨by rw [hall, hkeys]; simp, hscope, ?_⟩
      intro before p default' after hsplit
      cases before with
      | nil =>
          cases hsplit
          rw [List.map_nil, List.append_nil, ← layered_eq_defaultScope hscope]
          have hfirst := of_valueOf_eq_ok hvalue
          cases hover : overrides.get? param with
          | some v =>
              rw [hover] at hfirst
              exact hfirst ▸ hparam
          | none =>
              rw [hover] at hfirst
              obtain ⟨text, hdefault, hdenotes⟩ := hfirst
              exact ⟨text, value, hdefault, hparam, hdenotes⟩
      | cons first before =>
          cases hsplit
          have hlater := hfilled before p default' after rfl
          rw [hkeys] at hlater
          simpa using hlater

theorem declared_spec {site : Site} {symbolic overrides values : Table String Value} {cell : Cell}
    (h : declared site symbolic overrides cell = .ok values) :
    values.keys = cell.params.keys ∧
      Filled symbolic overrides.get? cell.params.entries values := by
  have hempty : (∅ : Table String Value).keys = [] := rfl
  obtain ⟨hkeys, _, hfilled⟩ := fill_spec h (by rw [hempty]; exact cell.params.distinct)
  rw [hempty] at hkeys hfilled
  exact ⟨hkeys, hfilled⟩

/-- Devices keep what they are given beyond their declaration, behind what is declared. -/
theorem ofInstance_eq_ok {path : InstancePath} {symbolic scope values : Table String Value}
    {i : Instance} {cell : Cell} (h : ofInstance path symbolic scope i cell = .ok values) :
    ∃ given filled, evaluateAll ⟨path, i.name⟩ (layered scope symbolic) i.params.entries =
        .ok given ∧
      declared ⟨path, i.name⟩ symbolic (Table.ofList given) cell = .ok filled ∧
      values = ((Table.ofList given).entries.filter fun e => !cell.params.contains e.1).foldl
        (fun t e => t.put e.1 e.2) filled ∧
      (cell.schematic?.isSome = true →
        ((Table.ofList given).entries.filter fun e => !cell.params.contains e.1) = []) := by
  obtain ⟨given, hgiven, h⟩ := of_except_bind_eq_ok h
  obtain ⟨filled, hfilled, h⟩ := of_except_bind_eq_ok h
  refine ⟨given, filled, hgiven, hfilled, ?_⟩
  dsimp only at h
  split at h
  · next hextra =>
    cases h
    simp [hextra]
  · next hcontents hextra =>
    cases h
    simp [Cell.schematic?, hcontents]
  · cases h

/-- What a device is given beyond its declaration is behind what is declared, and hides nothing. -/
theorem get?_extra {filled values : Table String Value} {extra : List (String × Value)}
    {declared given : List String} (hfilled : filled.keys = declared)
    (hextra : extra.map Prod.fst = given.filter fun p => p ∉ declared) (hdeclared : declared.Nodup)
    (hgiven : given.Nodup) (hvalues : values = extra.foldl (fun t e => t.put e.1 e.2) filled) :
    values.keys = declared ++ given.filter (fun p => p ∉ declared) ∧
      (∀ p ∈ declared, values.get? p = filled.get? p) ∧
      ∀ p v, (p, v) ∈ extra → values.get? p = some v := by
  have hnodup : (extra.map Prod.fst).Nodup := hextra ▸ hgiven.filter _
  subst hvalues
  refine ⟨?_, fun p hp => ?_, fun p v hv => ?_⟩
  · rw [Table.keys, Table.entries_foldl_put, List.map_append, hextra]
    · exact congrArg (· ++ _) hfilled
    · rw [hextra, hfilled]
      refine List.nodup_append.2 ⟨hdeclared, hgiven.filter _, ?_⟩
      rintro p hp q hq rfl
      simp [hp] at hq
  · apply Table.get?_foldl_put_of_not_mem
    simp [hextra, hp]
  · exact Table.get?_foldl_put_of_mem extra filled p v hv hnodup

theorem bound_of_ofInstance {path : InstancePath} {symbolic scope values : Table String Value}
    {i : Instance} {cell : Cell} (h : ofInstance path symbolic scope i cell = .ok values) :
    Bound symbolic scope i cell values := by
  obtain ⟨given, filled, hgiven, hfilled, hvalues, hclosed⟩ := ofInstance_eq_ok h
  obtain ⟨hentries, hgivenKeys, hdenotes⟩ := ofList_of_evaluateAll hgiven i.params.distinct
  obtain ⟨hfilledKeys, hspec⟩ := declared_spec hfilled
  have hcontains : ∀ p, (!cell.params.contains p) = decide (p ∉ cell.params.keys) := by
    simp [Table.contains]
  simp only [hcontains] at hvalues hclosed
  have hextra : ((Table.ofList given).entries.filter fun e => e.1 ∉ cell.params.keys).map
      Prod.fst = i.params.keys.filter fun p => p ∉ cell.params.keys := by
    rw [Table.keys, Table.keys, ← hgivenKeys, Table.keys, List.filter_map]
    rfl
  obtain ⟨hkeys, hdeclared, hbeyond⟩ :=
    get?_extra hfilledKeys hextra cell.params.distinct i.params.distinct hvalues
  refine ⟨?_, fun p text hmem => ?_, fun before p default after hsplit hp => ?_,
    fun hsubcircuit p hp => ?_⟩
  · simpa only [hcontains] using hkeys
  · obtain ⟨v, hv, hdenotes⟩ := hdenotes p text hmem
    refine ⟨v, ?_, hdenotes⟩
    by_cases hp : p ∈ cell.params.keys
    · rw [hdeclared p hp]
      exact hspec.override hp hv
    · apply hbeyond p v
      exact List.mem_filter.2 ⟨(Table.get?_eq_some_iff _ _ _).1 hv, by simpa using hp⟩
  · have hgot : (Table.ofList given).get? p = none := by
      rw [Table.get?_eq_none_iff, hgivenKeys]
      exact hp
    rw [hsplit] at hspec
    obtain ⟨text, v, hdefault, hv, hdenotes⟩ := hspec.default hgot
    have hmem : ∀ q ∈ (before ++ [(p, default)]).map Prod.fst, q ∈ cell.params.keys := by
      intro q hq
      rw [Table.keys, hsplit, List.append_cons, List.map_append]
      exact List.mem_append_left _ hq
    refine ⟨text, v, hdefault, ?_, ?_⟩
    · rw [hdeclared p (hmem p (by simp)), hv]
    · rwa [defaultScope_congr fun n hn => hdeclared n (hmem n (by simp [hn]))]
  · have hnone : (i.params.keys.filter fun p => p ∉ cell.params.keys) = [] := by
      rw [← hextra, hclosed hsubcircuit]
      rfl
    simpa using List.filter_eq_nil_iff.1 hnone p hp

theorem entries_standIns {names : List String} (h : names.Nodup) :
    (standIns names).entries = names.map fun n => (n, Value.symbolic n) :=
  Table.entries_ofList _ (by simpa [Function.comp_def] using h)

/-- The steps of the evaluation of a top cell. -/
theorem ofTop_eq_ok {o : CompileOptions} {top : Cell} {params : TopParams}
    (h : ofTop o top = .ok params) :
    (∀ n ∈ o.params.keys ++ o.symbolic.names, n ∈ top.params.keys) ∧
    ∃ all concrete kept, evaluateAll ⟨InstancePath.top, top.name⟩ (fun _ => none)
        o.params.entries = .ok all ∧
      declared ⟨InstancePath.top, top.name⟩ ∅ (Table.ofList all) top = .ok concrete ∧
      evaluateAll ⟨InstancePath.top, top.name⟩ (fun _ => none)
        (o.params.entries.filter fun e => !o.symbolic.contains e.1) = .ok kept ∧
      declared ⟨InstancePath.top, top.name⟩ (standIns o.symbolic.names)
        ((standIns o.symbolic.names).entries.foldl (fun t e => t.put e.1 e.2)
          (Table.ofList kept)) top = .ok params.scope ∧
      params.defaults = Table.ofList
        (o.symbolic.names.filterMap fun n => (concrete.get? n).map fun v => (n, v)) := by
  unfold ofTop at h
  split at h
  · cases h
  · next hknown =>
    obtain ⟨all, hall, h⟩ := of_except_bind_eq_ok h
    obtain ⟨concrete, hconcrete, h⟩ := of_except_bind_eq_ok h
    obtain ⟨kept, hkept, h⟩ := of_except_bind_eq_ok h
    obtain ⟨scope, hscope, h⟩ := of_except_bind_eq_ok h
    cases h
    refine ⟨fun n hn => ?_, all, concrete, kept, hall, hconcrete, hkept, hscope, rfl⟩
    simpa [Table.contains] using List.find?_eq_none.1 hknown n hn

/-- Symbolic parameters are overridden by themselves, whatever else they are given. -/
theorem get?_overridden {names : List String} (hnames : names.Nodup) (given : Table String Value)
    (p : String) :
    ((standIns names).entries.foldl (fun t e => t.put e.1 e.2) given).get? p =
      if p ∈ names then some (.symbolic p) else given.get? p := by
  have hstandIns := entries_standIns hnames
  split
  · next hp =>
    apply Table.get?_foldl_put_of_mem _ _ _ _ _ (standIns names).distinct
    rw [hstandIns]
    exact List.mem_map_of_mem hp
  · next hp =>
    apply Table.get?_foldl_put_of_not_mem
    simpa [hstandIns] using hp

theorem topBound_of_ofTop {o : CompileOptions} {top : Cell} {params : TopParams}
    (h : ofTop o top = .ok params) : TopBound o top params.scope := by
  obtain ⟨hknown, _, _, kept, _, _, hkept, hscope, _⟩ := ofTop_eq_ok h
  obtain ⟨_, hkeptKeys, hdenotes⟩ := ofList_of_evaluateAll hkept
    ((List.filter_sublist.map Prod.fst).nodup o.params.distinct)
  obtain ⟨hkeys, hspec⟩ := declared_spec hscope
  refine ⟨hkeys, fun p hp => ?_, fun p text hmem hp => ?_,
    fun before p default after hsplit hparams hp => ?_⟩
  · apply hspec.override (hknown p (List.mem_append_right _ hp))
    rw [get?_overridden o.symbolic.nodup, if_pos hp]
  · obtain ⟨v, hv, hdenotes⟩ := hdenotes p text (List.mem_filter.2 ⟨hmem, by
      simpa [NameSet.contains] using hp⟩)
    have hdeclared := hknown p (List.mem_append_left _ (List.mem_map_of_mem (f := Prod.fst) hmem))
    refine ⟨v, hspec.override hdeclared ?_, hdenotes⟩
    rw [get?_overridden o.symbolic.nodup, if_neg hp, hv]
  · rw [hsplit] at hspec
    apply hspec.default
    rw [get?_overridden o.symbolic.nodup, if_neg hp, Table.get?_eq_none_iff, hkeptKeys]
    intro hmem
    obtain ⟨e, he, rfl⟩ := List.mem_map.1 hmem
    exact hparams (List.mem_map_of_mem (f := Prod.fst) (List.mem_filter.1 he).1)

end Params

end Netlisting
