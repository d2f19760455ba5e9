import Netlisting.Proofs.Expr.Instantiation
import Netlisting.Proofs.Flattening.Expansion

/-!
# Values that are alike

Numbers are alike if they are equal, however they are written, and texts are alike if they are the
same; a symbolic value is like nothing.  What can be evaluated in one scope can be evaluated in a
scope that is alike, and the values are alike (`Expr.eval_alike`).  So an instance whose parameters
can be evaluated in one place has parameters like these in another (`Params.ofInstance_alike`), and
a cell has them as a top cell that is given the numbers of the instance (`Params.ofTop_alone`).
-/

namespace Netlisting

inductive Value.Alike : Value → Value → Prop where
  | number {a b : Decimal} (same : a.toRat = b.toRat) : Alike (.number a) (.number b)
  | text (s : String) : Alike (.text s) (.text s)

/-- Names of one scope have values in the other that are alike. -/
def Scope.Alike (scope other : Scope) : Prop :=
  ∀ n v, scope n = some v → ∃ w, other n = some w ∧ v.Alike w

/-! ### Expressions -/

namespace Expr

theorem negate_alike {v w x : Value} (h : v.Alike w) (hv : negate v = .ok x) :
    ∃ y, negate w = .ok y ∧ x.Alike y := by
  cases h with
  | number same =>
      cases hv
      exact ⟨_, rfl, .number (Decimal.toRat_neg_congr same)⟩
  | text s => cases hv

theorem combine_alike (op : BinaryOp) {v w v' w' x : Value} (hv : v.Alike v') (hw : w.Alike w')
    (h : combine op v w = .ok x) : ∃ y, combine op v' w' = .ok y ∧ x.Alike y := by
  cases hv with
  | text s => cases h
  | @number a a' ha =>
      cases hw with
      | text s => cases h
      | @number b b' hb =>
          rw [combine] at h ⊢
          cases hcompute : compute op a b with
          | error e =>
              rw [hcompute] at h
              cases h
          | ok c =>
              rw [hcompute] at h
              cases h
              obtain ⟨c', hc', hsame⟩ := compute_congr op ha hb hcompute
              rw [hc']
              exact ⟨_, rfl, .number hsame.symm⟩

theorem eval_alike {scope other : Scope} (hscope : scope.Alike other) (e : Expr) {v : Value}
    (h : e.eval scope = .ok v) : ∃ w, e.eval other = .ok w ∧ v.Alike w := by
  induction e generalizing v with
  | number a =>
      cases h
      exact ⟨_, rfl, .number rfl⟩
  | text s =>
      cases h
      exact ⟨_, rfl, .text s⟩
  | name n =>
      rw [eval] at h ⊢
      cases hn : scope n with
      | none =>
          rw [hn] at h
          cases h
      | some x =>
          rw [hn] at h
          cases h
          obtain ⟨w, hw, hlike⟩ := hscope n _ hn
          exact ⟨w, by rw [hw], hlike⟩
  | neg e ih =>
      obtain ⟨x, hx, h⟩ := of_except_bind_eq_ok h
      obtain ⟨x', hx', hlike⟩ := ih hx
      rw [eval, hx']
      exact negate_alike hlike h
  | binary op l r ihl ihr =>
      obtain ⟨x, hx, h⟩ := of_except_bind_eq_ok h
      obtain ⟨y, hy, h⟩ := of_except_bind_eq_ok h
      obtain ⟨x', hx', hleft⟩ := ihl hx
      obtain ⟨y', hy', hright⟩ := ihr hy
      rw [eval, hx', Except.bind, hy']
      exact combine_alike op hleft hright h

end Expr

namespace Params

/-- The same key, with values that are alike. -/
def EntryAlike (e f : String × Value) : Prop := f.1 = e.1 ∧ e.2.Alike f.2

/-- The same keys in the same order, with values that are alike. -/
def Alike (values others : Table String Value) : Prop :=
  List.Forall₂ EntryAlike values.entries others.entries

namespace Alike

variable {values others : Table String Value}

theorem empty : Alike ∅ ∅ := List.Forall₂.nil

theorem keys (h : Alike values others) : others.keys = values.keys :=
  (map_eq_map_of_forall₂ h fun _ _ he => he.1.symm).symm

theorem get? (h : Alike values others) {n : String} {v : Value} (hv : values.get? n = some v) :
    ∃ w, others.get? n = some w ∧ v.Alike w := by
  obtain ⟨⟨m, w⟩, hw, heq, hlike⟩ := exists_right_of_forall₂ h ((values.get?_eq_some_iff n v).1 hv)
  obtain rfl : m = n := heq
  exact ⟨w, (others.get?_eq_some_iff m w).2 hw, hlike⟩

theorem get?_eq_none (h : Alike values others) {n : String} (hn : values.get? n = none) :
    others.get? n = none := by
  rw [Table.get?_eq_none_iff] at hn ⊢
  rwa [h.keys]

theorem layered (h : Alike values others) :
    Scope.Alike (Params.layered values ∅) (Params.layered others ∅) := by
  intro n v hv
  unfold Params.layered at hv ⊢
  cases hvalue : values.get? n with
  | none =>
      rw [hvalue] at hv
      cases hv
  | some x =>
      rw [hvalue] at hv
      cases hv
      obtain ⟨w, hw, hlike⟩ := h.get? hvalue
      exact ⟨w, by rw [hw], hlike⟩

theorem put (h : Alike values others) (k : String) {v w : Value} (hlike : v.Alike w) :
    Alike (values.put k v) (others.put k w) := by
  unfold Alike Table.put
  by_cases hk : k ∈ values.keys
  · rw [dif_pos hk, dif_pos (h.keys ▸ hk)]
    refine List.forall₂_map_left_iff.2 (List.forall₂_map_right_iff.2 (h.imp fun e f hef => ?_))
    rw [hef.1]
    by_cases hek : e.1 = k
    · rw [if_pos hek, if_pos hek]
      exact ⟨rfl, hlike⟩
    · rw [if_neg hek, if_neg hek]
      exact hef
  · rw [dif_neg hk, dif_neg (h.keys ▸ hk)]
    exact List.rel_append h (.cons ⟨rfl, hlike⟩ .nil)

theorem foldl_put (h : Alike values others) {entries more : List (String × Value)}
    (hentries : List.Forall₂ EntryAlike entries more) :
    Alike (entries.foldl (fun t e => t.put e.1 e.2) values)
      (more.foldl (fun t e => t.put e.1 e.2) others) := by
  induction hentries generalizing values others with
  | nil => exact h
  | @cons e f _ _ hef _ ih =>
      rw [List.foldl_cons, List.foldl_cons, hef.1]
      exact ih (h.put e.1 hef.2)

theorem ofList {entries more : List (String × Value)}
    (hentries : List.Forall₂ EntryAlike entries more) :
    Alike (Table.ofList entries) (Table.ofList more) :=
  foldl_put .empty hentries

end Alike

/-! ### The parameters of an instance -/

section

variable {site : Site} (site' : Site) {scope other : Scope}

theorem evaluate_eq_ok_iff (param text : String) (v : Value) :
    evaluate site param scope text = .ok v ↔ Denotes scope text v := by
  refine ⟨denotes_of_evaluate, ?_⟩
  rintro ⟨e, hparse, heval⟩
  unfold evaluate
  rw [hparse]
  dsimp only
  rw [heval]

theorem Denotes.alike (hscope : scope.Alike other) {text : String} {v : Value}
    (h : Denotes scope text v) : ∃ w, Denotes other text w ∧ v.Alike w := by
  obtain ⟨e, hparse, heval⟩ := h
  obtain ⟨w, hw, hlike⟩ := Expr.eval_alike hscope e heval
  exact ⟨w, ⟨e, hparse, hw⟩, hlike⟩

theorem evaluateAll_alike (hscope : scope.Alike other) {entries : List (String × String)}
    {given : List (String × Value)} (h : evaluateAll site scope entries = .ok given) :
    ∃ more, evaluateAll site' other entries = .ok more ∧ List.Forall₂ EntryAlike given more := by
  induction entries generalizing given with
  | nil =>
      cases h
      exact ⟨[], rfl, .nil⟩
  | cons e rest ih =>
      obtain ⟨value, hvalue, h⟩ := of_except_bind_eq_ok h
      obtain ⟨values, hvalues, h⟩ := of_except_bind_eq_ok h
      cases h
      obtain ⟨w, hw, hlike⟩ := ((evaluate_eq_ok_iff ..).1 hvalue).alike hscope
      obtain ⟨more, hmore, hrest⟩ := ih hvalues
      refine ⟨(e.1, w) :: more, ?_, .cons ⟨rfl, hlike⟩ hrest⟩
      simp [evaluateAll, (evaluate_eq_ok_iff e.1 e.2 w).2 hw, hmore, bind, Except.bind, pure,
        Except.pure]

end

variable {site : Site} (site' : Site)
  {overrides overrides' outer outer' values : Table String Value}

theorem valueOf_alike (hover : Alike overrides overrides') (houter : Alike outer outer')
    {param : String} {default : Option String} {v : Value}
    (h : valueOf site ∅ overrides outer param default = .ok v) :
    ∃ w, valueOf site' ∅ overrides' outer' param default = .ok w ∧ v.Alike w := by
  unfold valueOf at h ⊢
  cases hparam : overrides.get? param with
  | some x =>
      rw [hparam] at h
      cases h
      obtain ⟨w, hw, hlike⟩ := hover.get? hparam
      exact ⟨w, by rw [hw], hlike⟩
  | none =>
      rw [hparam] at h
      rw [hover.get?_eq_none hparam]
      cases default with
      | none => cases h
      | some text =>
          obtain ⟨w, hw, hlike⟩ := ((evaluate_eq_ok_iff ..).1 h).alike houter.layered
          exact ⟨w, (evaluate_eq_ok_iff ..).2 hw, hlike⟩

theorem fill_alike (hover : Alike overrides overrides') (houter : Alike outer outer')
    {entries : List (String × Option String)}
    (h : fill site ∅ overrides outer entries = .ok values) :
    ∃ others, fill site' ∅ overrides' outer' entries = .ok others ∧ Alike values others := by
  induction entries generalizing outer outer' with
  | nil =>
      cases h
      exact ⟨outer', rfl, houter⟩
  | cons e rest ih =>
      obtain ⟨v, hv, h⟩ := of_except_bind_eq_ok h
      obtain ⟨w, hw, hlike⟩ := valueOf_alike site' hover houter hv
      obtain ⟨others, hothers, hall⟩ := ih (houter.put e.1 hlike) h
      refine ⟨others, ?_, hall⟩
      simpa [fill, hw, bind, Except.bind] using hothers

theorem declared_alike (hover : Alike overrides overrides') {cell : Cell}
    (h : declared site ∅ overrides cell = .ok values) :
    ∃ others, declared site' ∅ overrides' cell = .ok others ∧ Alike values others :=
  fill_alike site' hover .empty h

/-- The steps by which an instance gets its parameters. -/
theorem ofInstance_of_steps {path : InstancePath} {i : Instance} {cell : Cell}
    {given : List (String × Value)}
    (hgiven : evaluateAll ⟨path, i.name⟩ (layered outer ∅) i.params.entries = .ok given)
    (hvalues : declared ⟨path, i.name⟩ ∅ (Table.ofList given) cell = .ok values)
    (hextra : cell.schematic?.isSome = true →
      ((Table.ofList given).entries.filter fun e => !cell.params.contains e.1) = []) :
    ofInstance path ∅ outer i cell =
      .ok (((Table.ofList given).entries.filter fun e => !cell.params.contains e.1).foldl
        (fun t e => t.put e.1 e.2) values) := by
  unfold ofInstance
  simp only [hgiven, hvalues, bind, Except.bind]
  cases hcontents : cell.contents with
  | device d =>
      generalize (Table.ofList given).entries.filter _ = extra
      cases extra <;> rfl
  | schematic s =>
      rw [hextra (by simp [Cell.schematic?, hcontents])]
      rfl

/-- What an instance is given beyond what its cell declares is alike. -/
theorem extra_alike {given more : List (String × Value)}
    (h : Alike (Table.ofList given) (Table.ofList more)) (cell : Cell) :
    List.Forall₂ EntryAlike
      ((Table.ofList given).entries.filter fun e => !cell.params.contains e.1)
      ((Table.ofList more).entries.filter fun e => !cell.params.contains e.1) := by
  refine List.rel_filter (fun e f hef => ?_) h
  show (!cell.params.contains e.1) = true ↔ (!cell.params.contains f.1) = true
  rw [hef.1]

/-- In places that are alike, an instance has parameters that are alike. -/
theorem ofInstance_alike {path : InstancePath} (path' : InstancePath)
    (houter : Alike outer outer') {i : Instance} {cell : Cell}
    (h : ofInstance path ∅ outer i cell = .ok values) :
    ∃ others, ofInstance path' ∅ outer' i cell = .ok others ∧ Alike values others := by
  obtain ⟨given, filled, hgiven, hfilled, rfl, hextra⟩ := ofInstance_eq_ok h
  obtain ⟨more, hmore, hlike⟩ := evaluateAll_alike ⟨path', i.name⟩ houter.layered hgiven
  have hover := Alike.ofList hlike
  obtain ⟨others, hothers, hall⟩ := declared_alike ⟨path', i.name⟩ hover hfilled
  have hrest := extra_alike hover cell
  refine ⟨_, ofInstance_of_steps hmore hothers fun hs => ?_, hall.foldl_put hrest⟩
  rw [hextra hs] at hrest
  exact List.forall₂_nil_left_iff.1 hrest

end Params

/-! ### A cell by itself -/

/-- The overrides of an instance have numbers as their values. -/
def Instance.Given (scope : Scope) (i : Instance) (numbers : Table String Decimal) : Prop :=
  List.Forall₂ (fun e a => a.1 = e.1 ∧ Params.Denotes scope e.2 (.number a.2)) i.params.entries
    numbers.entries

/-- Options by which a cell is given some numbers and nothing is left symbolic. -/
def CompileOptions.alone (numbers : Table String Decimal) : CompileOptions :=
  { params := numbers.map fun _ a => a.text
    symbolic := ∅
    ground := [] }

namespace Params

/-- Printed numbers are read as numbers like those that were evaluated. -/
theorem evaluateAll_printed {site : Site} (site' : Site) {scope : Scope}
    {entries : List (String × String)} {numbers : List (String × Decimal)}
    (hnumbers : List.Forall₂ (fun e a => a.1 = e.1 ∧ Denotes scope e.2 (.number a.2)) entries
      numbers)
    {given : List (String × Value)} (h : evaluateAll site scope entries = .ok given) :
    ∃ more, evaluateAll site' (fun _ => none) (numbers.map fun e => (e.1, e.2.text)) = .ok more ∧
      List.Forall₂ EntryAlike given more := by
  induction hnumbers generalizing given with
  | nil =>
      cases h
      exact ⟨[], rfl, .nil⟩
  | @cons e a _ _ hea _ ih =>
      obtain ⟨value, hvalue, h⟩ := of_except_bind_eq_ok h
      obtain ⟨values, hvalues, h⟩ := of_except_bind_eq_ok h
      cases h
      obtain ⟨x, hparse, heval⟩ := hea.2
      obtain ⟨x', hparse', heval'⟩ := (evaluate_eq_ok_iff ..).1 hvalue
      cases hparse.symm.trans hparse'
      cases heval.symm.trans heval'
      obtain ⟨b, hb, hsame⟩ := Expr.eval_ofDecimal (fun _ => none) a.2
      have hprinted : evaluate site' a.1 (fun _ => none) a.2.text = .ok (.number b) :=
        (evaluate_eq_ok_iff ..).2 ⟨_, Expr.parse_text a.2, hb⟩
      obtain ⟨more, hmore, hrest⟩ := ih hvalues
      refine ⟨(a.1, .number b) :: more, ?_, .cons ⟨hea.1, .number hsame.symm⟩ hrest⟩
      simp [evaluateAll, hprinted, hmore, bind, Except.bind, pure, Except.pure]

/-- The cell of a subcircuit has, by itself and given the numbers of the instance, parameters like
those that it has below the instance. -/
theorem ofTop_alone {path : InstancePath} {outer values : Table String Value} {i : Instance}
    {cell : Cell} (hcell : cell.schematic?.isSome = true) {numbers : Table String Decimal}
    (hnumbers : i.Given (layered outer ∅) numbers)
    (h : ofInstance path ∅ outer i cell = .ok values) :
    ∃ params, ofTop (.alone numbers) cell = .ok params ∧ Alike values params.scope := by
  obtain ⟨given, filled, hgiven, hfilled, rfl, hextra⟩ := ofInstance_eq_ok h
  obtain ⟨more, hmore, hlike⟩ :=
    evaluateAll_printed ⟨InstancePath.top, cell.name⟩ hnumbers hgiven
  obtain ⟨others, hothers, hall⟩ :=
    declared_alike ⟨InstancePath.top, cell.name⟩ (Alike.ofList hlike) hfilled
  have hkeys : numbers.keys = i.params.keys :=
    (map_eq_map_of_forall₂ hnumbers fun _ _ hea => hea.1.symm).symm
  have hknown : ((CompileOptions.alone numbers).params.keys ++
      (CompileOptions.alone numbers).symbolic.names).find? (fun n => !cell.params.contains n) =
        none := by
    have hsame : (CompileOptions.alone numbers).params.keys = numbers.keys := by
      simp [CompileOptions.alone, Table.keys, Table.map]
    have hdeclared := (bound_of_ofInstance h).declared hcell
    have hnone : (CompileOptions.alone numbers).symbolic.names = [] := rfl
    rw [hsame, hkeys, hnone, List.append_nil, List.find?_eq_none]
    intro n hn
    simpa [Table.contains] using hdeclared n hn
  refine ⟨⟨others, ∅⟩, ?_, ?_⟩
  · unfold ofTop
    rw [hknown]
    have hread : evaluateAll ⟨InstancePath.top, cell.name⟩ (fun _ => none)
        (CompileOptions.alone numbers).params.entries = .ok more := hmore
    have hkept : ((CompileOptions.alone numbers).params.entries.filter
        fun e => !(CompileOptions.alone numbers).symbolic.contains e.1) =
          (CompileOptions.alone numbers).params.entries := List.filter_eq_self.2 fun _ _ => rfl
    have hoverrides : (standIns (CompileOptions.alone numbers).symbolic.names).entries.foldl
        (fun t e => t.put e.1 e.2) (Table.ofList more) = Table.ofList more := rfl
    have hstandIns : standIns (CompileOptions.alone numbers).symbolic.names = ∅ := rfl
    simp only [hkept, hread, bind, Except.bind, pure, Except.pure]
    rw [hoverrides, hstandIns, hothers]
    rfl
  · rw [hextra hcell]
    exact hall

end Params

end Netlisting
