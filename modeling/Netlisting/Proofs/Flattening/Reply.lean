import Netlisting.Proofs.Flattening.Inquiry

/-!
# Flattening a pinned design

If all references of a design pin a version, flattening depends only on the cells that are seen
under their keys.  `Inquiry.reply` is the result of an inquiry that is answered with these cells,
without a resolver; whatever resolver sees them, flattening ends with this result
(`Inquiry.toOption_run`).
-/

namespace Netlisting

open Library (CellKey Resolver Source)

/-- The key that a pinned reference names. -/
def CellRef.key? (ref : CellRef) : Option CellKey :=
  if Library.isNamespace ref.space then
    ref.version.map fun version => ⟨ref.space, ref.name, version⟩
  else none

theorem CellRef.fits_of_key? {ref : CellRef} {key : CellKey} (h : ref.key? = some key) :
    key.fits ref := by
  unfold key? at h
  split at h
  · obtain ⟨version, hversion, rfl⟩ := Option.map_eq_some_iff.1 h
    refine ⟨rfl, fun v hv => ?_⟩
    rw [hversion] at hv
    exact Option.some.inj hv
  · cases h

/-- A pinned reference is answered with the cell that is seen under its key. -/
theorem Library.Resolver.resolve_pinned_seen (source : Source) (r : Resolver) {ref : CellRef}
    (hpinned : ref.pinned = true) :
    (r.resolve source ref).1.toOption.map (fun resolved => (resolved.key, resolved.shared.cell)) =
      ref.key?.bind fun key => (r.seen? source key).map fun cell => (key, cell) := by
  obtain ⟨version, hversion⟩ := Option.isSome_iff_exists.1 hpinned
  unfold Resolver.resolve CellRef.key?
  cases hspace : Library.isNamespace ref.space with
  | false => rfl
  | true =>
      rw [hversion]
      show ((r.resolvePinned source ⟨ref.space, ref.name, version⟩).1.toOption.map _) =
        (r.seen? source ⟨ref.space, ref.name, version⟩).map _
      unfold resolvePinned seen?
      cases r.cells.get? ⟨ref.space, ref.name, version⟩ with
      | some shared => rfl
      | none =>
          dsimp only
          unfold fetch
          rcases source.fetch ⟨ref.space, ref.name, version⟩ with message | (_ | cell) <;> rfl

namespace Inquiry

variable {α β : Type} {see : CellKey → Option Cell}

/-- The result of an inquiry whose questions are answered with what is seen. -/
def reply (see : CellKey → Option Cell) : Inquiry α → Option α
  | done outcome => outcome.toOption
  | ask ref _ next =>
    ref.key?.bind fun key => (see key).bind fun cell => (next key cell).reply see

@[simp] theorem reply_ok (a : α) : (done (.ok a)).reply see = some a := rfl

@[simp] theorem reply_error (e : CompileError) : (done (.error e) : Inquiry α).reply see = none :=
  rfl

@[simp] theorem reply_bind (t : Inquiry α) (f : α → Inquiry β) :
    (t.bind f).reply see = (t.reply see).bind fun a => (f a).reply see := by
  induction t with
  | done outcome => cases outcome <;> rfl
  | ask ref failed next ih => simp [bind, reply, ih, Option.bind_assoc]

/-- Resolvers only matter by the cells that they see. -/
theorem toOption_run {source : Source} {refs : CellRef → Prop} {holds : CellKey → Cell → Prop}
    {post : α → Prop} {t : Inquiry α} (ht : t.Within refs holds post)
    (hpinned : ∀ ref, refs ref → ref.pinned = true)
    (hholds : ∀ ref key cell, refs ref → key.fits ref → see key = some cell → holds key cell)
    {r : Resolver} (hr : r.seen? source = see) : (t.run source r).1.toOption = t.reply see := by
  induction t generalizing r with
  | done outcome => rfl
  | ask ref failed next ih =>
      obtain ⟨hrefs, hnext⟩ := ht
      have hanswer := r.resolve_pinned_seen source (hpinned ref hrefs)
      have hnow := (Library.answers_seen source see).inv_resolve ref r (hpinned ref hrefs) hr
      rw [hr] at hanswer
      rw [run, reply]
      cases hkey : ref.key? with
      | none =>
          rw [hkey] at hanswer
          rcases hresolve : r.resolve source ref with ⟨cause | resolved, now⟩
          · rfl
          · rw [hresolve] at hanswer
            cases hanswer
      | some key =>
          rw [hkey, Option.bind_some] at hanswer
          rw [Option.bind_some]
          cases hcell : see key with
          | none =>
              rw [hcell] at hanswer
              rcases hresolve : r.resolve source ref with ⟨cause | resolved, now⟩
              · rfl
              · rw [hresolve] at hanswer
                cases hanswer
          | some cell =>
              rw [hcell] at hanswer
              rcases hresolve : r.resolve source ref with ⟨cause | resolved, now⟩
              · rw [hresolve] at hanswer
                cases hanswer
              · rw [hresolve] at hanswer hnow
                obtain ⟨hkeys, hcells⟩ := Prod.mk.inj (Option.some.inj hanswer)
                have hfits := CellRef.fits_of_key? hkey
                dsimp only
                rw [hkeys, hcells]
                exact ih _ _ (hnext key cell hfits (hholds ref key cell hrefs hfits hcell)) hnow

/-! ### Levels -/

/-- The cell of an instance, as it is seen. -/
structure Seen (see : CellKey → Option Cell) (i : Instance) (c : String × CellKey × Cell) :
    Prop where
  name : c.1 = i.name
  fits : c.2.1.fits i.cell
  seen : see c.2.1 = some c.2.2

theorem reply_askAll_cons_eq_some_iff {path : InstancePath} {s : Schematic} {i : Instance}
    {rest : List Instance} {cells : List (String × CellKey × Cell)} :
    (askAll path s (i :: rest)).reply see = some cells ↔ Level.hasPoint i.name = false ∧
      ∃ key cell more, i.cell.key? = some key ∧ see key = some cell ∧
        Level.connectionFault? path s i cell = none ∧
        (askAll path s rest).reply see = some more ∧ cells = (i.name, key, cell) :: more := by
  rw [askAll]
  cases hpoint : Level.hasPoint i.name with
  | true => simp
  | false =>
      simp only [Bool.false_eq_true, if_false, reply, Option.bind_eq_some_iff, true_and]
      constructor
      · rintro ⟨key, hkey, cell, hcell, h⟩
        cases hfault : Level.connectionFault? path s i cell with
        | some e =>
            rw [hfault] at h
            cases h
        | none =>
            rw [hfault, reply_bind] at h
            obtain ⟨more, hmore, hcells⟩ := Option.bind_eq_some_iff.1 h
            cases hcells
            exact ⟨key, cell, more, hkey, hcell, hfault, hmore, rfl⟩
      · rintro ⟨key, cell, more, hkey, hcell, hfault, hmore, rfl⟩
        refine ⟨key, hkey, cell, hcell, ?_⟩
        rw [hfault, reply_bind, hmore]
        rfl

theorem seen_of_reply_askAll {path : InstancePath} {s : Schematic} {instances : List Instance}
    {cells : List (String × CellKey × Cell)}
    (h : (askAll path s instances).reply see = some cells) :
    List.Forall₂ (Seen see) instances cells := by
  induction instances generalizing cells with
  | nil =>
      cases h
      exact .nil
  | cons i rest ih =>
      obtain ⟨_, key, cell, more, hkey, hcell, _, hmore, rfl⟩ := reply_askAll_cons_eq_some_iff.1 h
      exact .cons ⟨rfl, CellRef.fits_of_key? hkey, hcell⟩ (ih hmore)

/-- Instances are expanded one by one. -/
theorem reply_expandAll_eq_some_iff {expandOne : String → CellKey → Cell → Inquiry Hierarchy}
    {cells : List (String × CellKey × Cell)} {trees : List Hierarchy} :
    (expandAll expandOne cells).reply see = some trees ↔
      List.Forall₂ (fun c h => (expandOne c.1 c.2.1 c.2.2).reply see = some h) cells trees := by
  induction cells generalizing trees with
  | nil =>
      rw [List.forall₂_nil_left_iff]
      show some [] = some trees ↔ _
      rw [Option.some.injEq, eq_comm]
  | cons c rest ih =>
      rw [expandAll, reply_bind, List.forall₂_cons_left_iff, Option.bind_eq_some_iff]
      simp only [reply_bind, Option.bind_eq_some_iff, reply_ok, Option.some.injEq, ih]
      constructor
      · rintro ⟨first, hfirst, more, hmore, rfl⟩
        exact ⟨first, more, hfirst, hmore, rfl⟩
      · rintro ⟨first, more, hfirst, hmore, rfl⟩
        exact ⟨first, hfirst, more, hmore, rfl⟩

theorem of_reply_expandInstance_eq_some {symbolic : Table String Value} {ancestors : List Ancestor}
    {l : Place} {s : Schematic} {enter : Level String → Inquiry Hierarchy} {name : String}
    {key : CellKey} {cell : Cell} {h : Hierarchy}
    (hreply : (expandInstance symbolic ancestors l s enter name key cell).reply see = some h) :
    ∃ placement, l.takeUp symbolic s.net? ancestors name ⟨key, 0, cell⟩ = .ok placement ∧
      ((∃ d, placement = .device d ∧ h = .device key cell d) ∨
        ∃ inner, placement = .level inner ∧ (enter inner).reply see = some h) := by
  unfold expandInstance at hreply
  rcases htake : l.takeUp symbolic s.net? ancestors name ⟨key, 0, cell⟩ with e | (d | inner)
  · rw [htake] at hreply
    cases hreply
  · rw [htake] at hreply
    cases hreply
    exact ⟨_, rfl, .inl ⟨d, rfl, rfl⟩⟩
  · rw [htake] at hreply
    exact ⟨_, rfl, .inr ⟨inner, rfl, hreply⟩⟩

theorem of_reply_expand_eq_some {symbolic : Table String Value} {depth : Nat}
    {ancestors : List Ancestor} {l : Level String} {h : Hierarchy}
    (hreply : (expand symbolic depth ancestors l).reply see = some h) :
    ∃ deeper s cells children, depth = deeper + 1 ∧ l.schematic = .ok s ∧
      (askAll l.path s s.instances.values).reply see = some cells ∧
      List.Forall₂ (fun c h => (expandInstance symbolic (ancestors ++ [l.ancestor]) l.toPlace s
        (expand symbolic deeper (ancestors ++ [l.ancestor])) c.1 c.2.1 c.2.2).reply see = some h)
        cells children ∧
      h = .level l.toPlace s l.bindings children := by
  cases depth with
  | zero => cases hreply
  | succ deeper =>
      rw [expand] at hreply
      cases hvalid : l.schematic with
      | error e =>
          rw [hvalid] at hreply
          cases hreply
      | ok s =>
          rw [hvalid] at hreply
          simp only [reply_bind, Option.bind_eq_some_iff, reply_ok, Option.some.injEq,
            reply_expandAll_eq_some_iff] at hreply
          obtain ⟨cells, hcells, children, hchildren, rfl⟩ := hreply
          exact ⟨deeper, s, cells, children, rfl, rfl, hcells, hchildren, rfl⟩

/-- Below a cell of a pinned design, expansions depend only on what is seen. -/
theorem toOption_run_expand {source : Source} {top : Cell}
    (hpinned : ∀ cell, Library.Reaches see top cell → cell.Refers fun ref => ref.pinned = true)
    {r : Resolver} (hr : r.seen? source = see) (symbolic : Table String Value) (depth : Nat)
    (ancestors : List Ancestor) {l : Level String} (hreached : Library.Reaches see top l.cell) :
    ((Level.expand source symbolic depth ancestors l).run r).1.toOption =
      (expand symbolic depth ancestors l).reply see := by
  have hrefs : ∀ cell, Library.Reaches see top cell → cell.Refers (Library.Mentions see top) :=
    fun cell hcell s hs i hi => ⟨cell, s, i, hcell, hs, hi, rfl⟩
  have hwithin : (expand symbolic depth ancestors l).Within (Library.Mentions see top)
      (fun _ cell => Library.Reaches see top cell) fun _ => True :=
    within_expand (fun _ cell hcell => hrefs cell hcell) symbolic depth ancestors l
      (hrefs l.cell hreached)
  rw [← run_expand]
  refine toOption_run hwithin ?_ (fun ref key cell href hfits hseen => href.reaches hfits hseen) hr
  rintro ref ⟨cell, s, i, hcell, hs, hi, rfl⟩
  exact hpinned cell hcell s hs i hi

/-- As long as the answers hold, an inquiry keeps what they keep. -/
theorem inv_run {source : Source} {refs : CellRef → Prop} {holds : CellKey → Cell → Prop}
    {inv : Resolver → Prop} (hlib : Library.Answers source refs holds inv) {post : α → Prop}
    {t : Inquiry α} (ht : t.Within refs holds post) {r : Resolver} (hr : inv r) :
    inv (t.run source r).2 := by
  induction t generalizing r with
  | done outcome => exact hr
  | ask ref failed next ih =>
      obtain ⟨href, hnext⟩ := ht
      have hnow := hlib.inv_resolve ref r href hr
      have hanswer := hlib.resolve ref r
      rw [run]
      rcases hresolve : r.resolve source ref with ⟨cause | resolved, now⟩
      · rw [hresolve] at hnow
        exact hnow
      · rw [hresolve] at hnow hanswer
        obtain ⟨hfits, hholds⟩ := hanswer resolved href hr rfl
        exact ih _ _ (hnext _ _ hfits hholds) hnow

/-- Flattening a pinned design changes nothing that is seen. -/
theorem seen?_flattenTop {source : Source} (o : CompileOptions) (key : Option CellKey) {top : Cell}
    {r : Resolver} (hpinned : ∀ cell, Library.Reaches (r.seen? source) top cell →
      cell.Refers fun ref => ref.pinned = true) :
    ((flattenTop source o key top).run r).2.seen? source = r.seen? source := by
  have hrefs : ∀ ref, Library.Mentions (r.seen? source) top ref → ref.pinned = true := by
    rintro ref ⟨cell, s, i, hcell, hs, hi, rfl⟩
    exact hpinned cell hcell s hs i hi
  have hseen := Library.answers_seen source (r.seen? source)
  have hlib : Library.Answers source (Library.Mentions (r.seen? source) top)
      (fun _ cell => Library.Reaches (r.seen? source) top cell)
      (fun now => now.seen? source = r.seen? source) := by
    refine ⟨fun ref now href => hseen.inv_resolve ref now (hrefs ref href), ?_⟩
    intro ref now resolved href hnow hresolved
    obtain ⟨hfits, hcell⟩ := hseen.resolve ref now resolved (hrefs ref href) hnow hresolved
    exact ⟨hfits, href.reaches hfits hcell⟩
  rw [run_flattenTop source o key top (Nat.le_refl _)]
  exact inv_run hlib (within_mentions _ o key) rfl

end Inquiry

end Netlisting
