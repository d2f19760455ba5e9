import Mathlib.Data.List.TakeWhile
import Netlisting.Proofs.Flattening.Faults

/-!
# The recursion comes to an end by itself

`Level.expand` is told how deep it may go.  When it does not run into this bound, a larger bound
makes no difference (`run_expand_of_le`).  It does not run into a bound of `Resolver.levels`: the
cells on the way from the top are different and are all cached or on offer, so a way that long
would hold more cells than there are (`safe_expand`).
-/

namespace Netlisting

namespace Walk

/-- The steps gave up because there were too many levels. -/
def TooDeep {α : Type} (outcome : Except CompileError α × Library.Resolver) : Prop :=
  ∃ p, outcome.1 = .error (.tooDeep p)

/-- Resolvers with `inv` lead to such again, and to a result with `post` or to an error that is
not about the depth. -/
def Safe {α : Type} (inv : Library.Resolver → Prop) (post : α → Prop) (x : Walk α) : Prop :=
  ∀ r, inv r → inv (x.run r).2 ∧ ¬ TooDeep (x.run r) ∧ ∀ a, (x.run r).1 = .ok a → post a

section

variable {α β : Type} {inv : Library.Resolver → Prop}

theorem safe_pure {post : α → Prop} {a : α} (h : post a) : Safe inv post (pure a) := by
  intro r hr
  refine ⟨hr, ?_, fun b hb => Except.ok.inj hb ▸ h⟩
  rintro ⟨p, hp⟩
  cases hp

theorem safe_error {post : α → Prop} {e : CompileError} (h : ∀ p, e ≠ .tooDeep p)
    {r : Library.Resolver} (hr : inv r) :
    inv r ∧ ¬ TooDeep ((.error e, r) : Except CompileError α × Library.Resolver) ∧
      ∀ a : α, .error e = Except.ok a → post a := by
  refine ⟨hr, ?_, nofun⟩
  rintro ⟨p, hp⟩
  exact h p (Except.error.inj hp)

theorem safe_throw {post : α → Prop} {e : CompileError} (h : ∀ p, e ≠ .tooDeep p) :
    Safe inv post (throw e : Walk α) :=
  fun _ hr => safe_error h hr

theorem safe_bind (mid : α → Prop) {post : β → Prop} {x : Walk α} {f : α → Walk β}
    (hx : Safe inv mid x) (hf : ∀ a, mid a → Safe inv post (f a)) : Safe inv post (x >>= f) := by
  intro r hr
  obtain ⟨hinv, hdeep, hpost⟩ := hx r hr
  rw [Walk.run_bind]
  rcases hrun : x.run r with ⟨e | a, after⟩
  · rw [hrun] at hinv hdeep
    refine ⟨hinv, ?_, fun b hb => by cases hb⟩
    rintro ⟨p, hp⟩
    exact hdeep ⟨p, congrArg Except.error (Except.error.inj hp)⟩
  · rw [hrun] at hinv hpost
    exact hf a (hpost a rfl) after hinv

end

end Walk

/-! ### A larger bound -/

theorem Walk.run_bind_of_not_tooDeep {α β : Type} {x x' : Walk α} {f f' : α → Walk β}
    {r : Library.Resolver} (hx : ¬ Walk.TooDeep (x.run r) → x'.run r = x.run r)
    (hf : ∀ a now, ¬ Walk.TooDeep ((f a).run now) → (f' a).run now = (f a).run now)
    (h : ¬ Walk.TooDeep ((x >>= f).run r)) : (x' >>= f').run r = (x >>= f).run r := by
  rw [Walk.run_bind] at h ⊢
  rw [Walk.run_bind]
  rcases hrun : x.run r with ⟨e | a, after⟩
  · rw [hrun] at h hx
    rw [hx fun ⟨p, hp⟩ => h ⟨p, congrArg Except.error (Except.error.inj hp)⟩]
  · rw [hrun] at h hx
    rw [hx fun ⟨p, hp⟩ => by cases hp]
    exact hf a after h

theorem Level.run_expandAll_of_not_tooDeep {symbolic : Table String Value}
    {ancestors : List Ancestor} {l : Place} {s : Schematic}
    {enter enter' : Level String → Walk Hierarchy}
    (henter : ∀ inner r, ¬ Walk.TooDeep ((enter inner).run r) →
      (enter' inner).run r = (enter inner).run r)
    (cells : List (String × Library.Resolved)) (r : Library.Resolver)
    (h : ¬ Walk.TooDeep
      ((Level.expandAll (Level.expandInstance symbolic ancestors l s enter) cells).run r)) :
    (Level.expandAll (Level.expandInstance symbolic ancestors l s enter') cells).run r =
      (Level.expandAll (Level.expandInstance symbolic ancestors l s enter) cells).run r := by
  induction cells generalizing r with
  | nil => rfl
  | cons cell rest ih =>
      obtain ⟨name, resolved⟩ := cell
      refine Walk.run_bind_of_not_tooDeep ?_ (fun first now => ?_) h
      · unfold Level.expandInstance
        rcases l.takeUp symbolic s.net? ancestors name resolved with e | (d | inner)
        · exact fun _ => rfl
        · exact fun _ => rfl
        · exact henter inner r
      · exact Walk.run_bind_of_not_tooDeep (ih now) fun _ _ _ => rfl

theorem Level.run_expand_succ {source : Library.Source} {symbolic : Table String Value}
    (depth : Nat) (ancestors : List Ancestor) (l : Level String) (r : Library.Resolver)
    (h : ¬ Walk.TooDeep ((Level.expand source symbolic depth ancestors l).run r)) :
    (Level.expand source symbolic (depth + 1) ancestors l).run r =
      (Level.expand source symbolic depth ancestors l).run r := by
  induction depth generalizing ancestors l r with
  | zero => exact absurd ⟨l.path, rfl⟩ h
  | succ depth ih =>
      rw [Level.expand] at h
      rw [Level.expand, Level.expand]
      cases hvalid : l.schematic with
      | error e => rfl
      | ok s =>
          rw [hvalid] at h
          refine Walk.run_bind_of_not_tooDeep (fun _ => rfl) (fun cells now => ?_) h
          exact Walk.run_bind_of_not_tooDeep
            (Level.run_expandAll_of_not_tooDeep (ih _) cells now) fun _ _ _ => rfl

/-- Room that is not used makes no difference. -/
theorem Level.run_expand_of_le {source : Library.Source} {symbolic : Table String Value}
    {depth more : Nat} (hle : depth ≤ more) (ancestors : List Ancestor) (l : Level String)
    (r : Library.Resolver)
    (h : ¬ Walk.TooDeep ((Level.expand source symbolic depth ancestors l).run r)) :
    (Level.expand source symbolic more ancestors l).run r =
      (Level.expand source symbolic depth ancestors l).run r := by
  induction hle with
  | refl => rfl
  | step _ ih => rw [Level.run_expand_succ _ _ _ _ (ih ▸ h), ih]

/-! ### Enough room -/

theorem cycle?_eq_none_iff (ancestors : List Ancestor) (key : Library.CellKey) :
    cycle? ancestors key = none ↔ ∀ a ∈ ancestors, a.key ≠ some key := by
  unfold cycle?
  split
  · next hnil => simpa using List.dropWhile_eq_nil_iff.1 hnil
  · next entered hne =>
    constructor
    · nofun
    · intro hall
      exact absurd (List.dropWhile_eq_nil_iff.2 (by simpa using hall)) hne

section

variable {source : Library.Source} {start : Library.Resolver}

/-- There are no more keys than are cached or on offer. -/
theorem length_le_of_offers {keys : List Library.CellKey} (hnodup : keys.Nodup)
    (hoffers : ∀ k ∈ keys, ∃ cell, Library.Offers source start k cell) :
    keys.length ≤ source.bound + start.cells.size := by
  have hsplit := List.length_eq_length_filter_add (l := keys)
    fun k => start.cells.contains k
  have hcached : (keys.filter fun k => start.cells.contains k).length ≤ start.cells.size := by
    have hkeys : start.cells.keys.length = start.cells.size := by
      simp [Table.keys, Table.size]
    rw [← hkeys]
    refine List.Nodup.length_le_of_subset (hnodup.filter _) fun k hk => ?_
    exact (Table.mem_keys_iff_contains _ _).1 (List.mem_filter.1 hk).2
  have hfetched : (keys.filter fun k => !start.cells.contains k).length ≤ source.bound := by
    refine source.bounded _ (hnodup.filter _) fun k hk => ?_
    obtain ⟨hmem, hnew⟩ := List.mem_filter.1 hk
    obtain ⟨cell, hfetch | ⟨shared, hcached, _⟩⟩ := hoffers k hmem
    · exact ⟨cell, hfetch⟩
    · have hcontains : start.cells.contains k = true := by
        rw [Table.mem_keys_iff_contains, ← Table.get?_isSome_iff, hcached]
        rfl
      simp [hcontains] at hnew
  omega

/-- The way from the top to a level leaves room for `depth` levels.  Its cells are different from
each other, the top cell apart, which need not come from the library. -/
structure HasRoom (source : Library.Source) (start : Library.Resolver) (depth : Nat)
    (ancestors : List Ancestor) (l : Level String) : Prop where
  room : start.levels source ≤ depth + ancestors.length
  way : ∃ keys : List Library.CellKey, keys.Nodup ∧ ancestors.length ≤ keys.length ∧
    (∀ k ∈ keys, ∃ cell, Library.Offers source start k cell) ∧
    ∀ k ∈ keys, ∃ a ∈ ancestors ++ [l.ancestor], a.key = some k

theorem hasRoom_top {depth : Nat} (h : start.levels source ≤ depth) (l : Level String) :
    HasRoom source start depth [] l :=
  ⟨h, [], .nil, Nat.le_refl 0, by simp, by simp⟩

theorem HasRoom.depth_pos {depth : Nat} {ancestors : List Ancestor} {l : Level String}
    (h : HasRoom source start depth ancestors l) : 0 < depth := by
  obtain ⟨keys, hnodup, hlength, hoffers, _⟩ := h.way
  have hroom := h.room
  have hfew := length_le_of_offers hnodup hoffers
  unfold Library.Resolver.levels at hroom
  omega

/-- A level that is not on the way already leaves room for one level less. -/
theorem HasRoom.enter {depth : Nat} {ancestors : List Ancestor} {l inner : Level String}
    (h : HasRoom source start (depth + 1) ancestors l) {key : Library.CellKey}
    (hkey : inner.key = some key) (hoffers : ∃ cell, Library.Offers source start key cell)
    (hcycle : cycle? (ancestors ++ [l.ancestor]) key = none) :
    HasRoom source start depth (ancestors ++ [l.ancestor]) inner := by
  obtain ⟨keys, hnodup, hlength, hall, hway⟩ := h.way
  have hnew : key ∉ keys := by
    intro hmem
    obtain ⟨a, ha, heq⟩ := hway key hmem
    exact (cycle?_eq_none_iff _ _).1 hcycle a ha heq
  refine ⟨?_, key :: keys, List.nodup_cons.2 ⟨hnew, hnodup⟩, ?_, ?_, ?_⟩
  · have hroom := h.room
    simp only [List.length_append, List.length_singleton]
    omega
  · simpa using hlength
  · exact List.forall_mem_cons.2 ⟨hoffers, hall⟩
  · refine List.forall_mem_cons.2 ⟨⟨inner.ancestor, by simp, hkey⟩, fun k hk => ?_⟩
    obtain ⟨a, ha, heq⟩ := hway k hk
    exact ⟨a, List.mem_append_left _ ha, heq⟩

/-- What the resolver has cached was cached at the start, or was on offer. -/
def CachesOffers (source : Library.Source) (start now : Library.Resolver) : Prop :=
  ∀ key shared, now.cells.get? key = some shared →
    Library.Offers source start key shared.cell

theorem safe_resolveAll (path : InstancePath) (s : Schematic) (instances : List Instance) :
    Walk.Safe (CachesOffers source start)
      (fun cells => ∀ c ∈ cells, ∃ cell, Library.Offers source start c.2.key cell)
      (Level.resolveAll source path s instances) := by
  have hlib := Library.answers_offers source start
  induction instances with
  | nil => exact Walk.safe_pure (by simp)
  | cons i rest ih =>
      intro r hr
      rw [Level.run_resolveAll_cons]
      have hnow := hlib.inv_resolve i.cell r trivial hr
      have hanswer := hlib.resolve i.cell r
      split
      · exact Walk.safe_error (by nofun) hr
      · rcases hresolve : r.resolve source i.cell with ⟨cause | resolved, now⟩
        · rw [hresolve] at hnow
          exact Walk.safe_error (by nofun) hnow
        · rw [hresolve] at hnow
          have hoffer := (hanswer resolved trivial hr (by rw [hresolve])).2
          dsimp only
          split
          · next e hfault =>
            exact Walk.safe_error (Level.fault_of_connectionFault? hfault).ne_tooDeep hnow
          · obtain ⟨hafter, hdeep, hcells⟩ := ih now hnow
            rcases hrest : (Level.resolveAll source path s rest).run now with ⟨e | cells, last⟩
            · rw [hrest] at hafter hdeep
              refine ⟨hafter, ?_, fun a ha => by cases ha⟩
              rintro ⟨p, hp⟩
              exact hdeep ⟨p, congrArg Except.error (Except.error.inj hp)⟩
            · rw [hrest] at hafter hcells
              refine ⟨hafter, ?_, fun a ha => ?_⟩
              · rintro ⟨p, hp⟩
                cases hp
              cases ha
              exact List.forall_mem_cons.2 ⟨⟨_, hoffer⟩, hcells cells rfl⟩

theorem safe_expandAll {symbolic : Table String Value} {ancestors : List Ancestor} {l : Place}
    {s : Schematic} {enter : Level String → Walk Hierarchy}
    (henter : ∀ (inner : Level String) key, inner.key = some key →
      (∃ cell, Library.Offers source start key cell) → cycle? ancestors key = none →
      Walk.Safe (CachesOffers source start) (fun _ => True) (enter inner))
    {cells : List (String × Library.Resolved)}
    (hcells : ∀ c ∈ cells, ∃ cell, Library.Offers source start c.2.key cell)
    (hs : l.cell.schematic? = some s) :
    Walk.Safe (CachesOffers source start) (fun _ => True)
      (Level.expandAll (Level.expandInstance symbolic ancestors l s enter) cells) := by
  induction cells with
  | nil => exact Walk.safe_pure trivial
  | cons cell rest ih =>
      obtain ⟨name, resolved⟩ := cell
      obtain ⟨hfirst, hrest⟩ := List.forall_mem_cons.1 hcells
      refine Walk.safe_bind (fun _ => True) ?_ fun _ _ =>
        Walk.safe_bind _ (ih hrest) fun _ _ => Walk.safe_pure trivial
      unfold Level.expandInstance
      cases htake : l.takeUp symbolic s.net? ancestors name resolved with
      | error e => exact Walk.safe_throw (Place.takeUp_ne_tooDeep hs htake)
      | ok placement =>
          obtain ⟨_, _, _, _, _, _, ⟨d, _, rfl⟩ | ⟨_, hcycle, rfl⟩⟩ := Place.takeUp_eq_ok hs htake
          · exact Walk.safe_pure trivial
          · exact henter _ resolved.key rfl hfirst hcycle

/-- With room for every cell there is, the depth is no matter. -/
theorem safe_expand {symbolic : Table String Value} {depth : Nat} {ancestors : List Ancestor}
    {l : Level String} (hroom : HasRoom source start depth ancestors l) :
    Walk.Safe (CachesOffers source start) (fun _ => True)
      (Level.expand source symbolic depth ancestors l) := by
  induction depth generalizing ancestors l with
  | zero => exact absurd hroom.depth_pos (Nat.lt_irrefl 0)
  | succ depth ih =>
      rw [Level.expand]
      cases hvalid : l.schematic with
      | error e => exact Walk.safe_throw (Level.fault_of_schematic hvalid).ne_tooDeep
      | ok s =>
          have hs := (Level.valid_of_schematic hvalid).schematic
          refine Walk.safe_bind _ (safe_resolveAll l.path s _) fun cells hcells => ?_
          refine Walk.safe_bind _ (safe_expandAll (fun inner key hkey hoffer hcycle => ?_)
            hcells hs) fun _ _ => Walk.safe_pure trivial
          exact ih (hroom.enter hkey hoffer hcycle)

end

/-- The expansion of a top cell does not end for want of room, and more room makes no
difference. -/
theorem run_expandTop_of_le {source : Library.Source} {o : CompileOptions}
    {key : Option Library.CellKey} {top : Cell} {r : Library.Resolver} {depth : Nat}
    (hdepth : r.levels source ≤ depth) :
    ¬ Walk.TooDeep ((expandTop source depth o key top).run r) ∧
      (expandTop source depth o key top).run r =
        (expandTop source (r.levels source) o key top).run r := by
  have hsafe : ∀ depth, r.levels source ≤ depth →
      ¬ Walk.TooDeep ((expandTop source depth o key top).run r) := by
    intro depth hdepth
    refine (?_ : Walk.Safe (CachesOffers source r) (fun _ => True) _) r ?_ |>.2.1
    · unfold expandTop
      cases hparams : Params.ofTop o top with
      | error e => exact Walk.safe_throw (Params.reads_ofTop o top e hparams).ne_tooDeep
      | ok params =>
          exact Walk.safe_bind _ (safe_expand (hasRoom_top hdepth _)) fun _ _ =>
            Walk.safe_pure trivial
    · exact fun key shared => Library.offers_of_cached
  refine ⟨hsafe depth hdepth, ?_⟩
  have hstart := hsafe (r.levels source) (Nat.le_refl _)
  unfold expandTop at hstart ⊢
  cases hparams : Params.ofTop o top with
  | error e => rfl
  | ok params =>
      rw [hparams] at hstart
      exact Walk.run_bind_of_not_tooDeep
        (Level.run_expand_of_le hdepth _ _ r) (fun _ _ _ => rfl) hstart

end Netlisting
