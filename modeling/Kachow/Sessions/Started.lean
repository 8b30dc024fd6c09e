import Kachow.Sessions.Locations

/-! # The whole server, from its start

The start makes the factories in the order of their statements, and the factory of an API makes its root
directory or scans it. What the later ones do leaves the directories of the earlier ones alone (`Built`).
So when the server has started it holds a site: for each API the store that was in its directory, and
empty vaults for the locations with users (`holdsSite_started`); and from there on it answers as this site
does (`site_refines`). What the clients of one location see does not depend on the requests to the others
(`locations_apart`). -/

namespace Kachow.Sessions.Started

open Kachow.Lib.Text Kachow.Lib.Files Kachow.Lib.Runs Kachow.Boost.Paths Kachow.Http.Messages Kachow.Disk
open Kachow.Config.Parser (NginxConfig NginxConfigStatement)
open Kachow.Api.Ids Kachow.Api.Handler Kachow.Api.Objects Kachow.Api.StoreStep Kachow.Api.Factory
open Kachow.Secure.Handler Kachow.Secure.Stores Kachow.Server.Factories Kachow.Server.Routes
open Kachow.Sessions.Handlers Kachow.Sessions.Routing Kachow.Sessions.Exceptions Kachow.Sessions.Locations

/-- What the start finds. The root directory of an API is missing, or it holds a store; that of an API with
users is missing, or there is nothing in it yet. -/
structure Grounds (cwd : Loc Str) (config : NginxConfig) (L : Layout) (stores : ℕ → Store) : Prop where
  kinds : ∀ i, L.kind i = (locations config)[i]?.map Prod.snd
  api : ∀ i root, L.kind i = some (.api root) → Path.locateNew L.disk cwd ⟨root⟩ = some (L.place i) ∧
    (L.disk.node (L.place i) = none ∧ stores i = Store.empty ∨
      OnDisk ⟨root⟩ cwd (L.place i) L.disk (stores i) ∧ OnlyObjects (L.place i) L.disk)
  users : ∀ i root authorizer, L.kind i = some (.secureAPI root authorizer) →
    Path.locateNew L.disk cwd ⟨root⟩ = some (L.place i) ∧
    (L.disk.node (L.place i) = none ∨ FreshVault root cwd (L.place i) ⟨L.disk, ∅⟩)

section Start
variable {cwd : Loc Str} {config : NginxConfig} {L : Layout} {stores : ℕ → Store} {it : DirectoryIterator}

/-- The first `n` factories have been made. -/
structure Built (cwd : Loc Str) (L : Layout) (stores : ℕ → Store) (n : ℕ) (h : Heap) : Prop where
  made : h.made = n
  dirs : ∀ l, L.disk.isDir l = true → h.memory.disk.isDir l = true
  node : ∀ l, (∀ i, i < n → L.Rooted i → ¬ L.place i <+: l) → h.memory.disk.node l = L.disk.node l
  api : ∀ i root, i < n → L.kind i = some (.api root) →
    Holds ⟨root⟩ cwd (L.place i) ⟨h.memory.disk, h.memory.entityIdMaps i⟩ (stores i)
  users : ∀ i root authorizer, i < n → L.kind i = some (.secureAPI root authorizer) →
    HoldsVault root cwd (L.place i) ⟨h.memory.disk, h.memory.entityIdMaps i⟩
      ⟨fun _ => Store.empty, h.memory.entityIdMaps i⟩

variable {n : ℕ} {h h' : Heap}

theorem built_start (disk : Tree) (hd : L.disk = disk) : Built cwd L stores 0 ⟨⟨disk, fun _ => ∅⟩, 0⟩ := by
  subst hd
  exact ⟨rfl, fun _ => id, fun _ _ => rfl, fun i _ hi => absurd hi (Nat.not_lt_zero i),
    fun i _ _ hi => absurd hi (Nat.not_lt_zero i)⟩

/-- The directory of a factory still to be made is as it was. -/
theorem Built.sameBelow (hb : Built cwd L stores n h) (hL : L.Sound cwd) (hn : L.Rooted n) :
    SameBelow (L.place n) L.disk h.memory.disk where
  node l hl := hb.node l fun i hi hroot hli => hL.apart i n hi.ne hroot hn l ⟨hli, hl⟩
  dirs := hb.dirs

/-- One more factory: it has changed its own directory only, and left there what it should. -/
theorem Built.next (hb : Built cwd L stores n h) (hL : L.Sound cwd) {t : Tree} {ids : EntityIdMap}
    (hnode : ∀ l, ¬ (L.Rooted n ∧ L.place n <+: l) → t.node l = h.memory.disk.node l)
    (hdirs : ∀ l, h.memory.disk.isDir l = true → t.isDir l = true)
    (hapi : ∀ root, L.kind n = some (.api root) → Holds ⟨root⟩ cwd (L.place n) ⟨t, ids⟩ (stores n))
    (husers : ∀ root authorizer, L.kind n = some (.secureAPI root authorizer) →
      HoldsVault root cwd (L.place n) ⟨t, ids⟩ ⟨fun _ => Store.empty, ids⟩) :
    Built cwd L stores (n + 1) ⟨⟨t, Function.update h.memory.entityIdMaps n ids⟩, n + 1⟩ := by
  have hbelow : ∀ i, i < n → L.Rooted i → SameBelow (L.place i) h.memory.disk t := fun i hi hroot =>
    ⟨fun l hl => hnode l fun ⟨hn, hnl⟩ => hL.apart i n hi.ne hroot hn l ⟨hl, hnl⟩, hdirs⟩
  refine ⟨rfl, fun l hl => hdirs l (hb.dirs l hl), fun l hl => ?_, fun i root hi hk => ?_,
    fun i root authorizer hi hk => ?_⟩
  · exact (hnode l fun ⟨hn, hnl⟩ => hl n (Nat.lt_succ_self n) hn hnl).trans
      (hb.node l fun i hi => hl i (Nat.lt_succ_of_lt hi))
  · rcases Nat.lt_succ_iff_lt_or_eq.mp hi with hi | rfl
    · have hold := hb.api i root hi hk
      simp only [Function.update_of_ne hi.ne]
      exact ⟨OnDisk.of_sameBelow hold.disk (hbelow i hi ⟨_, root, hk, rfl⟩), hold.map⟩
    · simp only [Function.update_self]
      exact hapi root hk
  · rcases Nat.lt_succ_iff_lt_or_eq.mp hi with hi | rfl
    · simp only [Function.update_of_ne hi.ne]
      exact HoldsVault.of_sameBelow (hb.users i root authorizer hi hk) (hbelow i hi ⟨_, root, hk, rfl⟩)
    · simp only [Function.update_self]
      exact husers root authorizer hk

/-- A factory that makes its root directory. -/
theorem missing_root {root : Str} {t : Tree} (hsame : SameBelow (L.place n) L.disk t)
    (hl : Path.locateNew L.disk cwd ⟨root⟩ = some (L.place n)) (hn : L.disk.node (L.place n) = none) :
    ∃ t', (scanFS it cwd ⟨root⟩).run ⟨t, ∅⟩ = .ok false ⟨t', ∅⟩ ∧
      Fresh ⟨root⟩ cwd (L.place n) ⟨t', ∅⟩ ∧ (∀ l, ¬ L.place n <+: l → t'.node l = t.node l) ∧
      ∀ l, t.isDir l = true → t'.isDir l = true := by
  have hmissing : t.node (L.place n) = none := by rw [hsame.node _ List.prefix_rfl, hn]
  obtain ⟨t', hrun, hfresh, hnode⟩ := run_scanFS_new it (locateNew_mono hsame.dirs hl) hmissing
  refine ⟨t', hrun, hfresh, fun l hl => ?_, fun l hl => ?_⟩
  · rw [hnode, if_neg]
    rintro rfl
    exact hl List.prefix_rfl
  · rw [FileTree.isDir_iff] at hl ⊢
    rw [hnode]
    split_ifs
    · rfl
    · exact hl

/-- What a new factory with a root directory leaves. -/
theorem newFactory_rooted {kind : FactoryKind} {root : Str} {f : RequestHandlerFactory} {b : Bool}
    {w : World Tree} (hroot : apiRoot kind = some root)
    (hscan : (scanFS it cwd ⟨root⟩).run ⟨h.memory.disk, ∅⟩ = .ok b w)
    (hr : (newFactory it cwd kind).run h = .ok f h') :
    h' = ⟨⟨w.disk, Function.update h.memory.entityIdMaps h.made w.entityIdMap⟩, h.made + 1⟩ := by
  have hcons : (construct it cwd kind).run h =
      .ok () ⟨⟨w.disk, Function.update h.memory.entityIdMaps h.made w.entityIdMap⟩, h.made⟩ := by
    have hsr : (scanRoot it cwd root).run h =
        .ok () ⟨⟨w.disk, Function.update h.memory.entityIdMaps h.made w.entityIdMap⟩, h.made⟩ := by
      unfold scanRoot EStateM.run at *
      simp only [hscan]
    cases kind with
    | api root' =>
      cases hroot
      exact hsr
    | secureAPI root' authorizer =>
      cases hroot
      exact hsr
    | _ => cases hroot
  unfold newFactory at hr
  rw [EStateM.run_bind, hcons] at hr
  cases hr
  rfl

/-- One without makes nothing. -/
theorem newFactory_rootless {kind : FactoryKind} {f : RequestHandlerFactory} (hroot : apiRoot kind = none)
    (hr : (newFactory it cwd kind).run h = .ok f h') : h' = ⟨h.memory, h.made + 1⟩ := by
  unfold newFactory construct at hr
  cases kind with
  | api root => cases hroot
  | secureAPI root authorizer => cases hroot
  | _ =>
    cases hr
    rfl

/-- An empty vault, whatever the map. -/
theorem HoldsVault.withIds {root : Str} {D : Loc Str} {t : Tree} {m : EntityIdMap}
    (hv : HoldsVault root cwd D ⟨t, m⟩ Vault.empty) (ids : EntityIdMap) :
    HoldsVault root cwd D ⟨t, ids⟩ ⟨fun _ => Store.empty, ids⟩ where
  base := hv.base
  dir := hv.dir
  area := hv.area
  ids := rfl
  keyed a x hx := by simp [Store.empty] at hx

theorem freshVault_of_fresh {root : Str} {D : Loc Str} {w : World Tree} (hf : Fresh ⟨root⟩ cwd D w) :
    FreshVault root cwd D w where
  base := hf.base
  dir := hf.dir
  areas x l hx := absurd (hf.empty x l) hx
  map := hf.map

/-- **One more factory**, whatever its kind. -/
theorem Built.newFactory {kind : FactoryKind} {f : RequestHandlerFactory} (hb : Built cwd L stores n h)
    (hL : L.Sound cwd) (hG : Grounds cwd config L stores) (hk : L.kind n = some kind)
    (hr : (newFactory it cwd kind).run h = .ok f h') : Built cwd L stores (n + 1) h' := by
  have hkind : ∀ kind', L.kind n = some kind' → kind' = kind := fun kind' hk' =>
    Option.some.inj (hk'.symm.trans hk)
  cases hroot : apiRoot kind with
  | none =>
    have hself : Function.update h.memory.entityIdMaps n (h.memory.entityIdMaps n) =
        h.memory.entityIdMaps := Function.update_eq_self _ _
    rw [newFactory_rootless hroot hr, hb.made]
    have hnext := @Built.next cwd L stores n h hb hL h.memory.disk (h.memory.entityIdMaps n)
      (fun _ _ => rfl) (fun _ => id) (fun root hapi => by rw [← hkind _ hapi] at hroot; cases hroot)
      fun root authorizer husers => by rw [← hkind _ husers] at hroot; cases hroot
    rw [hself] at hnext
    exact hnext
  | some root =>
    have hrooted : L.Rooted n := ⟨kind, root, hk, hroot⟩
    have hsame := hb.sameBelow hL hrooted
    -- what the scan leaves is all that there is to say
    have hscanned : ∀ {b : Bool} {w : World Tree},
        (scanFS it cwd ⟨root⟩).run ⟨h.memory.disk, ∅⟩ = .ok b w →
        (∀ l, ¬ L.place n <+: l → w.disk.node l = h.memory.disk.node l) →
        (∀ l, h.memory.disk.isDir l = true → w.disk.isDir l = true) →
        (kind = .api root → Holds ⟨root⟩ cwd (L.place n) w (stores n)) →
        (∀ authorizer, kind = .secureAPI root authorizer →
          HoldsVault root cwd (L.place n) w ⟨fun _ => Store.empty, w.entityIdMap⟩) →
        Built cwd L stores (n + 1) h' := by
      intro b w hscan hnode hdirs hapi husers
      rw [newFactory_rooted hroot hscan hr, hb.made]
      refine hb.next hL (fun l hl => hnode l fun hp => hl ⟨hrooted, hp⟩) hdirs (fun root' ha => ?_)
        fun root' authorizer hu => ?_
      · have he := hkind _ ha
        subst he
        cases hroot
        exact hapi rfl
      · have he := hkind _ hu
        subst he
        cases hroot
        exact husers authorizer rfl
    cases kind with
    | api root' =>
      cases hroot
      obtain ⟨hl, ⟨hn, hs⟩ | ⟨hd, ho⟩⟩ := hG.api n root hk
      · obtain ⟨t, hrun, hfresh, hnode, hdirs⟩ := @missing_root cwd L it n root _ hsame hl hn
        refine hscanned hrun hnode hdirs (fun _ => ?_) fun _ hc => by cases hc
        rw [hs]
        exact hfresh.holds
      · have hd' := OnDisk.of_sameBelow hd hsame
        have ho' : OnlyObjects (L.place n) h.memory.disk := fun e x hne => by
          rw [hsame.node _ (by rw [List.append_assoc]; exact List.prefix_append _ _)] at hne
          exact ho e x hne
        exact hscanned (run_scanFS hd'.base hd'.dir) (fun _ _ => rfl) (fun _ => id)
          (fun _ => ⟨hd', inMap_scan it hd' ho'⟩) fun _ hc => by cases hc
    | secureAPI root' authorizer =>
      cases hroot
      obtain ⟨hl, hn | hv⟩ := hG.users n root authorizer hk
      · obtain ⟨t, hrun, hfresh, hnode, hdirs⟩ := @missing_root cwd L it n root _ hsame hl hn
        exact hscanned hrun hnode hdirs (fun hc => by cases hc) fun _ _ =>
          HoldsVault.withIds (freshVault_of_fresh hfresh).holds _
      · have hv' := HoldsVault.of_sameBelow hv.holds hsame
        exact hscanned (run_scanFS hv'.base hv'.dir) (fun _ _ => rfl) (fun _ => id)
          (fun hc => by cases hc) fun _ _ => HoldsVault.withIds hv' _
    | _ => cases hroot

/-- The statements, one after the other. -/
theorem built_foldlM (hL : L.Sound cwd) (hG : Grounds cwd config L stores) :
    ∀ {ss : List NginxConfigStatement} {n : ℕ} {routes routes' : RouteMap} {h h' : Heap},
      Built cwd L stores n h → (∀ i p, (ss.filterMap locationOf)[i]? = some p → L.kind (n + i) = some p.2) →
      (ss.foldlM (addLocation it cwd) routes).run h = .ok routes' h' →
      Built cwd L stores (n + (ss.filterMap locationOf).length) h'
  | [], n, _, _, _, _, hb, _, hr => by
    cases hr
    exact hb
  | s :: ss, n, routes, routes', h, h', hb, hkinds, hr => by
    rw [List.foldlM_cons] at hr
    obtain ⟨r, u, hs, hrest⟩ := run_bind_ok hr
    rcases addLocation_cases hs with ⟨hloc, rfl, rfl⟩ | ⟨location, kind, f, hloc, rfl, hf⟩
    · rw [List.filterMap_cons_none hloc] at hkinds ⊢
      exact built_foldlM hL hG hb hkinds hrest
    · rw [List.filterMap_cons_some hloc] at hkinds ⊢
      have hk : L.kind n = some kind := hkinds 0 _ rfl
      have hnext := hb.newFactory hL hG hk hf
      have hlen := built_foldlM hL hG hnext (fun i p hi => by
        rw [Nat.add_assoc, Nat.add_comm 1]
        exact hkinds (i + 1) p hi) hrest
      rwa [Nat.add_assoc, Nat.add_comm 1, ← List.length_cons] at hlen

/-- **The server that has started holds a site**, and its routes lead to the factories of the layout. -/
theorem holdsSite_started {routes : RouteMap} (hL : L.Sound cwd) (hG : Grounds cwd config L stores)
    (hr : (generateRoutes it cwd config).run ⟨⟨L.disk, fun _ => ∅⟩, 0⟩ = .ok routes h') :
    L.Covers routes ∧
      HoldsSite cwd L h'.memory ⟨stores, fun _ _ => Store.empty, h'.memory.entityIdMaps⟩ ∧
      ∀ a root, L.kind a = some (.api root) → InMap (h'.memory.entityIdMaps a) (stores a) := by
  refine ⟨?_, ?_⟩
  · intro location f hf
    rw [lookup_routes hr, firstFactory_eq_some] at hf
    obtain ⟨i, kind, hi, rfl⟩ := hf
    show L.kind (0 + i) = some kind
    rw [Nat.zero_add, hG.kinds, hi.1]
    rfl
  · have hb := built_foldlM hL hG (built_start L.disk rfl) (fun i p hi => by
      rw [Nat.zero_add, hG.kinds]
      unfold locations
      rw [hi]
      rfl) (addServer_ok hr)
    have hlt : ∀ i kind, L.kind i = some kind → i < 0 + (locations config).length := by
      intro i kind hi
      rw [hG.kinds, Option.map_eq_some_iff] at hi
      obtain ⟨p, hp, -⟩ := hi
      rw [Nat.zero_add]
      exact (List.getElem?_eq_some_iff.mp hp).1
    refine ⟨⟨fun a root ha => (hb.api a root (hlt a _ ha) ha).disk, fun a root ha e he => ?_,
      fun a root authorizer ha => hb.users a root authorizer (hlt a _ ha) ha, rfl, hb.dirs, fun l hl =>
      hb.node l fun i _ hroot => hl i hroot⟩, fun a root ha => (hb.api a root (hlt a _ ha) ha).map⟩
    obtain ⟨IDs, hids⟩ := (hb.api a root (hlt a _ ha) ha).map.exists_ids he
    simp [hids]

/-- **The server is its site.** The directories of a configuration lie apart, and each is missing or holds a
store. Once the server has started, every run of requests to its locations that exhausts no entity gets
the answers of the site: of a store for each API, which begins as what was in the directory, of an empty
vault for each location with users, and elsewhere what the server answers at the start. -/
theorem site_refines {routes : RouteMap} {out : Outside} (hL : L.Sound cwd)
    (hG : Grounds cwd config L stores)
    (hr : (generateRoutes it cwd config).run ⟨⟨L.disk, fun _ => ∅⟩, 0⟩ = .ok routes h')
    {is : List (Visit routes out cwd L × Response)} (hroom : Along serveVisit HasNumber h'.memory is) :
    ∃ ids os m' v', (∀ a root, L.kind a = some (.api root) → InMap (ids a) (stores a)) ∧
      (runAll serveVisit is).run h'.memory = .ok os m' ∧
      (runAll stepSite is).run ⟨stores, fun _ _ => Store.empty, ids⟩ = .ok os v' ∧ HoldsSite cwd L m' v' := by
  obtain ⟨hR, hsite, hids⟩ := holdsSite_started hL hG hr
  obtain ⟨os, m', v', hrun, hsiterun, hend⟩ := runs_alike hL hR hsite hroom
  exact ⟨_, os, m', v', hids, hrun, hsiterun, hend⟩

end Start

/-! ### One location -/

section Apart
variable {routes : RouteMap} {out : Outside} {cwd : Loc Str} {L : Layout} {m : Memory Tree} {v : Site}

/-- **The locations do not notice each other.** The server holds a site, and a run of requests to all of its
locations exhausts no entity. For every location, the requests to it alone can be run from the same state,
and they get the answers they get in the whole run. -/
theorem locations_apart (hL : L.Sound cwd) (hR : L.Covers routes) (h : HoldsSite cwd L m v)
    {is : List (Visit routes out cwd L × Response)} (hroom : Along serveVisit HasNumber m is) (a : ℕ) :
    ∃ os m₁ os' m₂, (runAll serveVisit is).run m = .ok os m₁ ∧
      (runAll serveVisit (is.filter (At a))).run m = .ok os' m₂ ∧ outputsOf (At a) is os = os' := by
  obtain ⟨os, m₁, v₁, hrun, hsite, -⟩ := runs_alike hL hR h hroom
  -- the cells of the other requests are those of the other locations
  have hdel : ∀ i ∈ is, At a i = false → ∀ x, i.1.cell = some x → x ≠ a := by
    rintro i - hi x hx rfl
    simp [At, hx] at hi
  have hkeep : ∀ i ∈ is, At a i = true → ∀ x, i.1.cell = some x → ¬ x ≠ a := by
    intro i _ hi x hx
    simp only [At, decide_eq_true_eq] at hi
    rw [hi, Option.some.injEq] at hx
    exact not_not.mpr hx.symm
  have hst : ∀ x, ¬ x ≠ a → SameAt x v v := fun x _ => (equivalence_sameAt x).refl v
  obtain ⟨os', v₂, hsite'⟩ := purge_run oneCell_stepSite
    (fun hs hstep => ⟨_, _, (stepSite_congr hs hstep).choose_spec.1⟩) hdel hkeep hst hsite
  have hsame := purge oneCell_stepSite (fun _ hi => hi) hdel hkeep hst hsite hsite'
  rw [outputsOf_filter _ (length_of_runAll hsite') fun i hi => (List.mem_filter.mp hi).2] at hsame
  obtain ⟨m₂, hrun', -⟩ := run_of_site hL hR h hsite'
  exact ⟨os, m₁, os', m₂, hrun, hrun', hsame⟩

end Apart

/-! ### An API whose directory is shown -/

/-- The API on `data`, and a static location on the same directory. -/
def filesLayout : Layout where
  disk := FileTree.empty
  kind i := [FactoryKind.static "data".toList, FactoryKind.api "data".toList][i]?
  place _ := ["data".toList]
  shows root := if root = "data".toList then some 1 else none

theorem kind_filesLayout {i : ℕ} {kind : FactoryKind} (h : filesLayout.kind i = some kind) :
    i = 0 ∧ kind = .static "data".toList ∨ i = 1 ∧ kind = .api "data".toList := by
  match i with
  | 0 => exact Or.inl ⟨rfl, (Option.some.inj h).symm⟩
  | 1 => exact Or.inr ⟨rfl, (Option.some.inj h).symm⟩
  | _ + 2 => cases h

theorem rooted_filesLayout {i : ℕ} (h : filesLayout.Rooted i) : i = 1 := by
  obtain ⟨kind, root, hk, hr⟩ := h
  rcases kind_filesLayout hk with ⟨-, rfl⟩ | ⟨hi, -⟩
  · cases hr
  · exact hi

theorem locate_data : Path.locate (FileTree.empty : Tree) [] ⟨"data".toList⟩ = some ["data".toList] := by
  decide +kernel

theorem sound_filesLayout : filesLayout.Sound [] where
  apart a b hab ha hb := absurd ((rooted_filesLayout ha).trans (rooted_filesLayout hb).symm) hab
  names a root ha := by
    rcases kind_filesLayout ha with ⟨-, hk⟩ | ⟨-, hk⟩ <;> cases hk
    exact Named.takesNames ⟨by decide, by decide⟩
  path a root authorizer ha := by rcases kind_filesLayout ha with ⟨-, hk⟩ | ⟨-, hk⟩ <;> cases hk
  shown root a ha := by
    unfold filesLayout at ha
    simp only at ha
    split_ifs at ha with hroot
    cases ha
    subst hroot
    exact ⟨Named.takesNames ⟨by decide, by decide⟩, ⟨_, rfl⟩, locate_data⟩

theorem grounds_filesLayout : Grounds [] filesConfig filesLayout fun _ => Store.empty where
  kinds i := by
    have hls : locations filesConfig =
        [("/static".toList, .static "data".toList), ("/api".toList, .api "data".toList)] := by decide
    rw [hls]
    match i with
    | 0 => rfl
    | 1 => rfl
    | _ + 2 => rfl
  api i root hi := by
    rcases kind_filesLayout hi with ⟨-, hk⟩ | ⟨-, hk⟩ <;> cases hk
    refine ⟨locateNew_of_locate locate_data, Or.inl ⟨?_, rfl⟩⟩
    show FileTree.empty.node ["data".toList] = none
    rw [FileTree.node_empty, if_neg (by simp)]
  users i root authorizer hi := by rcases kind_filesLayout hi with ⟨-, hk⟩ | ⟨-, hk⟩ <;> cases hk

/-- The shoe that is stored, and asked for in both places. -/
def shoeRequest (method : Verb) (id : Option ObjectId) : ObjectRequest :=
  ⟨method, "shoes".toList, isName_shoes, id, false, 11, [], "red".toList⟩

theorem select_files {h' : Heap} {routes : RouteMap}
    (hr : (generateRoutes inOrder [] filesConfig).run bareHeap = .ok routes h') :
    select routes ((shoeRequest .post none).toRequest "/api".toList).target =
      some ("/api".toList, ⟨.api "data".toList, 1⟩) ∧
    select routes ((shoeRequest .get (some ⟨1, ObjectId.pos_one, ObjectId.one_le⟩)).toRequest
      "/static".toList).target = some ("/static".toList, ⟨.static "data".toList, 0⟩) := by
  have hls : locations filesConfig =
      [("/static".toList, .static "data".toList), ("/api".toList, .api "data".toList)] := by decide
  constructor
  · refine (select_eq_some hr (by rw [hls]; decide) (by decide +kernel) rfl).mpr ⟨1, _, ⟨?_, ?_⟩, rfl⟩
    · rw [hls]
      refine ⟨rfl, fun j kind hj => ?_⟩
      obtain rfl : j = 0 := by omega
      have hother : "/static".toList ≠ "/api".toList := by decide
      exact fun h => hother (congrArg Prod.fst (Option.some.inj h))
    · rw [hls]
      exact ⟨by decide, by decide +kernel, by decide +kernel⟩
  · refine (select_eq_some hr (by rw [hls]; decide) (by decide +kernel) rfl).mpr ⟨0, _, ⟨?_, ?_⟩, rfl⟩
    · rw [hls]
      exact ⟨rfl, fun j kind hj => absurd hj (Nat.not_lt_zero j)⟩
    · rw [hls]
      exact ⟨by decide, by decide +kernel, by decide +kernel⟩

/-- It finds the number `1`. -/
theorem hasNumber_files {h' : Heap} {routes : RouteMap}
    (hr : (generateRoutes inOrder [] filesConfig).run bareHeap = .ok routes h') :
    @HasNumber routes nothingOutside [] filesLayout h'.memory (.object _ _ _ _ (select_files hr).1, {}) := by
  intro _ _ hn
  have hmap : InMap (h'.memory.entityIdMaps 1) Store.empty :=
    (holdsSite_started sound_filesLayout grounds_filesLayout hr).2.2 1 _ rfl
  have hnone : (h'.memory.entityIdMaps 1).lookup (shoeRequest .post none).entity = none :=
    Option.isNone_iff_eq_none.mp (Option.isSome_eq_false_iff.mp (hmap.key "shoes".toList))
  rw [hnone, nextFree_eq_none] at hn
  exact absurd (hn 1 le_rfl (by decide)) (by simp)

/-- The shoe is stored through the API, and given out by the static location. -/
theorem site_refines_files : ∃ (routes : RouteMap) (h' : Heap)
    (is : List (Visit routes nothingOutside [] filesLayout × Response)) (os : List (Bool × Response))
    (m' : Memory Tree) (v' : Site),
    (generateRoutes inOrder [] filesConfig).run bareHeap = .ok routes h' ∧ is.length = 2 ∧
      (runAll serveVisit is).run h'.memory = .ok os m' ∧ HoldsSite [] filesLayout m' v' := by
  obtain ⟨routes, h', hr⟩ := starts_files
  obtain ⟨hpost, hget⟩ := select_files hr
  let is : List (Visit routes nothingOutside [] filesLayout × Response) :=
    [(.object _ _ _ _ hpost, {}), (.download _ _ 1 _ _ _ ⟨rfl, rfl, rfl⟩ rfl hget, {})]
  have hroom : Along serveVisit HasNumber h'.memory is :=
    ⟨hasNumber_files hr, fun _ _ _ => ⟨trivial, fun _ _ _ => trivial⟩⟩
  obtain ⟨ids, os, m', v', -, hrun, -, hend⟩ := site_refines sound_filesLayout grounds_filesLayout hr hroom
  exact ⟨routes, h', is, os, m', v', hr, rfl, hrun, hend⟩

/-- A request that leads nowhere, between two for the shoe. -/
theorem locations_apart_files : ∃ (routes : RouteMap) (h' : Heap)
    (is : List (Visit routes nothingOutside [] filesLayout × Response)) (os os' : List (Bool × Response))
    (m₁ m₂ : Memory Tree), is.length = 3 ∧ (is.filter (At 1)).length = 2 ∧
      (runAll serveVisit is).run h'.memory = .ok os m₁ ∧
      (runAll serveVisit (is.filter (At 1))).run h'.memory = .ok os' m₂ ∧
      outputsOf (At 1) is os = os' := by
  obtain ⟨routes, h', hr⟩ := starts_files
  obtain ⟨hpost, hget⟩ := select_files hr
  have hnowhere : Steady routes [] filesLayout ⟨.get, [], 11, [], []⟩ := by
    intro location f hs
    have hlen := length_of_select hs
    have hempty : location = [] := List.length_eq_zero_iff.mp (Nat.le_zero.mp hlen)
    have hls : locations filesConfig =
        [("/static".toList, .static "data".toList), ("/api".toList, .api "data".toList)] := by decide
    have hlook := (select_eq_some_iff.mp hs).2
    rw [hempty, lookup_routes hr, hls] at hlook
    cases hlook
  let is : List (Visit routes nothingOutside [] filesLayout × Response) :=
    [(.object _ _ _ _ hpost, {}), (.steady _ hnowhere, {}),
      (.download _ _ 1 _ _ _ ⟨rfl, rfl, rfl⟩ rfl hget, {})]
  have hroom : Along serveVisit HasNumber h'.memory is :=
    ⟨hasNumber_files hr, fun _ _ _ => ⟨trivial, fun _ _ _ => ⟨trivial, fun _ _ _ => trivial⟩⟩⟩
  obtain ⟨hR, hsite, -⟩ := holdsSite_started sound_filesLayout grounds_filesLayout hr
  obtain ⟨os, m₁, os', m₂, h1, h2, h3⟩ := locations_apart sound_filesLayout hR hsite hroom 1
  exact ⟨routes, h', is, os, os', m₁, m₂, rfl, rfl, h1, h2, h3⟩

end Kachow.Sessions.Started
