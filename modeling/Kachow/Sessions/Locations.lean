import Kachow.Api.Frame
import Kachow.Secure.Stores
import Kachow.Sessions.Exceptions

/-! # The whole server

A server with several locations is a collection of separate ones. Each location of the API has a store,
each location with users a vault, and what the other handlers give out stays as it was at the start
(`Site`). A request changes at most the part of its own location.

This holds as long as the directories of the locations lie apart (`Layout`). Then the server gives the
answers of the site, whatever the requests (`runs_alike`), and each request uses the part of its own
location only (`oneCell_stepSite`). -/

namespace Kachow.Sessions.Locations

open Kachow.Lib.Text Kachow.Lib.Decimal Kachow.Lib.Files Kachow.Lib.Runs Kachow.Boost.Paths
open Kachow.Http.Messages Kachow.Disk Kachow.Api.Ids Kachow.Api.Handler Kachow.Api.Target Kachow.Api.Crud
open Kachow.Api.Objects
open Kachow.Api.StoreStep Kachow.Api.Factory Kachow.Api.Frame Kachow.Handlers.Plain Kachow.Handlers.Refusals
open Kachow.Secure.Handler
open Kachow.Secure.Stores Kachow.Server.Factories Kachow.Server.Routes Kachow.Sessions.Handlers
open Kachow.Sessions.Exceptions

/-! ### The layout -/

/-- What the server stands on: the tree it was started on, the factories by their addresses, the places of
their directories, and the static directories that are those of an API. -/
structure Layout where
  disk : Tree
  kind : ℕ → Option FactoryKind
  place : ℕ → Loc Str
  shows : Str → Option ℕ

/-- The factory has a directory. -/
def Layout.Rooted (L : Layout) (a : ℕ) : Prop := ∃ kind root, L.kind a = some kind ∧ apiRoot kind = some root

/-- Outside the directories. -/
def Layout.Outside (L : Layout) (l : Loc Str) : Prop := ∀ a, L.Rooted a → ¬ L.place a <+: l

/-- The routes lead to the factories. -/
def Layout.Covers (L : Layout) (routes : RouteMap) : Prop :=
  ∀ location f, routes.lookup location = some f → L.kind f.address = some f.kind

/-- The directories lie apart, and their paths are no roots. -/
structure Layout.Sound (L : Layout) (cwd : Loc Str) : Prop where
  apart : ∀ a b, a ≠ b → L.Rooted a → L.Rooted b → ∀ l, ¬ (L.place a <+: l ∧ L.place b <+: l)
  names : ∀ a root, L.kind a = some (.api root) → TakesNames ⟨root⟩
  path : ∀ a root authorizer, L.kind a = some (.secureAPI root authorizer) → root ≠ ['/']
  shown : ∀ root a, L.shows root = some a → TakesNames ⟨root⟩ ∧ (∃ r, L.kind a = some (.api r)) ∧
    Path.locate L.disk cwd ⟨root⟩ = some (L.place a)

/-! ### Requests -/

/-- The path of a file a handler without data of its own is asked for. -/
def askedPath (location : Str) (req : Request) : FactoryKind → Option Path
  | .static root => some (Path.append ⟨root⟩ (req.target.drop location.length))
  | .login root => some (Path.append ⟨root⟩ loginPath)
  | _ => none

section Requests
variable (routes : RouteMap) (out : Outside) (cwd : Loc Str) (L : Layout)

/-- The request goes to no API, and if it asks for a file, this lies outside the directories. -/
def Steady (req : Request) : Prop :=
  ∀ location f, select routes req.target = some (location, f) → apiRoot f.kind = none ∧
    (req.method = .get → ∀ p, askedPath location req f.kind = some p →
      ∃ l, p.locate L.disk cwd = some l ∧ L.Outside l)

/-- A request to the server: to an API, to an API with users, to a static location for an object of an API,
or one whose answer stays the same. -/
inductive Visit where
  | object (location root : Str) (a : ℕ) (r : ObjectRequest)
      (h : select routes (r.toRequest location).target = some (location, ⟨.api root, a⟩))
  | users (location root : Str) (authorizer : Authorizer) (a : ℕ)
      (i : SecureRequest (out.getAuth authorizer) location)
      (h : select routes (i.request.toRequest location).target =
        some (location, ⟨.secureAPI root authorizer, a⟩))
  | download (location root : Str) (a b : ℕ) (r : ObjectRequest) (k : ObjectId)
      (hr : r.method = .get ∧ r.id = some k ∧ r.slash = false) (hs : L.shows root = some a)
      (h : select routes (r.toRequest location).target = some (location, ⟨.static root, b⟩))
  | steady (req : Request) (h : Steady routes cwd L req)

variable {routes out cwd L}

/-- The request itself. -/
def Visit.request : Visit routes out cwd L → Request
  | .object location _ _ r _ => r.toRequest location
  | .users location _ _ _ i _ => i.request.toRequest location
  | .download location _ _ _ r _ _ _ _ => r.toRequest location
  | .steady req _ => req

/-- The address of the factory whose data it uses. -/
def Visit.cell : Visit routes out cwd L → Option ℕ
  | .object _ _ a _ _ | .users _ _ _ a _ _ | .download _ _ a _ _ _ _ _ _ => some a
  | .steady _ _ => none

/-! ### The site -/

/-- What is kept: a store for each API, the stores of the areas for each API with users, and a map for each
of both. -/
structure Site where
  store : ℕ → Store
  areas : ℕ → Area → Store
  ids : ℕ → EntityIdMap

/-- The vault at an address. -/
def Site.vault (v : Site) (a : ℕ) : Vault := ⟨v.areas a, v.ids a⟩

def Site.setStore (v : Site) (a : ℕ) (s : Store) (m : EntityIdMap) : Site :=
  ⟨Function.update v.store a s, v.areas, Function.update v.ids a m⟩

def Site.setVault (v : Site) (a : ℕ) (u : Vault) : Site :=
  ⟨v.store, Function.update v.areas a u.store, Function.update v.ids a u.ids⟩

/-- **The step**: the store or the vault of the location takes it, and what is steady is answered as at
the start. -/
def stepSite (i : Visit routes out cwd L × Response) : EStateM Fault Site (Bool × Response) := fun v =>
  match i.1 with
  | .object _ _ a r _ =>
    match respond (v.store a) (v.ids a) r i.2 with
    | .ok (o, s, m) => .ok o (v.setStore a s m)
    | .error f => .error f v
  | .users _ _ _ a r _ =>
    match vaultStep (v.vault a) r i.2 with
    | .ok (o, u) => .ok o (v.setVault a u)
    | .error f => .error f v
  | .download _ _ a _ r k _ _ _ =>
    match (v.store a).content r.entity k.number with
    | some b => .ok (true, i.2.fill 200 objectType b) v
    | none => .ok (false, setNotfoundRequest i.2) v
  | .steady req _ =>
    match (answer routes out (realFileSystem cwd) req i.2).run ⟨L.disk, fun _ => ∅⟩ with
    | .ok o _ => .ok o v
    | .error f _ => .error f v

/-- The step of the server. -/
def serveVisit (i : Visit routes out cwd L × Response) : EStateM Fault (Memory Tree) (Bool × Response) :=
  answer routes out (realFileSystem cwd) i.1.request i.2

end Requests

/-! ### The server holds the site -/

/-- The files and the maps of the server are those of the site. -/
structure HoldsSite (cwd : Loc Str) (L : Layout) (m : Memory Tree) (v : Site) : Prop where
  api : ∀ a root, L.kind a = some (.api root) → OnDisk ⟨root⟩ cwd (L.place a) m.disk (v.store a)
  keyed : ∀ a root, L.kind a = some (.api root) →
    ∀ e, (v.store a).made e = true → (v.ids a).lookup e ≠ none
  users : ∀ a root authorizer, L.kind a = some (.secureAPI root authorizer) →
    HoldsVault root cwd (L.place a) ⟨m.disk, v.ids a⟩ (v.vault a)
  ids : m.entityIdMaps = v.ids
  dirs : ∀ l, L.disk.isDir l = true → m.disk.isDir l = true
  rest : ∀ l, L.Outside l → m.disk.node l = L.disk.node l

/-- What lies below `B` is the same in both trees, and no directory is missing in the second. -/
structure SameBelow (B : Loc Str) (t t' : Tree) : Prop where
  node : ∀ l, B <+: l → t'.node l = t.node l
  dirs : ∀ l, t.isDir l = true → t'.isDir l = true

theorem OnDisk.of_sameBelow {base : Path} {cwd B : Loc Str} {t t' : Tree} {s : Store}
    (h : OnDisk base cwd B t s) (hs : SameBelow B t t') : OnDisk base cwd B t' s where
  base := path_locate_mono hs.dirs h.base
  dir := hs.dirs _ h.dir
  entity e := by
    rw [hs.node _ (List.prefix_append _ _)]
    exact h.entity e
  object e k h1 h2 := by
    rw [hs.node _ (by rw [List.append_assoc]; exact List.prefix_append _ _)]
    exact h.object e k h1 h2

theorem HoldsVault.of_sameBelow {dataPath : Str} {cwd D : Loc Str} {t t' : Tree} {m : EntityIdMap} {v : Vault}
    (h : HoldsVault dataPath cwd D ⟨t, m⟩ v) (hs : SameBelow D t t') :
    HoldsVault dataPath cwd D ⟨t', m⟩ v where
  base := path_locate_mono hs.dirs h.base
  dir := hs.dirs _ h.dir
  area a := by
    rcases h.area a with ha | ⟨hn, he⟩
    · exact Or.inl (OnDisk.of_sameBelow ha
        ⟨fun l hl => hs.node l ((List.prefix_append _ _).trans hl), hs.dirs⟩)
    · refine Or.inr ⟨?_, he⟩
      rw [hs.node _ (List.prefix_append _ _)]
      exact hn
  ids := h.ids
  keyed := h.keyed

/-! ### One request -/

section Step
variable {routes : RouteMap} {out : Outside} {cwd : Loc Str} {L : Layout} {m : Memory Tree} {v : Site}

/-- **Frame.** A request that changes the tree in the directory of `a` only leaves the other directories
alone, and what is outside. -/
theorem HoldsSite.frame (h : HoldsSite cwd L m v) (hL : L.Sound cwd) {a : ℕ} (ha : L.Rooted a)
    {t : Tree} (hnode : ∀ l, ¬ L.place a <+: l → t.node l = m.disk.node l)
    (hdirs : ∀ l, m.disk.isDir l = true → t.isDir l = true) :
    (∀ b, b ≠ a → L.Rooted b → SameBelow (L.place b) m.disk t) ∧
      (∀ l, L.disk.isDir l = true → t.isDir l = true) ∧
      ∀ l, L.Outside l → t.node l = L.disk.node l := by
  refine ⟨fun b hb hroot => ⟨fun l hl => hnode l fun hla => ?_, hdirs⟩, fun l hl => hdirs l (h.dirs l hl),
    fun l hl => ?_⟩
  · exact hL.apart b a hb hroot ha l ⟨hl, hla⟩
  · rw [hnode l (hl a ha), h.rest l hl]

/-- The API at `a` has answered. -/
theorem HoldsSite.setStore (h : HoldsSite cwd L m v) (hL : L.Sound cwd) {a : ℕ} {root : Str}
    (ha : L.kind a = some (.api root)) {t : Tree} {s : Store} {ids : EntityIdMap}
    (hnode : ∀ l, ¬ L.place a <+: l → t.node l = m.disk.node l)
    (hdirs : ∀ l, m.disk.isDir l = true → t.isDir l = true) (hd : OnDisk ⟨root⟩ cwd (L.place a) t s)
    (hk : ∀ e, s.made e = true → ids.lookup e ≠ none) :
    HoldsSite cwd L ⟨t, Function.update m.entityIdMaps a ids⟩ (v.setStore a s ids) := by
  obtain ⟨hother, hstart, hrest⟩ := h.frame hL ⟨_, root, ha, rfl⟩ hnode hdirs
  refine ⟨fun b root' hb => ?_, fun b root' hb => ?_, fun b root' authorizer hb => ?_, ?_, hstart, hrest⟩
  · by_cases hba : b = a
    · subst hba
      obtain rfl : root = root' := by
        rw [ha] at hb
        cases hb
        rfl
      simp only [Site.setStore, Function.update_self]
      exact hd
    · simp only [Site.setStore, Function.update_of_ne hba]
      exact OnDisk.of_sameBelow (h.api b root' hb) (hother b hba ⟨_, root', hb, rfl⟩)
  · by_cases hba : b = a
    · subst hba
      simp only [Site.setStore, Function.update_self]
      exact hk
    · simp only [Site.setStore, Function.update_of_ne hba]
      exact h.keyed b root' hb
  · have hba : b ≠ a := by
      rintro rfl
      rw [ha] at hb
      cases hb
    have hv := HoldsVault.of_sameBelow (h.users b root' authorizer hb) (hother b hba ⟨_, root', hb, rfl⟩)
    simpa only [Site.setStore, Site.vault, Function.update_of_ne hba] using hv
  · rw [h.ids]
    rfl

/-- The API with users at `a` has answered. -/
theorem HoldsSite.setVault (h : HoldsSite cwd L m v) (hL : L.Sound cwd) {a : ℕ} {root : Str}
    {authorizer : Authorizer} (ha : L.kind a = some (.secureAPI root authorizer)) {w : World Tree} {u : Vault}
    (hnode : ∀ l, ¬ L.place a <+: l → w.disk.node l = m.disk.node l)
    (hdirs : ∀ l, m.disk.isDir l = true → w.disk.isDir l = true)
    (hu : HoldsVault root cwd (L.place a) w u) :
    HoldsSite cwd L ⟨w.disk, Function.update m.entityIdMaps a w.entityIdMap⟩ (v.setVault a u) := by
  obtain ⟨hother, hstart, hrest⟩ := h.frame hL ⟨_, root, ha, rfl⟩ hnode hdirs
  refine ⟨fun b root' hb => ?_, fun b root' hb => ?_, fun b root' authorizer' hb => ?_, ?_, hstart, hrest⟩
  · have hba : b ≠ a := by
      rintro rfl
      rw [ha] at hb
      cases hb
    exact OnDisk.of_sameBelow (h.api b root' hb) (hother b hba ⟨_, root', hb, rfl⟩)
  · have hba : b ≠ a := by
      rintro rfl
      rw [ha] at hb
      cases hb
    simp only [Site.setVault, Function.update_of_ne hba]
    exact h.keyed b root' hb
  · by_cases hba : b = a
    · subst hba
      obtain ⟨rfl, -⟩ : root = root' ∧ authorizer = authorizer' := by
        rw [ha] at hb
        cases hb
        exact ⟨rfl, rfl⟩
      obtain ⟨t, ids⟩ := w
      obtain rfl : ids = u.ids := hu.ids
      simp only [Site.setVault, Site.vault, Function.update_self]
      exact hu
    · have hv := HoldsVault.of_sameBelow (h.users b root' authorizer' hb) (hother b hba ⟨_, root', hb, rfl⟩)
      simpa only [Site.setVault, Site.vault, Function.update_of_ne hba] using hv
  · rw [h.ids, hu.ids]
    rfl

/-- What the routes lead to. -/
theorem kind_of_select (hR : L.Covers routes) {target location : Str} {f : RequestHandlerFactory}
    (hs : select routes target = some (location, f)) : L.kind f.address = some f.kind :=
  hR location f (select_eq_some_iff.mp hs).2

theorem run_answer {req : Request} {res : Response} {location : Str} {f : RequestHandlerFactory}
    (hs : select routes req.target = some (location, f)) :
    (answer routes out (realFileSystem cwd) req res).run m =
      (f.serve out (realFileSystem cwd) location req res).run m := by
  unfold answer
  rw [hs]

/-- The API answers as its store does. -/
theorem run_object (hL : L.Sound cwd) (hR : L.Covers routes) (h : HoldsSite cwd L m v)
    {location root : Str} {a : ℕ} {r : ObjectRequest}
    (hs : select routes (r.toRequest location).target = some (location, ⟨.api root, a⟩))
    {res : Response} {o : Bool × Response} {s : Store} {ids : EntityIdMap}
    (hr : respond (v.store a) (v.ids a) r res = .ok (o, s, ids)) :
    ∃ m', (answer routes out (realFileSystem cwd) (r.toRequest location) res).run m = .ok o m' ∧
      HoldsSite cwd L m' (v.setStore a s ids) := by
  have ha : L.kind a = some (.api root) := kind_of_select hR hs
  rw [← h.ids] at hr
  obtain ⟨t, hrun, hd, htouch⟩ := @run_respond ⟨⟨root⟩, location.length⟩ cwd (L.place a) location
    ⟨m.disk, m.entityIdMaps a⟩ _ rfl (hL.names a root ha) (h.api a root ha) r res o s ids hr
  refine ⟨⟨t, Function.update m.entityIdMaps a ids⟩, ?_, h.setStore hL ha (fun l hl => ?_) htouch.dirs hd
    fun e he => ?_⟩
  · rw [run_answer hs]
    unfold RequestHandlerFactory.serve
    simp only [run_onMap, hrun]
  · rcases htouch.node l with hsame | rfl | ⟨k, rfl⟩
    · exact hsame
    · exact absurd (List.prefix_append _ _) hl
    · exact absurd (by rw [List.append_assoc]; exact List.prefix_append _ _) hl
  · refine (change_respond hr).key_of_made (fun x hm => ?_) he
    rw [h.ids]
    exact h.keyed a root ha x hm

/-- The API with users answers as its vault does. -/
theorem run_users (hL : L.Sound cwd) (hR : L.Covers routes) (h : HoldsSite cwd L m v)
    {location root : Str} {a : ℕ} {authorizer : Authorizer} {i : SecureRequest (out.getAuth authorizer) location}
    (hs : select routes (i.request.toRequest location).target =
      some (location, ⟨.secureAPI root authorizer, a⟩)) {res : Response} {o : Bool × Response} {u : Vault}
    (hr : vaultStep (v.vault a) i res = .ok (o, u)) :
    ∃ m', (answer routes out (realFileSystem cwd) (i.request.toRequest location) res).run m = .ok o m' ∧
      HoldsSite cwd L m' (v.setVault a u) := by
  have ha : L.kind a = some (.secureAPI root authorizer) := kind_of_select hR hs
  have hv := h.users a root authorizer ha
  rw [← h.ids] at hv
  obtain ⟨w, hrun, hu, hnode⟩ := run_serveVault (hL.path a root authorizer ha) hv (i, res) hr
  refine ⟨⟨w.disk, Function.update m.entityIdMaps a w.entityIdMap⟩, ?_, h.setVault hL ha (fun l hl => ?_)
    (fun l hl => ?_) hu⟩
  · rw [run_answer hs]
    unfold RequestHandlerFactory.serve
    have hserve : (serveSecure root location.length (out.getAuth authorizer) (realFileSystem cwd)
      (i.request.toRequest location) res).run ⟨m.disk, m.entityIdMaps a⟩ = .ok o w := hrun
    simp only [run_onMap, hserve]
  · rcases hnode l with hsame | ⟨b, hin⟩
    · exact hsame
    · refine absurd ?_ hl
      rcases hin with rfl | ⟨e, rfl | ⟨k, rfl⟩⟩
      · exact List.prefix_append _ _
      · rw [List.append_assoc]
        exact List.prefix_append _ _
      · simp only [List.append_assoc]
        exact List.prefix_append _ _
  · exact @isDir_serveSecure (fun _ _ => false) root location.length _ cwd _ res _ _ _
      ⟨L.place a, hv.base, hv.dir⟩ hrun l hl

/-- A static location on the directory of an API gives out its objects. -/
theorem run_download (hL : L.Sound cwd) (h : HoldsSite cwd L m v) {location root : Str} {a b : ℕ}
    {r : ObjectRequest} {k : ObjectId} (hr : r.method = .get ∧ r.id = some k ∧ r.slash = false)
    (hshow : L.shows root = some a)
    (hs : select routes (r.toRequest location).target = some (location, ⟨.static root, b⟩))
    (res : Response) : (answer routes out (realFileSystem cwd) (r.toRequest location) res).run m =
      match (v.store a).content r.entity k.number with
      | some body => .ok (true, res.fill 200 objectType body) m
      | none => .ok (false, setNotfoundRequest res) m := by
  obtain ⟨hb, ⟨root', ha⟩, hl⟩ := hL.shown root a hshow
  obtain ⟨hget, hid, hslash⟩ := hr
  have hplace := h.api a root' ha
  have hd : OnDisk ⟨root⟩ cwd (L.place a) m.disk (v.store a) :=
    ⟨path_locate_mono h.dirs hl, hplace.dir, hplace.entity, hplace.object⟩
  have hlen : location.length ≤ (r.toRequest location).target.length := by
    simp [ObjectRequest.toRequest]
  have hdrop : (r.toRequest location).target.drop location.length =
      '/' :: r.entity ++ '/' :: intToString k.number := by
    simp [ObjectRequest.toRequest, hid, hslash, idPart, slashIf]
  have hpath : Path.append ⟨root⟩ ('/' :: r.entity ++ '/' :: intToString k.number) =
      objectPath ⟨root⟩ r.entity k.number := by
    rw [List.cons_append, append_slash]
    unfold objectPath
    simp
  have hmethod : (r.toRequest location).method = .get := hget
  rw [run_answer hs]
  unfold RequestHandlerFactory.serve RequestHandlerStatic.getResponse
  simp only [run_onFiles, hmethod, substr, if_pos hlen, hdrop, hpath, run_serveFile,
    hd.isFileAt_object k r.isName]
  cases hc : (v.store a).content r.entity k.number with
  | none => simp
  | some body =>
    simp only [Option.isSome_some, if_true, hd.readAt_object k r.isName hc]
    rw [extension_object hb r.isName]
    rfl

/-- A file outside the directories is as it was. -/
theorem run_serveFile_outside (h : HoldsSite cwd L m v) {p : Path} {l : Loc Str}
    (hl : p.locate L.disk cwd = some l) (ho : L.Outside l) (res : Response) : ∃ o,
      (serveFile (realFileSystem cwd) res p).run m.disk = .ok o m.disk ∧
      (serveFile (realFileSystem cwd) res p).run L.disk = .ok o L.disk := by
  have hl' : p.locate m.disk cwd = some l := path_locate_mono h.dirs hl
  have hfile : m.disk.isFile l = L.disk.isFile l := by
    unfold FileTree.isFile
    rw [h.rest l ho]
  have hread : m.disk.read l = L.disk.read l := by
    unfold FileTree.read
    rw [h.rest l ho]
  simp only [run_serveFile, existsAt_of_locate hl, existsAt_of_locate hl', isFileAt_of_locate hl,
    isFileAt_of_locate hl', readAt_of_locate hl, readAt_of_locate hl', h.rest l ho, hfile, hread]
  split_ifs
  · exact ⟨_, rfl, rfl⟩
  · exact ⟨_, rfl, rfl⟩

/-- The handlers of files refuse any other method without a look at the files. -/
theorem getResponse_of_not_get {σ : Type} {file : FileSystem σ} {req : Request} (hm : req.method ≠ .get)
    (res : Response) : (∀ hd, RequestHandlerStatic.getResponse file req res hd =
        pure (false, refuse res req.method)) ∧
      ∀ hd, RequestHandlerLogin.getResponse file req res hd = pure (false, refuse res req.method) := by
  refine ⟨fun hd => ?_, fun hd => ?_⟩
  · unfold RequestHandlerStatic.getResponse
    split
    · next heq => exact absurd heq hm
    · rfl
  · unfold RequestHandlerLogin.getResponse
    split
    · next heq => exact absurd heq hm
    · rfl

/-- What goes to no API is answered as at the start. -/
theorem run_steady (h : HoldsSite cwd L m v) {req : Request} (hst : Steady routes cwd L req)
    (res : Response) : ∃ o, (answer routes out (realFileSystem cwd) req res).run m = .ok o m ∧
      (answer routes out (realFileSystem cwd) req res).run ⟨L.disk, fun _ => ∅⟩ =
        .ok o ⟨L.disk, fun _ => ∅⟩ := by
  cases hs : select routes req.target with
  | none =>
    unfold answer
    rw [hs]
    exact ⟨_, rfl, rfl⟩
  | some p =>
    obtain ⟨location, kind, address⟩ := p
    obtain ⟨hnone, hpath⟩ := hst location _ hs
    rw [run_answer hs, run_answer hs]
    -- a file is looked up in both trees
    have hfiles : ∀ p, askedPath location req kind = some p → req.method = .get → ∃ o,
        (onFiles (serveFile (realFileSystem cwd) res p)).run m = .ok o m ∧
        (onFiles (serveFile (realFileSystem cwd) res p)).run ⟨L.disk, fun _ => ∅⟩ =
          .ok o ⟨L.disk, fun _ => ∅⟩ := by
      intro p hp hget
      obtain ⟨l, hl, ho⟩ := hpath hget p hp
      obtain ⟨o, h1, h2⟩ := run_serveFile_outside h hl ho res
      exact ⟨o, by rw [run_onFiles, h1], by rw [run_onFiles, h2]⟩
    unfold RequestHandlerFactory.serve
    cases kind with
    | api root => cases hnone
    | secureAPI root authorizer => cases hnone
    | static root =>
      by_cases hget : req.method = .get
      · unfold RequestHandlerStatic.getResponse
        simp only [hget, substr, if_pos (length_of_select hs)]
        exact hfiles _ rfl hget
      · simp only [(getResponse_of_not_get hget res).1]
        exact ⟨_, rfl, rfl⟩
    | login root =>
      by_cases hget : req.method = .get
      · unfold RequestHandlerLogin.getResponse
        simp only [hget]
        exact hfiles _ rfl hget
      · simp only [(getResponse_of_not_get hget res).2]
        exact ⟨_, rfl, rfl⟩
    | _ => exact ⟨_, rfl, rfl⟩

end Step

/-! ### Runs -/

section Runs
variable {routes : RouteMap} {out : Outside} {cwd : Loc Str} {L : Layout} {m : Memory Tree} {v : Site}

/-- **One request** is answered as on the site, and leaves what it leaves there. -/
theorem run_visit (hL : L.Sound cwd) (hR : L.Covers routes) (h : HoldsSite cwd L m v)
    {i : Visit routes out cwd L × Response} {o : Bool × Response} {v' : Site}
    (hstep : (stepSite i).run v = .ok o v') :
    ∃ m', (serveVisit i).run m = .ok o m' ∧ HoldsSite cwd L m' v' := by
  obtain ⟨i, res⟩ := i
  unfold stepSite EStateM.run at hstep
  cases i with
  | object location root a r hs =>
    simp only at hstep
    split at hstep
    · next heq =>
      cases hstep
      exact run_object hL hR h hs heq
    · cases hstep
  | users location root authorizer a r hs =>
    simp only at hstep
    split at hstep
    · next heq =>
      cases hstep
      exact run_users hL hR h hs heq
    · cases hstep
  | download location root a b r k hr hshow hs =>
    have hrun := @run_download routes out cwd L m v hL h location root a b r k hr hshow hs res
    simp only at hstep
    split at hstep
    · next body heq =>
      cases hstep
      rw [heq] at hrun
      exact ⟨m, hrun, h⟩
    · next heq =>
      cases hstep
      rw [heq] at hrun
      exact ⟨m, hrun, h⟩
  | steady req hst =>
    obtain ⟨o', hrun, hstart⟩ := @run_steady routes out cwd L m v h req hst res
    unfold EStateM.run at hstart
    simp only [hstart] at hstep
    cases hstep
    exact ⟨m, hrun, h⟩

/-- A `POST` finds a number that is free. -/
def HasNumber (m : Memory Tree) (i : Visit routes out cwd L × Response) : Prop :=
  match i.1 with
  | .object _ _ a r _ => r.method = .post → r.id = none → HasRoom (m.entityIdMaps a) r.entity
  | .users _ _ _ a r _ => Room ⟨m.disk, m.entityIdMaps a⟩ (r, i.2)
  | .download _ _ _ _ _ _ _ _ _ | .steady _ _ => True

/-- **Every request is answered**, if there are numbers left. -/
theorem exists_stepSite (hR : L.Covers routes) (h : HoldsSite cwd L m v)
    {i : Visit routes out cwd L × Response} (hi : HasNumber m i) :
    ∃ o v', (stepSite i).run v = .ok o v' := by
  obtain ⟨i, res⟩ := i
  unfold stepSite EStateM.run
  cases i with
  | object location root a r hs =>
    have ha : L.kind a = some (.api root) := kind_of_select hR hs
    have hroom : r.method = .post → r.id = none → HasRoom (v.ids a) r.entity := by
      rw [← h.ids]
      exact hi
    obtain ⟨⟨o, s, ids⟩, hr⟩ := @exists_respond (v.store a) (v.ids a) r res (h.keyed a root ha _) hroom
    exact ⟨o, v.setStore a s ids, by simp only [hr]⟩
  | users location root authorizer a r hs =>
    have hv := h.users a root authorizer (kind_of_select hR hs)
    rw [← h.ids] at hv
    obtain ⟨o, u, hu⟩ := exists_vaultStep (i := (r, res)) hv hi
    exact ⟨o, v.setVault a u, by simp only [hu]⟩
  | download location root a b r k hr hshow hs =>
    simp only
    cases (v.store a).content r.entity k.number with
    | some body => exact ⟨_, _, rfl⟩
    | none => exact ⟨_, _, rfl⟩
  | steady req hst =>
    obtain ⟨o, -, hstart⟩ := @run_steady routes out cwd L m v h req hst res
    unfold EStateM.run at hstart
    exact ⟨o, v, by simp only [hstart]⟩

/-- A run of requests gives the same answers on the server and on the site it holds. -/
theorem runs_alike (hL : L.Sound cwd) (hR : L.Covers routes) (h : HoldsSite cwd L m v)
    {is : List (Visit routes out cwd L × Response)} (hroom : Along serveVisit HasNumber m is) :
    ∃ os m' v', (runAll serveVisit is).run m = .ok os m' ∧ (runAll stepSite is).run v = .ok os v' ∧
      HoldsSite cwd L m' v' := by
  refine lockstep (fun m v i h hi => ?_) h hroom
  obtain ⟨o, v', hstep⟩ := exists_stepSite hR h hi
  obtain ⟨m', hrun, h'⟩ := run_visit hL hR h hstep
  exact ⟨o, m', v', hrun, hstep, h'⟩

/-- A run of the site is one of the server. -/
theorem run_of_site (hL : L.Sound cwd) (hR : L.Covers routes) (h : HoldsSite cwd L m v)
    {is : List (Visit routes out cwd L × Response)} {os : List (Bool × Response)} {v' : Site}
    (hsite : (runAll stepSite is).run v = .ok os v') :
    ∃ m', (runAll serveVisit is).run m = .ok os m' ∧ HoldsSite cwd L m' v' := by
  have hstep : ∀ (v : Site) (m : Memory Tree) (i : Visit routes out cwd L × Response), HoldsSite cwd L m v →
      (∃ o v', (stepSite i).run v = .ok o v') → ∃ o v' m', (stepSite i).run v = .ok o v' ∧
        (serveVisit i).run m = .ok o m' ∧ HoldsSite cwd L m' v' := by
    rintro v m i hv ⟨o, v', hi⟩
    obtain ⟨m', hm, hv'⟩ := run_visit hL hR hv hi
    exact ⟨o, v', m', hi, hm, hv'⟩
  obtain ⟨os₂, v₂, m', h2, hrun, hv⟩ := lockstep hstep h (along_of_run hsite)
  rw [hsite] at h2
  cases h2
  exact ⟨m', hrun, hv⟩

/-! ### One location -/

/-- Two sites keep the same at the address `a`. -/
def SameAt (a : ℕ) (v v' : Site) : Prop :=
  v.store a = v'.store a ∧ v.areas a = v'.areas a ∧ v.ids a = v'.ids a

theorem equivalence_sameAt (a : ℕ) : Equivalence (SameAt a) where
  refl _ := ⟨rfl, rfl, rfl⟩
  symm h := ⟨h.1.symm, h.2.1.symm, h.2.2.symm⟩
  trans h h' := ⟨h.1.trans h'.1, h.2.1.trans h'.2.1, h.2.2.trans h'.2.2⟩

theorem SameAt.setStore {a b : ℕ} {v v' : Site} {s : Store} {ids : EntityIdMap} (h : SameAt b v v') :
    SameAt b (v.setStore a s ids) (v'.setStore a s ids) := by
  obtain ⟨h1, h2, h3⟩ := h
  by_cases hb : b = a
  · subst hb
    simp [SameAt, Site.setStore, h2]
  · simp [SameAt, Site.setStore, hb, h1, h2, h3]

theorem SameAt.setVault {a b : ℕ} {v v' : Site} {u : Vault} (h : SameAt b v v') :
    SameAt b (v.setVault a u) (v'.setVault a u) := by
  obtain ⟨h1, h2, h3⟩ := h
  by_cases hb : b = a
  · subst hb
    simp [SameAt, Site.setVault, h1]
  · simp [SameAt, Site.setVault, hb, h1, h2, h3]

/-- A change at `a` is one at `a` only. -/
theorem sameAt_set {a b : ℕ} (hb : a ≠ b) (v : Site) : (∀ s ids, SameAt b v (v.setStore a s ids)) ∧
    ∀ u, SameAt b v (v.setVault a u) := by
  refine ⟨fun s ids => ?_, fun u => ?_⟩
  · simp [SameAt, Site.setStore, hb.symm]
  · simp [SameAt, Site.setVault, hb.symm]

/-- How a request is answered, and what it leaves at its own address, depends on what is there. -/
theorem stepSite_congr {i : Visit routes out cwd L × Response} {v v' u : Site} {o : Bool × Response}
    (hsame : ∀ a, i.1.cell = some a → SameAt a v v') (h : (stepSite i).run v = .ok o u) :
    ∃ u', (stepSite i).run v' = .ok o u' ∧ ∀ a, i.1.cell = some a → SameAt a u u' := by
  obtain ⟨i, res⟩ := i
  unfold stepSite EStateM.run at h ⊢
  cases i with
  | object location root a r hs =>
    have hat := hsame a rfl
    simp only at h ⊢
    rw [← hat.1, ← hat.2.2]
    split at h
    · next heq =>
      cases h
      refine ⟨_, rfl, fun b hb => ?_⟩
      cases hb
      exact hat.setStore
    · cases h
  | users location root authorizer a r hs =>
    have hat := hsame a rfl
    have hvault : v'.vault a = v.vault a := by
      unfold Site.vault
      rw [hat.2.1, hat.2.2]
    simp only at h ⊢
    rw [hvault]
    split at h
    · next heq =>
      cases h
      refine ⟨_, rfl, fun b hb => ?_⟩
      cases hb
      exact hat.setVault
    · cases h
  | download location root a b r k hr hshow hs =>
    have hat := hsame a rfl
    simp only at h ⊢
    rw [← hat.1]
    split at h
    · cases h
      exact ⟨v', rfl, fun b hb => by cases hb; exact hat⟩
    · cases h
      exact ⟨v', rfl, fun b hb => by cases hb; exact hat⟩
  | steady req hst =>
    simp only at h ⊢
    split at h
    · cases h
      exact ⟨v', rfl, fun b hb => by cases hb⟩
    · cases h

/-- **A request uses one cell**, that of its location. -/
theorem oneCell_stepSite : OneCell (@stepSite routes out cwd L) SameAt (fun i => i.1.cell) where
  equiv := equivalence_sameAt
  frame := by
    rintro ⟨i, res⟩ v o v' b hrun hb
    unfold stepSite EStateM.run at hrun
    cases i with
    | object location root a r hs =>
      have hab : a ≠ b := fun he => hb (congrArg some he)
      simp only at hrun
      split at hrun
      · cases hrun
        exact (sameAt_set hab v).1 _ _
      · cases hrun
    | users location root authorizer a r hs =>
      have hab : a ≠ b := fun he => hb (congrArg some he)
      simp only at hrun
      split at hrun
      · cases hrun
        exact (sameAt_set hab v).2 _
      · cases hrun
    | download location root a b r k hr hshow hs =>
      simp only at hrun
      split at hrun
      · cases hrun
        exact (equivalence_sameAt _).refl v
      · cases hrun
        exact (equivalence_sameAt _).refl v
    | steady req hst =>
      simp only at hrun
      split at hrun
      · cases hrun
        exact (equivalence_sameAt _).refl v
      · cases hrun
  agree := by
    intro i v w o o' v' w' hsame hrun hrun'
    obtain ⟨u, hu, hcell⟩ := stepSite_congr hsame hrun
    rw [hrun'] at hu
    cases hu
    exact ⟨rfl, hcell⟩

/-- The requests that use what is kept at `a`. -/
def At (a : ℕ) (i : Visit routes out cwd L × Response) : Bool := i.1.cell = some a

end Runs

end Kachow.Sessions.Locations
