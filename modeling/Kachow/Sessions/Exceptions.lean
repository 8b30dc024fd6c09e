import Kachow.Handlers.Refusals
import Kachow.Sessions.Routing

/-! # Requests that raise an exception

Nothing catches an exception of a handler, so it ends the server. The target a handler gets begins with
its location (`matchIn_isPrefix`), and every number is read inside a `try`; what is left are the calls of
the file system.

The root directories of the two kinds of API are there once the server has started, and no request
removes one (`Rooted`). So a request raises no exception exactly if none of the calls is refused that its
handler makes, and the directory of the private or of the public users is no file where a directory has
to be made in it (`no_exception_iff`). -/

namespace Kachow.Sessions.Exceptions

open Kachow.Lib.Text Kachow.Lib.Files Kachow.Lib.Runs Kachow.Boost.Paths Kachow.Http.Messages
open Kachow.Disk Kachow.Api.Handler Kachow.Api.Factory Kachow.Handlers.Plain Kachow.Handlers.Refusals
open Kachow.Secure.Handler Kachow.Server.Factories Kachow.Server.Routes Kachow.Sessions.Handlers
open Kachow.Sessions.Routing
open Kachow.Config.Parser (NginxConfig NginxConfigStatement)

/-! ### The location -/

/-- The target begins with its location, however the locations are scanned. -/
theorem matchIn_isPrefix (ls : List Str) (url : Str) : matchIn ls url <+: url := by
  have hfold : ∀ (ls : List Str) (best : ℤ × Str), best.2 <+: url →
      (ls.foldl (matchStep url) best).2 <+: url := by
    intro ls
    induction ls with
    | nil => exact fun _ hb => hb
    | cons l ls ih =>
      intro best hb
      refine ih _ ?_
      unfold matchStep
      simp only
      split_ifs
      · exact List.take_prefix _ _
      · exact hb
  exact hfold ls (0, []) List.nil_prefix

theorem select_eq_some_iff {routes : RouteMap} {url location : Str} {f : RequestHandlerFactory} :
    select routes url = some (location, f) ↔
      matchLocation routes url = location ∧ routes.lookup location = some f := by
  unfold select
  simp only [Option.map_eq_some_iff, Prod.mk.injEq]
  constructor
  · rintro ⟨g, hg, rfl, rfl⟩
    exact ⟨rfl, hg⟩
  · rintro ⟨rfl, hf⟩
    exact ⟨f, hf, rfl, rfl⟩

/-- **The prefix is in range.** -/
theorem length_of_select {routes : RouteMap} {url location : Str} {f : RequestHandlerFactory}
    (h : select routes url = some (location, f)) : location.length ≤ url.length := by
  obtain ⟨rfl, -⟩ := select_eq_some_iff.mp h
  exact (matchIn_isPrefix _ url).length_le

/-! ### The root directories -/

/-- The root directories of the routes are there. -/
def Rooted (cwd : Loc Str) (routes : RouteMap) (m : Memory Tree) : Prop :=
  ∀ location f root, routes.lookup location = some f → apiRoot f.kind = some root →
    LeadsToDir cwd m.disk ⟨root⟩

theorem Rooted.mono {cwd : Loc Str} {routes : RouteMap} {m m' : Memory Tree}
    (h : Rooted cwd routes m) (hd : ∀ l, m.disk.isDir l = true → m'.disk.isDir l = true) :
    Rooted cwd routes m' :=
  fun location f root hf hroot => (h location f root hf hroot).mono hd

section Start
variable {it : DirectoryIterator} {cwd : Loc Str}

/-- A directory that has been scanned is there, and so are all that were there before. -/
theorem leadsToDir_scanFS {p : Path} {w w' : World Tree} {b : Bool}
    (h : (scanFS it cwd p).run w = .ok b w') :
    LeadsToDir cwd w'.disk p ∧ ∀ l, w.disk.isDir l = true → w'.disk.isDir l = true := by
  unfold scanFS at h
  rw [EStateM.run_bind, run_exists] at h
  cases hex : existsAt cwd w.disk p with
  | true =>
    simp only [hex, Bool.not_true, Bool.false_eq_true, if_false] at h
    unfold scanDirectory EStateM.run at h
    cases hl : p.locate w.disk cwd with
    | none => simp [hl] at h
    | some l =>
      simp only [hl] at h
      split_ifs at h with hd
      cases h
      exact ⟨⟨l, hl, hd⟩, fun _ => id⟩
  | false =>
    simp only [hex, Bool.not_false, if_true, EStateM.run_bind, run_createDirectory] at h
    cases hm : mkdirAt cwd w.disk p with
    | none => simp [hm] at h
    | some c =>
      simp only [hm] at h
      cases h
      obtain ⟨l, hl, hmk⟩ := locateNew_of_mkdirAt hm
      have hdir : c.2.isDir l = true := by
        rw [FileTree.isDir_iff, FileTree.node_mkdir hmk, if_pos rfl]
      have hl' := locateNew_mono (fun _ => isDir_mkdirAt hm) hl
      exact ⟨⟨l, locate_of_locateNew hl' hdir, hdir⟩, fun _ => isDir_mkdirAt hm⟩

/-- A new factory has its root directory, and the others keep theirs. -/
theorem rooted_newFactory {kind : FactoryKind} {s s' : Heap} {f : RequestHandlerFactory}
    (h : (newFactory it cwd kind).run s = .ok f s') :
    f.kind = kind ∧ (∀ root, apiRoot kind = some root → LeadsToDir cwd s'.memory.disk ⟨root⟩) ∧
      ∀ l, s.memory.disk.isDir l = true → s'.memory.disk.isDir l = true := by
  have hscan : ∀ {root u t}, (scanRoot it cwd root).run s = .ok u t →
      LeadsToDir cwd t.memory.disk ⟨root⟩ ∧
        ∀ l, s.memory.disk.isDir l = true → t.memory.disk.isDir l = true := by
    intro root u t hr
    unfold scanRoot EStateM.run at hr
    simp only at hr
    split at hr
    · next heq =>
      cases hr
      exact leadsToDir_scanFS heq
    · cases hr
  unfold newFactory at h
  obtain ⟨u, t, hfirst, h⟩ := run_bind_ok h
  cases h
  refine ⟨rfl, ?_⟩
  unfold construct at hfirst
  cases kind with
  | api root =>
    obtain ⟨hr, hd⟩ := hscan hfirst
    refine ⟨fun root' hr' => ?_, hd⟩
    obtain rfl := Option.some.inj hr'
    exact hr
  | secureAPI root authorizer =>
    obtain ⟨hr, hd⟩ := hscan hfirst
    refine ⟨fun root' hr' => ?_, hd⟩
    obtain rfl := Option.some.inj hr'
    exact hr
  | _ =>
    cases hfirst
    exact ⟨fun root hr => absurd hr (by simp [apiRoot]), fun _ => id⟩

theorem rooted_addLocation {routes routes' : RouteMap} {s : NginxConfigStatement} {h h' : Heap}
    (hroot : Rooted cwd routes h.memory)
    (hr : (addLocation it cwd routes s).run h = .ok routes' h') : Rooted cwd routes' h'.memory := by
  unfold addLocation at hr
  obtain ⟨directive, h1, hread, hr1⟩ := run_bind_ok hr
  obtain ⟨-, rfl⟩ := reading_ok hread
  split_ifs at hr1 with hloc
  · obtain ⟨location, h2, hread2, hr2⟩ := run_bind_ok hr1
    obtain ⟨-, rfl⟩ := reading_ok hread2
    obtain ⟨name, h3, hread3, hr3⟩ := run_bind_ok hr2
    obtain ⟨-, rfl⟩ := reading_ok hread3
    obtain ⟨kind, h4, hread4, hr4⟩ := run_bind_ok hr3
    obtain ⟨-, rfl⟩ := reading_ok hread4
    cases kind with
    | none =>
      cases hr4
      exact hroot
    | some kind =>
      obtain ⟨f, h5, hf, hr5⟩ := run_bind_ok hr4
      cases hr5
      obtain ⟨hkind, hnew, hd⟩ := rooted_newFactory hf
      intro l g root hg hgr
      rw [lookup_insertRoute, Option.or_eq_some_iff] at hg
      rcases hg with hg | ⟨-, hg⟩
      · exact (hroot l g root hg hgr).mono hd
      · split_ifs at hg
        obtain rfl := Option.some.inj hg
        exact hnew root (hkind ▸ hgr)
  · cases hr1
    exact hroot

/-- **Once the server has started**, the root directories are there. -/
theorem rooted_generateRoutes {config : NginxConfig} {h h' : Heap} {routes : RouteMap}
    (hr : (generateRoutes it cwd config).run h = .ok routes h') : Rooted cwd routes h'.memory := by
  have hempty : Rooted cwd ∅ h.memory := fun l f root hf => by simp at hf
  have hstep : ∀ routes s (h : Heap) routes' (h' : Heap), Rooted cwd routes h.memory →
      (addServer it cwd routes s).run h = .ok routes' h' → Rooted cwd routes' h'.memory := by
    intro routes s h routes' h' hroot hs
    unfold addServer at hs
    obtain ⟨directive, h1, hread, hs1⟩ := run_bind_ok hs
    obtain ⟨-, rfl⟩ := reading_ok hread
    split_ifs at hs1
    · obtain ⟨block, h2, hread2, hs2⟩ := run_bind_ok hs1
      obtain ⟨-, rfl⟩ := reading_ok hread2
      exact @foldlM_inv _ _ _ _ _ (fun routes (h : Heap) => Rooted cwd routes h.memory)
        (fun _ _ _ _ _ => rooted_addLocation) _ _ _ _ _ hroot hs2
    · cases hs1
      exact hroot
  exact @foldlM_inv _ _ _ _ _ (fun routes (h : Heap) => Rooted cwd routes h.memory) hstep _ _ _ _ _
    hempty hr

end Start

/-! ### One request -/

/-- What a request to a location has to be like, by the kind of its factory. -/
def PassesAt (refuses : RefusedCalls) (out : Outside) (cwd : Loc Str) (m : Memory Tree)
    (req : Request) (location : Str) : FactoryKind → Prop
  | .static root =>
    req.method = .get →
      LooksUp refuses cwd m.disk (Path.append ⟨root⟩ (req.target.drop location.length))
  | .login root => req.method = .get → LooksUp refuses cwd m.disk (Path.append ⟨root⟩ loginPath)
  | .api root => ApiPasses refuses cwd m.disk ⟨⟨root⟩, location.length⟩ True req
  | .secureAPI root authorizer =>
    SecurePasses refuses root location.length (out.getAuth authorizer) cwd m.disk req
  | _ => True

/-- What a request has to be like that raises no exception. -/
def Passes (refuses : RefusedCalls) (out : Outside) (cwd : Loc Str) (routes : RouteMap)
    (m : Memory Tree) (req : Request) : Prop :=
  ∀ location f, select routes req.target = some (location, f) →
    PassesAt refuses out cwd m req location f.kind

section Request
variable {refuses : RefusedCalls} {out : Outside} {cwd : Loc Str} {routes : RouteMap} {req : Request}
  {res : Response} {m m' : Memory Tree} {o : Bool × Response}

theorem run_onFiles (x : EStateM Fault Tree (Bool × Response)) : (onFiles x).run m =
    match x.run m.disk with
    | .ok a d => .ok a ⟨d, m.entityIdMaps⟩
    | .error e d => .error e ⟨d, m.entityIdMaps⟩ := by
  cases hx : x m.disk <;> simp [onFiles, EStateM.run, hx]

theorem run_onMap (address : ℕ) (x : EStateM Fault (World Tree) (Bool × Response)) :
    (onMap address x).run m =
      match x.run ⟨m.disk, m.entityIdMaps address⟩ with
      | .ok a w => .ok a ⟨w.disk, Function.update m.entityIdMaps address w.entityIdMap⟩
      | .error e w => .error e ⟨w.disk, Function.update m.entityIdMaps address w.entityIdMap⟩ := by
  cases hx : x ⟨m.disk, m.entityIdMaps address⟩ <;> simp [onMap, EStateM.run, hx]

/-- An exception leaves a handler where it leaves the server. -/
theorem calm_onFiles {x : EStateM Fault Tree (Bool × Response)} :
    Calm (onFiles x) m ↔ Calm x m.disk := by
  unfold Calm Avoids
  rw [run_onFiles]
  cases x.run m.disk <;> simp

theorem calm_onMap {address : ℕ} {x : EStateM Fault (World Tree) (Bool × Response)} :
    Calm (onMap address x) m ↔ Calm x ⟨m.disk, m.entityIdMaps address⟩ := by
  unfold Calm Avoids
  rw [run_onMap]
  cases x.run ⟨m.disk, m.entityIdMaps address⟩ <;> simp

/-- **When a handler throws no exception.** -/
theorem calm_serve_iff {location : Str} {f : RequestHandlerFactory}
    (hlen : location.length ≤ req.target.length)
    (hroot : ∀ root, apiRoot f.kind = some root → LeadsToDir cwd m.disk ⟨root⟩) :
    Calm (f.serve out (refusing refuses (realFileSystem cwd)) location req res) m ↔
      PassesAt refuses out cwd m req location f.kind := by
  obtain ⟨kind, address⟩ := f
  unfold RequestHandlerFactory.serve PassesAt
  cases kind with
  | static root =>
    simp only [calm_onFiles]
    unfold RequestHandlerStatic.getResponse
    cases hm : req.method
    case get =>
      simp only [substr, if_pos hlen, forall_const]
      exact calm_serveFile_iff _
    all_goals exact iff_of_true (avoids_of_ok rfl) (by simp)
  | login root =>
    simp only [calm_onFiles]
    unfold RequestHandlerLogin.getResponse
    cases hm : req.method
    case get =>
      simp only [forall_const]
      exact calm_serveFile_iff _
    all_goals exact iff_of_true (avoids_of_ok rfl) (by simp)
  | api root =>
    have hdir := hroot root rfl
    simp only [calm_onMap]
    refine (calm_getResponse_iff hdir.existsAt hlen).trans ?_
    simp only [hdir]
  | secureAPI root authorizer =>
    simp only [calm_onMap]
    exact calm_serveSecure_iff (hroot root rfl) hlen
  | _ => exact iff_of_true (avoids_of_ok rfl) trivial

/-- **No handler removes a directory.** -/
theorem isDir_of_serve {location : Str} {f : RequestHandlerFactory}
    (hroot : ∀ root, apiRoot f.kind = some root → LeadsToDir cwd m.disk ⟨root⟩)
    (hrun : (f.serve out (refusing refuses (realFileSystem cwd)) location req res).run m = .ok o m')
    {l : Loc Str} (hl : m.disk.isDir l = true) : m'.disk.isDir l = true := by
  obtain ⟨kind, address⟩ := f
  unfold RequestHandlerFactory.serve at hrun
  cases kind with
  | static root =>
    simp only [run_onFiles] at hrun
    unfold RequestHandlerStatic.getResponse at hrun
    cases hm : req.method
    case get =>
      cases hs : substr req.target location.length with
      | none =>
        simp only [hm, hs] at hrun
        cases hrun
      | some url =>
        simp only [hm, hs] at hrun
        split at hrun
        · next heq =>
          cases hrun
          rwa [← disk_of_serveFile heq]
        · cases hrun
    all_goals
      simp only [hm] at hrun
      cases hrun
      exact hl
  | login root =>
    simp only [run_onFiles] at hrun
    unfold RequestHandlerLogin.getResponse at hrun
    cases hm : req.method
    case get =>
      simp only [hm] at hrun
      split at hrun
      · next heq =>
        cases hrun
        rwa [← disk_of_serveFile heq]
      · cases hrun
    all_goals
      simp only [hm] at hrun
      cases hrun
      exact hl
  | api root =>
    simp only [run_onMap] at hrun
    split at hrun
    · next heq =>
      cases hrun
      exact isDir_getResponse heq hl
    · cases hrun
  | secureAPI root authorizer =>
    simp only [run_onMap] at hrun
    split at hrun
    · next heq =>
      cases hrun
      exact isDir_serveSecure (hroot root rfl) heq hl
    · cases hrun
  | _ =>
    cases hrun
    exact hl

/-- **When a request raises no exception.** -/
theorem calm_answer_iff (hroot : Rooted cwd routes m) :
    Calm (answer routes out (refusing refuses (realFileSystem cwd)) req res) m ↔
      Passes refuses out cwd routes m req := by
  unfold answer Passes
  cases hs : select routes req.target with
  | none => exact iff_of_true (avoids_of_ok rfl) (by simp)
  | some p =>
    obtain ⟨location, f⟩ := p
    have hlook := (select_eq_some_iff.mp hs).2
    refine (calm_serve_iff (length_of_select hs) fun root hr => hroot location f root hlook hr).trans ?_
    simp

/-- The root directories stay where they are. -/
theorem rooted_answer (hroot : Rooted cwd routes m)
    (hrun : (answer routes out (refusing refuses (realFileSystem cwd)) req res).run m = .ok o m') :
    Rooted cwd routes m' := by
  refine hroot.mono fun l hl => ?_
  unfold answer at hrun
  cases hs : select routes req.target with
  | none =>
    rw [hs] at hrun
    cases hrun
    exact hl
  | some p =>
    obtain ⟨location, f⟩ := p
    rw [hs] at hrun
    exact isDir_of_serve (fun root hr => hroot location f root (select_eq_some_iff.mp hs).2 hr) hrun hl

end Request

/-- A request with the response it is to fill in, and the calls that are refused while it is handled. -/
def answerAny (routes : RouteMap) (out : Outside) (cwd : Loc Str)
    (i : Request × Response × RefusedCalls) : EStateM Fault (Memory Tree) (Bool × Response) :=
  answer routes out (refusing i.2.2 (realFileSystem cwd)) i.1 i.2.1

/-- **When a request raises no exception, from the start on.** During each request the operating system
may refuse any calls on any paths. Whatever the configuration, if the server starts, then every request
of every run raises no exception exactly if none of the calls its handler makes is refused, and the
directory of its users is no file where a directory has to be made in it. -/
theorem no_exception_iff {it : DirectoryIterator} {cwd : Loc Str} {config : NginxConfig} {h h' : Heap}
    {routes : RouteMap} (hr : (generateRoutes it cwd config).run h = .ok routes h') (out : Outside)
    (is : List (Request × Response × RefusedCalls)) :
    Along (answerAny routes out cwd)
      (fun m i => Calm (answerAny routes out cwd i) m ↔ Passes i.2.2 out cwd routes m i.1)
      h'.memory is := by
  have hgood : ∀ m i, Rooted cwd routes m →
      (Calm (answerAny routes out cwd i) m ↔ Passes i.2.2 out cwd routes m i.1) :=
    fun _ _ hroot => calm_answer_iff hroot
  exact along_of_step hgood (fun _ _ _ _ hroot hrun => rooted_answer hroot hrun)
    (rooted_generateRoutes hr)

/-- A server with a location for files and one for the API. -/
def filesConfig : NginxConfig :=
  let location (name handler : String) : NginxConfigStatement :=
    .mk ["location".toList, name.toList, handler.toList]
      (some [.mk ["root".toList, "data".toList] none])
  [.mk ["server".toList] (some [location "/static" "StaticHandler", location "/api" "APIHandler"])]

/-- No name may be longer than 255 characters. -/
def nameTooLong : RefusedCalls := fun _ p => (parts '/' p.pathname).any (255 < ·.length)

/-- Files may be looked for, but nothing may be made or removed. -/
def readOnly : RefusedCalls := fun call _ => call = .createDirectory ∨ call = .remove

/-- Nothing but the server. -/
def nothingOutside : Outside := ⟨fun _ => [], fun _ _ => FakeAuth.getAuth⟩

/-- The server before it starts: there is nothing on its disk. -/
def bareHeap : Heap := ⟨⟨FileTree.empty, fun _ => ∅⟩, 0⟩

/-- A `GET` of the file of a name of `n` characters. -/
def getLong (n : ℕ) : Request := ⟨.get, "/static/".toList ++ List.replicate n 'a', 11, [], []⟩

/-- The server starts. -/
theorem starts_files : ∃ routes h',
    (generateRoutes inOrder [] filesConfig).run bareHeap = .ok routes h' := by
  obtain ⟨routes, h', hr, -⟩ := after_iff.mp (show
    after (generateRoutes inOrder [] filesConfig) bareHeap (fun _ _ => true) = true from
      by decide +kernel)
  exact ⟨routes, h', hr⟩

theorem no_exception_files : ∃ routes h',
    (generateRoutes inOrder [] filesConfig).run bareHeap = .ok routes h' ∧
    Along (answerAny routes nothingOutside [])
      (fun m i => Calm (answerAny routes nothingOutside [] i) m ↔
        Passes i.2.2 nothingOutside [] routes m i.1)
      h'.memory [(getLong 3, {}, nameTooLong), (getLong 256, {}, nameTooLong),
        (⟨.post, "/api/shoes".toList, 11, [], []⟩, {}, readOnly)] := by
  obtain ⟨routes, h', hr⟩ := starts_files
  exact ⟨routes, h', hr, no_exception_iff hr nothingOutside _⟩

/-- **A request may raise an exception**: the name of the file is too long. -/
theorem long_name_throws : ¬ ∀ (out : Outside) (config : NginxConfig) (h h' : Heap)
    (routes : RouteMap), (generateRoutes inOrder [] config).run h = .ok routes h' →
      ∀ i, Calm (answerAny routes out [] i) h'.memory := by
  intro hall
  obtain ⟨routes, h', hr⟩ := starts_files
  have hls : locations filesConfig =
      [("/static".toList, .static "data".toList), ("/api".toList, .api "data".toList)] := by decide
  have hselect : select routes (getLong 256).target =
      some ("/static".toList, ⟨.static "data".toList, 0⟩) := by
    refine (select_eq_some hr (by rw [hls]; decide) (by decide +kernel) rfl).mpr
      ⟨0, .static "data".toList, ⟨?_, ?_⟩, rfl⟩
    · rw [hls]
      exact ⟨rfl, fun j kind hj => absurd hj (Nat.not_lt_zero j)⟩
    · rw [hls]
      exact ⟨by decide, by decide, by decide⟩
  have hcalm := hall nothingOutside filesConfig bareHeap h' routes hr (getLong 256, {}, nameTooLong)
  have hpass := (calm_answer_iff (rooted_generateRoutes hr)).mp hcalm _ _ hselect rfl
  exact absurd hpass.1 (by decide +kernel)

end Kachow.Sessions.Exceptions
