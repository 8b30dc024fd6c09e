import Kachow.Sessions.Lifecycle

/-! # What is left of an earlier response

The handlers fill in the response of the session, which is never reset. Most answers set everything
there is; the answer to a `POST` of the API leaves the content type as it was, and those to a `PUT` and
to a `DELETE` the body as well (`Leftover`). So an answer is the one to a fresh response if and only if
nothing is left of the fields it does not set (`overlay_eq_self`).

This holds for all handlers of all locations (`leaves_answer`), and hence along every sequence of
completions (`isolation`). -/

namespace Kachow.Sessions.Isolation

open Kachow.Lib.Text Kachow.Lib.Files Kachow.Lib.Runs Kachow.Boost.Paths Kachow.Http.Messages
open Kachow.Disk Kachow.Api.Ids Kachow.Api.Handler Kachow.Handlers.Plain Kachow.Secure.Handler
open Kachow.Server.Factories Kachow.Server.Routes Kachow.Sessions.Handlers Kachow.Sessions.Lifecycle

/-- The fields an answer leaves as they are. -/
inductive Leftover where
  | nothing
  | contentType
  | contentTypeAndBody
  deriving DecidableEq, Repr

/-- An answer to a fresh response, as it is to the response `res`. -/
def overlay (k : Leftover) (res o : Response) : Response :=
  let o := { o with version := res.version }
  match k with
  | .nothing => o
  | .contentType => { o with contentType := res.contentType }
  | .contentTypeAndBody => { o with contentType := res.contentType, body := res.body }.preparePayload

theorem version_overlay (k : Leftover) (res o : Response) : (overlay k res o).version = res.version := by
  cases k <;> rfl

/-- Of the fields nothing is left. -/
def Blank (k : Leftover) (res : Response) : Prop :=
  match k with
  | .nothing => True
  | .contentType => res.contentType = none
  | .contentTypeAndBody => res.contentType = none ∧ res.body = []

instance (k : Leftover) (res : Response) : Decidable (Blank k res) := by
  unfold Blank
  cases k <;> infer_instance

/-- **Nothing is left** if and only if the answer is the one to a fresh response. -/
theorem overlay_eq_self {k : Leftover} {res o : Response} (hv : res.version = 11)
    (ho : overlay k {} o = o) : overlay k res o = o ↔ Blank k res := by
  obtain ⟨version, status, contentType, contentLength, body⟩ := o
  cases k with
  | nothing =>
    simp only [overlay, Response.mk.injEq, and_true] at ho
    simp only [overlay, Blank, hv, ← ho]
  | contentType =>
    simp only [overlay, Response.mk.injEq, true_and, and_true] at ho
    obtain ⟨h0, h1⟩ := ho
    simp only [overlay, Blank, Response.mk.injEq, true_and, and_true, hv, ← h0, ← h1]
  | contentTypeAndBody =>
    simp only [overlay, Response.preparePayload, Response.mk.injEq, true_and] at ho
    obtain ⟨h0, h1, h2, h3⟩ := ho
    simp only [overlay, Blank, Response.preparePayload, Response.mk.injEq, true_and, hv, ← h0, ← h1,
      ← h3]
    constructor
    · rintro ⟨hc, -, hb⟩
      exact ⟨hc, hb⟩
    · rintro ⟨hc, hb⟩
      refine ⟨hc, ?_, hb⟩
      rw [hb, ← h2]

/-- What becomes of an answer to a fresh response. -/
def overlayAnswer {σ : Type} (k : Leftover) (res : Response) :
    EStateM.Result Fault σ (Bool × Response) → EStateM.Result Fault σ (Bool × Response)
  | .ok o s => .ok (o.1, overlay k res o.2) s
  | .error e s => .error e s

/-- The answer differs from that to a fresh response in the fields `k` only. -/
def LeavesFields {σ : Type} (k : Leftover) (x : Response → EStateM Fault σ (Bool × Response))
    (s : σ) : Prop :=
  ∀ res : Response, res.version = 11 → (x res).run s = overlayAnswer k res ((x {}).run s)

/-! ### The handlers -/

theorem fill11_fresh {res : Response} (h : res.version = 11) (status : ℕ) (contentType body : Str) :
    res.fill11 status contentType body =
      overlay .nothing res (({} : Response).fill11 status contentType body) := by
  unfold Response.fill11 Response.fill Response.preparePayload overlay
  rw [h]

section Api
variable (h : RequestHandlerAPI) (cwd : Loc Str) (req : Request) (w : World Tree)

/-- The fields the methods of the API leave. -/
def leftoverOfMethod (u : ParsedUrl) : Leftover :=
  match req.method with
  | .post => if u.fullPath.parentPath.same h.basePath then .contentType else .nothing
  | .put =>
    if u.id ≠ 0 ∧ u.fullPath.parentPath.parentPath.same h.basePath then .contentTypeAndBody
    else .nothing
  | .delete => if isObject cwd u w then .contentTypeAndBody else .nothing
  | _ => .nothing

/-- The fields the handler of the API leaves. -/
def leftoverOfApi : Leftover :=
  match h.parseUrlTarget req with
  | .ok u => if u.ok then leftoverOfMethod h cwd req w u else .nothing
  | .error _ => .nothing

theorem leaves_serve (u : ParsedUrl) :
    LeavesFields (leftoverOfMethod h cwd req w u)
      (fun res => serve h (realFileSystem cwd) req res u) w := by
  intro res hv
  unfold leftoverOfMethod serve
  cases req.method with
  | post =>
    simp only [run_create]
    split_ifs with hs
    · cases madeEntity cwd u w with
      | none => rfl
      | some tm =>
        simp only
        cases getNextId tm.2 u.entity with
        | error e => rfl
        | ok r => rfl
    · rfl
  | get =>
    simp only [run_retrieve]
    split_ifs <;> rfl
  | put =>
    simp only [run_update]
    split_ifs with hs
    · cases madeDir cwd u w with
      | none => rfl
      | some t => rfl
    · rfl
  | delete =>
    simp only [run_remove]
    split_ifs with hs
    · cases removeAt cwd w.disk u.fullPath with
      | none => rfl
      | some b => rfl
    · rfl
  | _ => rfl

theorem leaves_api : LeavesFields (leftoverOfApi h cwd req w)
    (fun res => h.getResponse (realFileSystem cwd) req res) w := by
  intro res hv
  simp only [run_getResponse]
  unfold leftoverOfApi
  cases h.parseUrlTarget req with
  | error e => rfl
  | ok u =>
    simp only
    split_ifs
    · exact leaves_serve h cwd req w u res hv
    · rfl

end Api

section Secure
variable (dataPath : Str) (prefixLength : ℕ) (authorizer : Auth) (cwd : Loc Str) (req : Request)

/-- The fields the handler with users leaves. -/
def leftoverOfSecure (w : World Tree) : Leftover :=
  match (SecureRequestHandlerAPI.new dataPath prefixLength authorizer (realFileSystem cwd)).run w.disk
  with
  | .ok _ d =>
    match principalOf authorizer req with
    | .user userId =>
      leftoverOfApi ⟨⟨dataPath ++ "/priv".toList⟩, prefixLength⟩ cwd
        (if req.target.length ≤ prefixLength + 1 then req else retarget prefixLength userId req)
        ⟨d, w.entityIdMap⟩
    | .publicUser =>
      leftoverOfApi ⟨⟨dataPath ++ "/pub".toList⟩, prefixLength⟩ cwd req ⟨d, w.entityIdMap⟩
    | .unauthenticated => .nothing
  | .error _ _ => .nothing

theorem new_ok {σ : Type} {file : FileSystem σ} {d d' : σ} {h : SecureRequestHandlerAPI}
    (hr : (SecureRequestHandlerAPI.new dataPath prefixLength authorizer file).run d = .ok h d') :
    h = secureHandler dataPath prefixLength authorizer := by
  unfold SecureRequestHandlerAPI.new at hr
  obtain ⟨_, d1, -, hr1⟩ := run_bind_ok hr
  obtain ⟨_, d2, -, hr2⟩ := run_bind_ok hr1
  cases hr2
  rfl

theorem leaves_secure (w : World Tree) :
    LeavesFields (leftoverOfSecure dataPath prefixLength authorizer cwd req w)
      (fun res => serveSecure dataPath prefixLength authorizer (realFileSystem cwd) req res) w := by
  intro res hv
  have hrun : ∀ res, (serveSecure dataPath prefixLength authorizer (realFileSystem cwd) req res).run w =
      match (SecureRequestHandlerAPI.new dataPath prefixLength authorizer (realFileSystem cwd)).run
        w.disk with
      | .ok h d => (h.getResponse (realFileSystem cwd) req res).run ⟨d, w.entityIdMap⟩
      | .error e d => .error e ⟨d, w.entityIdMap⟩ := by
    intro res
    unfold serveSecure
    rw [EStateM.run_bind, run_onDisk]
    cases (SecureRequestHandlerAPI.new dataPath prefixLength authorizer
      (realFileSystem cwd)).run w.disk <;> rfl
  rw [hrun, hrun]
  unfold leftoverOfSecure
  cases hnew : (SecureRequestHandlerAPI.new dataPath prefixLength authorizer
    (realFileSystem cwd)).run w.disk with
  | error e d => rfl
  | ok h d =>
    obtain rfl := new_ok _ _ _ hnew
    simp only [getResponse_eq]
    cases principalOf authorizer req with
    | unauthenticated =>
      simp only [EStateM.run_pure, setUnauthorized]
      rw [fill11_fresh hv]
      rfl
    | publicUser => exact leaves_api _ cwd req ⟨d, w.entityIdMap⟩ res hv
    | user userId =>
      simp only
      split_ifs
      · exact leaves_api _ cwd req ⟨d, w.entityIdMap⟩ res hv
      · exact leaves_api _ cwd _ ⟨d, w.entityIdMap⟩ res hv

end Secure

section Files
variable {σ : Type} {k : Leftover}

theorem leaves_onFiles {x : Response → EStateM Fault σ (Bool × Response)} {m : Memory σ}
    (hx : LeavesFields k x m.disk) : LeavesFields k (fun res => onFiles (x res)) m := by
  intro res hv
  have hres := hx res hv
  unfold onFiles EStateM.run at *
  simp only
  rw [hres]
  cases x {} m.disk <;> rfl

theorem leaves_onMap {x : Response → EStateM Fault (World σ) (Bool × Response)} {m : Memory σ}
    {address : ℕ} (hx : LeavesFields k x ⟨m.disk, m.entityIdMaps address⟩) :
    LeavesFields k (fun res => onMap address (x res)) m := by
  intro res hv
  have hres := hx res hv
  unfold onMap EStateM.run at *
  simp only
  rw [hres]
  cases x {} ⟨m.disk, m.entityIdMaps address⟩ <;> rfl

theorem leaves_serveFile (cwd : Loc Str) (p : Path) (t : Tree) :
    LeavesFields .nothing (fun res => serveFile (realFileSystem cwd) res p) t := by
  intro res _
  simp only [run_serveFile]
  split_ifs <;> rfl

theorem leaves_static (cwd : Loc Str) (req : Request) (h : RequestHandlerStatic) (t : Tree) :
    LeavesFields .nothing
      (fun res => RequestHandlerStatic.getResponse (realFileSystem cwd) req res h) t := by
  intro res hv
  unfold RequestHandlerStatic.getResponse
  cases req.method with
  | get =>
    simp only
    cases substr req.target h.prefixLength with
    | some url => exact leaves_serveFile cwd _ t res hv
    | none => rfl
  | _ => rfl

theorem leaves_login (cwd : Loc Str) (req : Request) (h : RequestHandlerLogin) (t : Tree) :
    LeavesFields .nothing
      (fun res => RequestHandlerLogin.getResponse (realFileSystem cwd) req res h) t := by
  intro res hv
  unfold RequestHandlerLogin.getResponse
  cases req.method with
  | get => exact leaves_serveFile cwd _ t res hv
  | _ => rfl

end Files

/-! ### The session -/

section Session
variable (routes : RouteMap) (out : Outside) (cwd : Loc Str)

/-- The fields the answer of a location leaves. -/
def leftoverOf (req : Request) (m : Memory Tree) : Leftover :=
  match select routes req.target with
  | some (location, ⟨.api root, address⟩) =>
    leftoverOfApi ⟨⟨root⟩, location.length⟩ cwd req ⟨m.disk, m.entityIdMaps address⟩
  | some (location, ⟨.secureAPI root authorizer, address⟩) =>
    leftoverOfSecure root location.length (out.getAuth authorizer) cwd req
      ⟨m.disk, m.entityIdMaps address⟩
  | _ => .nothing

/-- **Every handler** sets all fields but these. -/
theorem leaves_answer (req : Request) (m : Memory Tree) :
    LeavesFields (leftoverOf routes out cwd req m) (answer routes out (realFileSystem cwd) req) m := by
  intro res hv
  unfold leftoverOf answer
  cases hs : select routes req.target with
  | none =>
    simp only [EStateM.run_pure, setInvalid]
    rw [fill11_fresh hv]
    rfl
  | some p =>
    obtain ⟨location, kind, address⟩ := p
    simp only [RequestHandlerFactory.serve]
    cases kind with
    | api root => exact leaves_onMap (leaves_api _ cwd req _) res hv
    | secureAPI root authorizer => exact leaves_onMap (leaves_secure _ _ _ cwd req _) res hv
    | static root => exact leaves_onFiles (leaves_static cwd req _ _) res hv
    | login root => exact leaves_onFiles (leaves_login cwd req _ _) res hv
    | echo =>
      simp only [RequestHandlerEcho.getResponse, EStateM.run_pure]
      rw [fill11_fresh hv]
      rfl
    | notFound =>
      simp only [RequestHandlerNotFound.getResponse, EStateM.run_pure]
      rw [fill11_fresh hv]
      rfl
    | health =>
      simp only [RequestHandlerHealth.getResponse, EStateM.run_pure]
      rw [fill11_fresh hv]
      rfl
    | sleep =>
      simp only [RequestHandlerSleep.getResponse, EStateM.run_pure]
      rw [fill11_fresh hv]
      rfl

/-- The response that is written to a request is the one to a fresh response. -/
def WritesFresh (c : Connection Tree) (e : Completion) : Prop :=
  ∀ r c', (deliver routes out (realFileSystem cwd) e).run c = .ok r c' →
    match e with
    | .read error bytesTransferred req _ =>
      if error = 0 then
        ∃ o, (answer routes out (realFileSystem cwd) req {}).run c.memory = .ok o c'.memory ∧
          c'.session.outstanding = c.session.outstanding.eraseP e.completes ++ [.write o.2]
      else 0 < bytesTransferred →
        c'.session.outstanding =
          c.session.outstanding.eraseP e.completes ++ [.write (setInvalid {})]
    | _ => True

/-- Nothing is left of the fields the answer to a request does not set. -/
def NothingLeft (c : Connection Tree) (e : Completion) : Prop :=
  match e with
  | .read error _ req _ =>
    error = 0 → Blank (leftoverOf routes out cwd req c.memory) c.session.response
  | _ => True

variable {routes out cwd}

/-- What a read does. -/
theorem read_ok {c c' : Connection Tree} {n : ℕ} {req : Request} {connected : Bool} {r : ℤ}
    (hr : (deliver routes out (realFileSystem cwd) (.read 0 n req connected)).run c = .ok r c') :
    ∃ o, (answer routes out (realFileSystem cwd) req c.session.response).run c.memory =
        .ok o c'.memory ∧ c'.session.response = o.2 ∧
      c'.session.outstanding =
        c.session.outstanding.eraseP (Completion.read 0 n req connected).completes ++ [.write o.2] := by
  have hreply : (reply connected (answer routes out (realFileSystem cwd) req)).run
      ⟨{ c.session with
        request := req
        outstanding := c.session.outstanding.eraseP (Completion.read 0 n req connected).completes },
        c.memory⟩ = .ok r c' := hr
  obtain ⟨o, m, ho, rfl⟩ := reply_ok hreply
  exact ⟨o, ho, rfl, rfl⟩

/-- What a read that fails after some bytes does. -/
theorem failed_read_ok {c c' : Connection Tree} {error : ErrorCode} {n : ℕ} {req : Request}
    {connected : Bool} {r : ℤ} (he : error ≠ 0)
    (hr : (deliver routes out (realFileSystem cwd) (.read error n req connected)).run c = .ok r c') :
    0 < n ∧ c'.session.response = setInvalid c.session.response ∧
      c'.session.outstanding =
        c.session.outstanding.eraseP (Completion.read error n req connected).completes ++
          [.write (setInvalid c.session.response)] ∨
    n = 0 ∧ c'.session.response = c.session.response := by
  unfold deliver handleRead at hr
  simp only [EStateM.run_bind, run_onSession, if_neg he] at hr
  by_cases hn : 0 < n
  · rw [if_pos hn] at hr
    simp only [EStateM.run_bind, run_onSession, run_startWrite, EStateM.run_pure] at hr
    cases hr
    exact Or.inl ⟨hn, rfl, rfl⟩
  · rw [if_neg hn] at hr
    cases hr
    exact Or.inr ⟨by omega, rfl⟩

/-- The version of the response stays. -/
theorem version_deliver {c c' : Connection Tree} {e : Completion} {r : ℤ}
    (hv : c.session.response.version = 11)
    (hr : (deliver routes out (realFileSystem cwd) e).run c = .ok r c') :
    c'.session.response.version = 11 := by
  have hcallback : ∀ error : ErrorCode, (handleHandshake error).run
      ⟨{ c.session with outstanding := c.session.outstanding.eraseP e.completes }, c.memory⟩ =
        .ok r c' → c'.session.response.version = 11 := by
    intro error h
    unfold handleHandshake at h
    split_ifs at h
    · simp only [EStateM.run_bind, run_startOperation, EStateM.run_pure] at h
      cases h
      exact hv
    · simp only [EStateM.run_bind, run_deleteThis, EStateM.run_pure] at h
      cases h
      exact hv
  cases e with
  | handshake error => exact hcallback error hr
  | write error => exact hcallback error hr
  | read error n req connected =>
    by_cases he : error = 0
    · subst he
      obtain ⟨o, ho, hres, -⟩ := read_ok hr
      rw [leaves_answer routes out cwd req c.memory _ hv] at ho
      cases hfresh : (answer routes out (realFileSystem cwd) req {}).run c.memory with
      | error e m =>
        rw [hfresh] at ho
        cases ho
      | ok o' m =>
        rw [hfresh] at ho
        cases ho
        rw [hres, version_overlay, hv]
    · rcases failed_read_ok he hr with ⟨-, hres, -⟩ | ⟨-, hres⟩
      · rw [hres]
        rfl
      · rw [hres, hv]

/-- **One completion**: the response is the one to a fresh response if and only if nothing is left. -/
theorem writesFresh_iff {c c' : Connection Tree} {e : Completion} {r : ℤ}
    (hv : c.session.response.version = 11)
    (hr : (deliver routes out (realFileSystem cwd) e).run c = .ok r c') :
    WritesFresh routes out cwd c e ↔ NothingLeft routes out cwd c e := by
  cases e with
  | handshake error => exact iff_of_true (fun _ _ _ => trivial) trivial
  | write error => exact iff_of_true (fun _ _ _ => trivial) trivial
  | read error n req connected =>
    by_cases he : error = 0
    · subst he
      have hleaves := leaves_answer routes out cwd req c.memory
      obtain ⟨o, ho, -, hout⟩ := read_ok hr
      rw [hleaves _ hv] at ho
      have hfirst := hleaves {} rfl
      cases hfresh : (answer routes out (realFileSystem cwd) req {}).run c.memory with
      | error e m =>
        rw [hfresh] at ho
        cases ho
      | ok o' m =>
        rw [hfresh] at ho hfirst
        cases ho
        have hself : overlay (leftoverOf routes out cwd req c.memory) {} o'.2 = o'.2 :=
          (congrArg Prod.snd (EStateM.Result.ok.inj hfirst).1).symm
        have hblank := overlay_eq_self hv hself
        have hfreshOut : ∀ r₁ c₁,
            (deliver routes out (realFileSystem cwd) (.read 0 n req connected)).run c = .ok r₁ c₁ →
              c₁ = c' := by
          intro r₁ c₁ h₁
          rw [hr] at h₁
          cases h₁
          rfl
        have hnothing : NothingLeft routes out cwd c (.read 0 n req connected) ↔
            Blank (leftoverOf routes out cwd req c.memory) c.session.response :=
          forall_prop_of_true rfl
        rw [hnothing, ← hblank]
        constructor
        · intro h
          have hwrites := h r c' hr
          simp only [if_true] at hwrites
          obtain ⟨o₁, ho₁, hout₁⟩ := hwrites
          rw [hfresh] at ho₁
          cases ho₁
          rw [hout] at hout₁
          simpa using hout₁
        · intro h r₁ c₁ h₁
          obtain rfl := hfreshOut r₁ c₁ h₁
          simp only [if_true]
          refine ⟨o', hfresh, ?_⟩
          rw [hout, h]
    · refine iff_of_true (fun r₁ c₁ h₁ => ?_) fun h => absurd h he
      simp only [if_neg he]
      intro hn
      rcases failed_read_ok he h₁ with ⟨-, -, hout⟩ | ⟨h0, -⟩
      · exact hout
      · omega

end Session

/-- **Isolation of the requests of a session.** Along every sequence of completions in which nothing is
left of the fields an answer does not set, every response that is written is the one to a fresh
response. -/
theorem isolation {routes : RouteMap} {out : Outside} {cwd : Loc Str} {m : Memory Tree}
    {es : List Completion}
    (hes : Along (deliver routes out (realFileSystem cwd)) (NothingLeft routes out cwd) ⟨{}, m⟩ es) :
    Along (deliver routes out (realFileSystem cwd)) (WritesFresh routes out cwd) ⟨{}, m⟩ es := by
  have hgood : ∀ (c : Connection Tree) (e : Completion), c.session.response.version = 11 →
      NothingLeft routes out cwd c e → WritesFresh routes out cwd c e :=
    fun c e hv hn r c' hr => (writesFresh_iff hv hr).mpr hn r c' hr
  have hstep : ∀ (c : Connection Tree) (e : Completion) (r : ℤ) (c' : Connection Tree),
      c.session.response.version = 11 → NothingLeft routes out cwd c e →
      (deliver routes out (realFileSystem cwd) e).run c = .ok r c' →
        c'.session.response.version = 11 :=
    fun _ _ _ _ hv _ hr => version_deliver hv hr
  exact along_of_inv hgood hstep rfl hes

/-! ### A session that shows it -/

/-- One location of the API, for the directory `data`. -/
def apiRoutes : RouteMap := Finmap.singleton "/api".toList ⟨.api "data".toList, 0⟩

def bareOutside : Outside := ⟨fun _ => [], fun _ _ => FakeAuth.getAuth⟩

/-- A request that leads to no location, and one that stores an object. -/
def badRequest : Request := ⟨.get, "/".toList, 11, [], []⟩

def putRequest : Request := ⟨.put, "/api/e/1".toList, 11, [], "red".toList⟩

def dataMemory : Memory Tree := ⟨withDir "data".toList, fun _ => ∅⟩

theorem select_apiRoutes : select apiRoutes "/".toList = none ∧
    select apiRoutes "/api/e/1".toList = some ("/api".toList, ⟨.api "data".toList, 0⟩) := by
  have hkeys : apiRoutes.keys.sort = ["/api".toList] := by
    unfold apiRoutes
    rw [Finmap.keys_singleton, Finset.sort_singleton]
  unfold select matchLocation
  rw [hkeys]
  decide

/-- The object is stored on a fresh response. -/
theorem isolation_put : Along (deliver apiRoutes bareOutside (realFileSystem []))
    (WritesFresh apiRoutes bareOutside []) ⟨{}, dataMemory⟩
    [.read 0 80 putRequest true, .write 0, .read 0 18 badRequest true] := by
  refine isolation ⟨fun _ => ?_, fun _ _ _ => ⟨trivial, fun _ _ _ => ⟨fun _ => ?_, fun _ _ _ => trivial⟩⟩⟩
  · cases leftoverOf apiRoutes bareOutside [] putRequest dataMemory <;> decide
  · unfold leftoverOf
    rw [show badRequest.target = "/".toList from rfl, select_apiRoutes.1]
    trivial

/-- After a request that leads nowhere, the answer to a `PUT` is a page that says so. -/
theorem put_after_bad : ¬ Along (deliver apiRoutes bareOutside (realFileSystem []))
    (WritesFresh apiRoutes bareOutside []) ⟨{}, dataMemory⟩
    [.read 0 18 badRequest true, .write 0, .read 0 80 putRequest true] := by
  let c : Connection Tree := ⟨⟨badRequest, setInvalid {}, [.read], 0⟩, dataMemory⟩
  have hbad : answer apiRoutes bareOutside (realFileSystem []) badRequest {} =
      pure (false, setInvalid {}) := by
    unfold answer
    rw [show badRequest.target = "/".toList from rfl, select_apiRoutes.1]
  have hput : answer apiRoutes bareOutside (realFileSystem []) putRequest (setInvalid {}) =
      onMap 0 (RequestHandlerAPI.getResponse ⟨⟨"data".toList⟩, 4⟩ (realFileSystem []) putRequest
        (setInvalid {})) := by
    unfold answer
    rw [show putRequest.target = "/api/e/1".toList from rfl, select_apiRoutes.2]
    rfl
  have hfirst : (runAll (deliver apiRoutes bareOutside (realFileSystem []))
      [.read 0 18 badRequest true, .write 0]).run ⟨{}, dataMemory⟩ = .ok [1, 1] c := by
    refine runAll_cons
      (t := ⟨⟨badRequest, setInvalid {}, [.write (setInvalid {})], 0⟩, dataMemory⟩) ?_ rfl
    show (reply true (answer apiRoutes bareOutside (realFileSystem []) badRequest)).run
      ⟨⟨badRequest, {}, [], 0⟩, dataMemory⟩ = _
    rw [run_reply]
    simp only [hbad]
    rfl
  intro h
  have hwrites : WritesFresh apiRoutes bareOutside [] c (.read 0 80 putRequest true) :=
    @Along.next _ _ _ _ _ _ [.read 0 18 badRequest true, .write 0] _ _ _ _ h hfirst
  have hleft : leftoverOf apiRoutes bareOutside [] putRequest c.memory = .contentTypeAndBody := by
    unfold leftoverOf
    rw [show putRequest.target = "/api/e/1".toList from rfl, select_apiRoutes.2]
    decide +kernel
  have hok : after (RequestHandlerAPI.getResponse ⟨⟨"data".toList⟩, 4⟩ (realFileSystem []) putRequest
      (setInvalid {})) ⟨withDir "data".toList, ∅⟩ (fun _ _ => true) = true := by decide +kernel
  obtain ⟨o, w, hw, -⟩ := after_iff.mp hok
  have hrun : ∃ c', (reply true (answer apiRoutes bareOutside (realFileSystem []) putRequest)).run
      ⟨⟨putRequest, setInvalid {}, [], 0⟩, dataMemory⟩ = .ok 1 c' := by
    rw [run_reply]
    simp only [hput]
    have hmap : (onMap 0 (RequestHandlerAPI.getResponse ⟨⟨"data".toList⟩, 4⟩ (realFileSystem [])
        putRequest (setInvalid {}))).run dataMemory = .ok o
          ⟨w.disk, Function.update dataMemory.entityIdMaps 0 w.entityIdMap⟩ := by
      unfold onMap EStateM.run at *
      simp only [dataMemory]
      rw [hw]
    rw [hmap]
    exact ⟨_, rfl⟩
  obtain ⟨c', hc'⟩ := hrun
  have hdeliver : (deliver apiRoutes bareOutside (realFileSystem []) (.read 0 80 putRequest true)).run c =
      .ok 1 c' := hc'
  have hn := (writesFresh_iff rfl hdeliver).mp hwrites rfl
  rw [hleft] at hn
  exact absurd hn.1 (by decide)

end Kachow.Sessions.Isolation
