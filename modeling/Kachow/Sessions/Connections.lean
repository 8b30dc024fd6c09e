import Kachow.Server.Turns
import Kachow.Sessions.Isolation
import Kachow.Sessions.Started

/-! # Many connections

The server creates a session for each connection, and has one more that waits for the next. All sessions
answer from the same memory, and their operations are completed in any order. An event is the whole of a
handler, up to the `join` in `start_accept` from which `handle_accept` does not come back. With one thread
configured this is what the workers do, however the steps of the handlers are cut (`worked_off`).

To its clients the server is a site that is asked one thing after another (`Front`): each connection gets
what belongs to its own protocol, and a request, whatever was read on the other connections before, the
answer the site gives at this moment. Only in fields the answer does not set can something else be seen,
and then of the response sent last on the same connection (`Shows`). Every run of the events is one of
these (`connections_refine`). -/

namespace Kachow.Sessions.Connections

open Kachow.Lib.Text Kachow.Lib.Files Kachow.Lib.Runs Kachow.Http.Messages Kachow.Disk
open Kachow.Config.Parser (NginxConfig)
open Kachow.Api.Ids Kachow.Api.Objects Kachow.Api.StoreStep Kachow.Api.Factory
open Kachow.Lib.Threads Kachow.Server.Factories Kachow.Server.Routes Kachow.Server.Turns
open Kachow.Sessions.Handlers Kachow.Sessions.Lifecycle Kachow.Sessions.Isolation
open Kachow.Sessions.Exceptions Kachow.Sessions.Locations Kachow.Sessions.Started

/-! ### The server -/

/-- The sessions by their numbers, the number of the one that waits for a connection, and what they
share. -/
structure Server (σ : Type) where
  sessions : ℕ → Session
  waiting : ℕ
  memory : Memory σ

/-- What happens: an accept completes, or an operation of a session. -/
inductive Event where
  | accept (error : ErrorCode)
  | completion (j : ℕ) (e : Completion)

/-- The request that has been read. -/
def Event.request : Event → Option Request
  | .completion _ (.read error _ req _) => if error = 0 then some req else none
  | _ => none

/-- Where a request is read, the peer is still there when it is answered. -/
def Event.Reached : Event → Prop
  | .completion _ (.read error _ _ connected) => error = 0 → connected = true
  | _ => True

/-- `run` has called `start_accept`. -/
def Server.first {σ : Type} (m : Memory σ) : Server σ := ⟨fun _ => {}, 0, m⟩

section Server
variable {σ α : Type} (routes : RouteMap) (out : Outside) (file : FileSystem σ)

/-- What one session does. -/
def onSessionAt (j : ℕ) (x : EStateM Fault (Connection σ) α) : EStateM Fault (Server σ) α := fun s =>
  match x ⟨s.sessions j, s.memory⟩ with
  | .ok a c => .ok a ⟨Function.update s.sessions j c.session, s.waiting, c.memory⟩
  | .error f c => .error f ⟨Function.update s.sessions j c.session, s.waiting, c.memory⟩

/-- `server::start_accept`: a new session waits for the next connection. -/
def startAccept : EStateM Fault (Server σ) Unit :=
  modify fun s => ⟨Function.update s.sessions (s.waiting + 1) {}, s.waiting + 1, s.memory⟩

/-- `server::handle_accept`, called with the session that has waited. -/
def handleAccept (newSession : ℕ) (error : ErrorCode) : EStateM Fault (Server σ) ℤ := do
  let ret ← onSessionAt newSession
    (if error = 0 then do
      let _ ← start
      pure 1
    else do
      deleteThis
      pure (-1))
  startAccept
  pure ret

/-- An event, and the operations its session has outstanding then. -/
def happen : Event → EStateM Fault (Server σ) (List Operation)
  | .accept error => do
    let j := (← get).waiting
    let _ ← handleAccept j error
    pure ((← get).sessions j).outstanding
  | .completion j e => do
    let _ ← onSessionAt j (deliver routes out file e)
    pure ((← get).sessions j).outstanding

/-- The acceptor is armed all the time; an operation of a session is completed if it is outstanding. -/
def Event.Expected (s : Server σ) : Event → Prop
  | .accept _ => True
  | .completion j e => Awaited ⟨s.sessions j, s.memory⟩ e

variable {routes out file}

theorem run_onSessionAt (j : ℕ) (x : EStateM Fault (Connection σ) α) (s : Server σ) :
    (onSessionAt j x).run s = match x.run ⟨s.sessions j, s.memory⟩ with
      | .ok a c => .ok a ⟨Function.update s.sessions j c.session, s.waiting, c.memory⟩
      | .error f c => .error f ⟨Function.update s.sessions j c.session, s.waiting, c.memory⟩ := rfl

theorem run_completion {j : ℕ} {e : Completion} {s : Server σ} {r : ℤ} {c : Connection σ}
    (hr : (deliver routes out file e).run ⟨s.sessions j, s.memory⟩ = .ok r c) :
    (happen routes out file (.completion j e)).run s = .ok c.session.outstanding
      ⟨Function.update s.sessions j c.session, s.waiting, c.memory⟩ := by
  unfold happen
  simp only [EStateM.run_bind, run_onSessionAt, hr, EStateM.run_get, EStateM.run_pure,
    Function.update_self]

/-- The other sessions stay as they are. -/
theorem sessions_completion {i j : ℕ} (hi : i ≠ j) {e : Completion} {s s' : Server σ} {ops : List Operation}
    (hr : (happen routes out file (.completion j e)).run s = .ok ops s') :
    s'.sessions i = s.sessions i := by
  cases hd : (deliver routes out file e).run ⟨s.sessions j, s.memory⟩ with
  | ok r c =>
    rw [run_completion hd] at hr
    cases hr
    exact Function.update_of_ne hi _ _
  | error f c =>
    unfold happen at hr
    simp only [EStateM.run_bind, run_onSessionAt, hd] at hr
    cases hr

/-- A new connection: its session starts the handshake, or is deleted. -/
theorem run_accept (error : ErrorCode) (s : Server σ) (hnew : s.sessions s.waiting = {}) :
    (happen routes out file (.accept error)).run s =
      .ok (if error = 0 then [.handshake] else [])
        ⟨Function.update (Function.update s.sessions s.waiting
          (if error = 0 then { outstanding := [.handshake] } else { deleted := 1 })) (s.waiting + 1) {},
          s.waiting + 1, s.memory⟩ := by
  unfold happen handleAccept startAccept
  by_cases he : error = 0
  · simp [he, run_onSessionAt, start, hnew]
  · simp [he, run_onSessionAt, hnew]

end Server

/-! ### What the clients see -/

/-- What is known of a connection: the operation it waits for, and the response it was sent last. -/
structure Client where
  waits : Option Operation := none
  last : Response := {}

/-- The connections, how many there have been, and the site all of them ask. -/
structure Front where
  client : ℕ → Client
  accepted : ℕ
  site : Site

/-- An operation has been completed, and another one follows unless there was an error. -/
def follows (error : ErrorCode) (op : Operation) : Option Operation := if error = 0 then some op else none

/-- The response `res` is the answer `o`, but for fields it does not set: these may be as in the response
`last`. -/
def Shows (last o res : Response) : Prop := ∃ k, overlay k {} o = o ∧ res = overlay k last o

section Front
variable (routes : RouteMap) (out : Outside) (cwd : Loc Str) (L : Layout)

/-- **The protocol.** A connection is accepted, shakes hands, reads a request and is written a response in
turn; to each request the site gives its answer. -/
inductive Serves : Front → Event → List Operation → Front → Prop
  | accept (a : Front) (error : ErrorCode) :
      Serves a (.accept error) (follows error .handshake).toList
        ⟨Function.update a.client a.accepted ⟨follows error .handshake, {}⟩, a.accepted + 1, a.site⟩
  | handshake (a : Front) (j : ℕ) (error : ErrorCode) (h : (a.client j).waits = some .handshake) :
      Serves a (.completion j (.handshake error)) (follows error .read).toList
        ⟨Function.update a.client j ⟨follows error .read, (a.client j).last⟩, a.accepted, a.site⟩
  | request (a : Front) (j n : ℕ) (i : Visit routes out cwd L) (o : Bool × Response) (v : Site)
      (res : Response) (h : (a.client j).waits = some .read) (ho : (stepSite (i, {})).run a.site = .ok o v)
      (hres : Shows (a.client j).last o.2 res) :
      Serves a (.completion j (.read 0 n i.request true)) [.write res]
        ⟨Function.update a.client j ⟨some (.write res), res⟩, a.accepted, v⟩
  | invalid (a : Front) (j n : ℕ) (error : ErrorCode) (req : Request) (connected : Bool)
      (h : (a.client j).waits = some .read) (he : error ≠ 0) (hn : 0 < n) :
      Serves a (.completion j (.read error n req connected)) [.write (setInvalid {})]
        ⟨Function.update a.client j ⟨some (.write (setInvalid {})), setInvalid {}⟩, a.accepted, a.site⟩
  | closed (a : Front) (j : ℕ) (error : ErrorCode) (req : Request) (connected : Bool)
      (h : (a.client j).waits = some .read) (he : error ≠ 0) :
      Serves a (.completion j (.read error 0 req connected)) []
        ⟨Function.update a.client j ⟨none, (a.client j).last⟩, a.accepted, a.site⟩
  | written (a : Front) (j : ℕ) (error : ErrorCode) (res : Response)
      (h : (a.client j).waits = some (.write res)) :
      Serves a (.completion j (.write error)) (follows error .read).toList
        ⟨Function.update a.client j ⟨follows error .read, (a.client j).last⟩, a.accepted, a.site⟩

/-- A session is where its connection is: no operation is outstanding but the one the connection waits
for, and none once the session has deleted itself. -/
structure Sits (s : Session) (c : Client) : Prop where
  outstanding : s.outstanding = c.waits.toList
  response : s.response = c.last
  version : c.last.version = 11
  deleted : s.deleted = 0 ∨ s.deleted = 1 ∧ c.waits = none

/-- The server holds the site, and its sessions sit where their connections are. -/
structure HoldsFront (s : Server Tree) (a : Front) : Prop where
  site : HoldsSite cwd L s.memory a.site
  accepted : s.waiting = a.accepted
  sits : ∀ j, Sits (s.sessions j) (a.client j)
  new : ∀ j, a.accepted ≤ j → s.sessions j = {} ∧ a.client j = {}

/-- A request that is read is one to the site, its sender waits for the answer, and it finds a free number
if it needs one. -/
def Event.Allowed (s : Server Tree) (e : Event) : Prop :=
  e.Expected s ∧ e.Reached ∧ ∀ req, e.request = some req →
    ∃ i : Visit routes out cwd L, i.request = req ∧ HasNumber s.memory (i, {})

variable {routes out cwd L}

/-! ### One event -/

theorem sits_new : Sits {} {} := ⟨rfl, rfl, rfl, Or.inl rfl⟩

/-- A session that is called back has only the completed operation outstanding. -/
theorem Sits.awaited {s : Session} {c : Client} {m : Memory Tree} {e : Completion} (h : Sits s c)
    (ha : Awaited ⟨s, m⟩ e) : ∃ op, c.waits = some op ∧ e.completes op = true ∧ Settled ⟨s, m⟩ := by
  obtain ⟨op, hop, he⟩ := ha
  rw [h.outstanding, Option.mem_toList] at hop
  rcases h.deleted with hdel | ⟨-, hnone⟩
  · exact ⟨op, hop, he, Or.inl ⟨hdel, by rw [h.outstanding, hop]; rfl⟩⟩
  · rw [hnone] at hop
    cases hop

/-- The connection `j` goes on, and the others stay. -/
theorem HoldsFront.set {s : Server Tree} {a : Front} (h : HoldsFront cwd L s a) {j : ℕ}
    (hj : (a.client j).waits ≠ none) {session : Session} {c : Client} {m : Memory Tree} {v : Site}
    (hsite : HoldsSite cwd L m v) (hsits : Sits session c) :
    HoldsFront cwd L ⟨Function.update s.sessions j session, s.waiting, m⟩
      ⟨Function.update a.client j c, a.accepted, v⟩ where
  site := hsite
  accepted := h.accepted
  sits i := by
    by_cases hi : i = j
    · subst hi
      simpa only [Function.update_self] using hsits
    · simpa only [Function.update_of_ne hi] using h.sits i
  new i hle := by
    have hi : i ≠ j := by
      rintro rfl
      rw [(h.new i hle).2] at hj
      exact hj rfl
    simpa only [Function.update_of_ne hi] using h.new i hle

/-- **A new connection** has a session of its own, with nothing in it from the others. -/
theorem serves_accept {s : Server Tree} {a : Front} (h : HoldsFront cwd L s a) (error : ErrorCode) :
    ∃ ops s' a', (happen routes out (realFileSystem cwd) (.accept error)).run s = .ok ops s' ∧
      Serves routes out cwd L a (.accept error) ops a' ∧ HoldsFront cwd L s' a' := by
  have hrun := @run_accept _ routes out (realFileSystem cwd) error s (h.new _ h.accepted.ge).1
  have hops : (if error = 0 then [Operation.handshake] else []) = (follows error .handshake).toList := by
    unfold follows
    split_ifs <;> rfl
  rw [hops] at hrun
  refine ⟨_, _, _, hrun, .accept a error, h.site, congrArg (· + 1) h.accepted, fun j => ?_, fun j hj => ?_⟩
  · simp only [h.accepted]
    by_cases hnext : j = a.accepted + 1
    · subst hnext
      rw [Function.update_self, Function.update_of_ne (by omega), (h.new _ (by omega)).2]
      exact sits_new
    · rw [Function.update_of_ne hnext]
      by_cases hj : j = a.accepted
      · subst hj
        rw [Function.update_self, Function.update_self]
        by_cases he : error = 0
        · simp only [follows, if_pos he]
          exact ⟨rfl, rfl, rfl, Or.inl rfl⟩
        · simp only [follows, if_neg he]
          exact ⟨rfl, rfl, rfl, Or.inr ⟨rfl, rfl⟩⟩
      · rw [Function.update_of_ne hj, Function.update_of_ne hj]
        exact h.sits j
  · have hlt : a.accepted + 1 ≤ j := hj
    have hne : j ≠ a.accepted := by omega
    simp only [h.accepted, Function.update_of_ne hne]
    refine ⟨?_, (h.new j (by omega)).2⟩
    by_cases hnext : j = a.accepted + 1
    · subst hnext
      rw [Function.update_self]
    · rw [Function.update_of_ne hnext, Function.update_of_ne hne]
      exact (h.new j (by omega)).1

/-- After the handshake or a write: the next request is read, or the session deletes itself. -/
theorem run_callback {σ : Type} (c : Connection σ) (error : ErrorCode) :
    ∃ r, (handleHandshake error).run (calledBack c) = .ok r
      ⟨{ c.session with
        outstanding := (follows error .read).toList
        deleted := c.session.deleted + if error = 0 then 0 else 1 }, c.memory⟩ := by
  unfold handleHandshake follows
  split_ifs
  · exact ⟨1, rfl⟩
  · exact ⟨-1, rfl⟩

/-- A request: the response of the session becomes the answer to it, and is written. -/
theorem run_request {c : Connection Tree} {n : ℕ} {req : Request} (hs : Settled c)
    (ha : Awaited c (.read 0 n req true)) {o : Bool × Response} {m : Memory Tree}
    (ho : (answer routes out (realFileSystem cwd) req c.session.response).run c.memory = .ok o m) :
    (deliver routes out (realFileSystem cwd) (.read 0 n req true)).run c = .ok 1
      ⟨{ c.session with request := req, response := o.2, outstanding := [.write o.2] }, m⟩ := by
  have hreply := run_reply true (answer routes out (realFileSystem cwd) req)
    ⟨{ (calledBack c).session with request := req }, c.memory⟩
  have hsame : (answer routes out (realFileSystem cwd) req
      ({ (calledBack c).session with request := req } : Session).response).run c.memory = .ok o m := ho
  rw [hsame] at hreply
  exact (run_deliver hs ha).trans hreply

/-- A read that fails: the request that could not be read is answered, if there was one. -/
theorem run_unreadable {c : Connection Tree} {error : ErrorCode} {n : ℕ} {req : Request}
    {connected : Bool} (hs : Settled c) (ha : Awaited c (.read error n req connected)) (he : error ≠ 0) :
    (deliver routes out (realFileSystem cwd) (.read error n req connected)).run c = .ok (-1)
      (if 0 < n then ⟨{ c.session with
          response := setInvalid {}, outstanding := [.write (setInvalid {})] }, c.memory⟩
        else calledBack c) := by
  refine (run_deliver hs ha).trans ?_
  simp only [handleRead, if_neg he]
  split_ifs
  · rfl
  · rfl

/-- What a request to the site is answered on a response that has been used before. -/
theorem run_visit_used (hL : L.Sound cwd) (hR : L.Covers routes) {m : Memory Tree} {v v' : Site}
    (h : HoldsSite cwd L m v) {i : Visit routes out cwd L} {o : Bool × Response}
    (hstep : (stepSite (i, {})).run v = .ok o v') {last : Response} (hv : last.version = 11) :
    ∃ m' res, (answer routes out (realFileSystem cwd) i.request last).run m = .ok (o.1, res) m' ∧
      HoldsSite cwd L m' v' ∧ Shows last o.2 res ∧ res.version = 11 := by
  obtain ⟨m', hrun, h'⟩ := run_visit hL hR h hstep
  have hfresh : (answer routes out (realFileSystem cwd) i.request {}).run m = .ok o m' := hrun
  have hleaves := leaves_answer routes out cwd i.request m
  have hself := hleaves {} rfl
  have hused := hleaves last hv
  simp only [hfresh, overlayAnswer] at hself hused
  have hback : overlay (leftoverOf routes out cwd i.request m) {} o.2 = o.2 :=
    (congrArg Prod.snd (EStateM.Result.ok.inj hself).1).symm
  exact ⟨m', _, hused, h', ⟨_, hback, rfl⟩, (version_overlay _ _ _).trans hv⟩

/-- **One completion** is one of the protocol. -/
theorem serves_completion (hL : L.Sound cwd) (hR : L.Covers routes) {s : Server Tree} {a : Front}
    (h : HoldsFront cwd L s a) {j : ℕ} {e : Completion}
    (he : (Event.completion j e).Allowed routes out cwd L s) :
    ∃ ops s' a', (happen routes out (realFileSystem cwd) (.completion j e)).run s = .ok ops s' ∧
      Serves routes out cwd L a (.completion j e) ops a' ∧ HoldsFront cwd L s' a' := by
  obtain ⟨op, hop, hcompletes, hsettled⟩ := (h.sits j).awaited he.1
  have hwaits : (a.client j).waits ≠ none := by rw [hop]; simp
  have hdel : (s.sessions j).deleted = 0 := (outstanding_eq hsettled he.1).1
  -- the session goes on with the next read, or deletes itself
  have hgoes : ∀ error : ErrorCode, Sits
      { s.sessions j with
        outstanding := (follows error .read).toList
        deleted := (s.sessions j).deleted + if error = 0 then 0 else 1 }
      ⟨follows error .read, (a.client j).last⟩ := by
    intro error
    refine ⟨rfl, (h.sits j).response, (h.sits j).version, ?_⟩
    unfold follows
    split_ifs
    · exact Or.inl hdel
    · exact Or.inr ⟨congrArg (· + 1) hdel, rfl⟩
  cases e with
  | handshake error =>
    obtain ⟨r, hr⟩ := run_callback ⟨s.sessions j, s.memory⟩ error
    obtain rfl : op = .handshake := by cases op <;> first | rfl | cases hcompletes
    exact ⟨_, _, _, run_completion ((run_deliver hsettled he.1).trans hr), .handshake a j error hop,
      h.set hwaits h.site (hgoes error)⟩
  | write error =>
    obtain ⟨r, hr⟩ := run_callback ⟨s.sessions j, s.memory⟩ error
    obtain ⟨res, rfl⟩ : ∃ res, op = .write res := by
      cases op with
      | write res => exact ⟨res, rfl⟩
      | handshake => cases hcompletes
      | read => cases hcompletes
    exact ⟨_, _, _, run_completion ((run_deliver hsettled he.1).trans hr), .written a j error res hop,
      h.set hwaits h.site (hgoes error)⟩
  | read error n req connected =>
    obtain rfl : op = .read := by cases op <;> first | rfl | cases hcompletes
    by_cases herr : error = 0
    · subst herr
      obtain rfl : connected = true := he.2.1 rfl
      obtain ⟨i, rfl, hroom⟩ := he.2.2 req rfl
      obtain ⟨o, v, ho⟩ := exists_stepSite hR h.site hroom
      obtain ⟨m, res, hrun, hsite, hshows, hversion⟩ := run_visit_used hL hR h.site ho (h.sits j).version
      rw [← (h.sits j).response] at hrun
      exact ⟨_, _, _, run_completion (run_request hsettled he.1 hrun), .request a j n i o v res hop ho hshows,
        h.set hwaits hsite ⟨rfl, rfl, hversion, Or.inl hdel⟩⟩
    · have hrun := @run_unreadable routes out cwd ⟨s.sessions j, s.memory⟩ error n req connected hsettled
        he.1 herr
      rcases Nat.eq_zero_or_pos n with rfl | hn
      · rw [if_neg (Nat.lt_irrefl 0)] at hrun
        exact ⟨_, _, _, run_completion hrun, .closed a j error req connected hop herr, h.set hwaits h.site
          ⟨rfl, (h.sits j).response, (h.sits j).version, Or.inl hdel⟩⟩
      · rw [if_pos hn] at hrun
        exact ⟨_, _, _, run_completion hrun, .invalid a j n error req connected hop herr hn, h.set hwaits h.site
          ⟨rfl, rfl, rfl, Or.inl hdel⟩⟩

/-- **One event** is one of the protocol. -/
theorem serves_happen (hL : L.Sound cwd) (hR : L.Covers routes) {s : Server Tree} {a : Front} {e : Event}
    (h : HoldsFront cwd L s a) (he : e.Allowed routes out cwd L s) :
    ∃ ops s' a', (happen routes out (realFileSystem cwd) e).run s = .ok ops s' ∧
      Serves routes out cwd L a e ops a' ∧ HoldsFront cwd L s' a' := by
  cases e with
  | accept error => exact serves_accept h error
  | completion j e => exact serves_completion hL hR h he

/-! ### Runs -/

/-- The response that is written. -/
def written : Operation → Option Response
  | .write res => some res
  | _ => none

/-- The responses to the requests that have been read, in this order. -/
def responses (es : List Event) (ops : List (List Operation)) : List Response :=
  (es.zip ops).flatMap fun x => if x.1.request.isSome then x.2.filterMap written else []

/-- Of an answer the status is shown, and the body if there is one. -/
theorem Shows.visible {last o res : Response} (h : Shows last o res) :
    res.status = o.status ∧ (o.body ≠ [] → res.body = o.body) := by
  obtain ⟨k, ho, rfl⟩ := h
  cases k with
  | nothing => exact ⟨rfl, fun _ => rfl⟩
  | contentType => exact ⟨rfl, fun _ => rfl⟩
  | contentTypeAndBody =>
    refine ⟨rfl, fun hb => absurd ?_ hb⟩
    rw [← ho]
    rfl

/-- A step of the protocol asks the site, or leaves it alone. -/
theorem Serves.site {a a' : Front} {e : Event} {ops : List Operation}
    (h : Serves routes out cwd L a e ops a') : e.request = none ∧ a'.site = a.site ∨
      ∃ (i : Visit routes out cwd L) (o : Bool × Response) (last res : Response),
        e.request = some i.request ∧ (stepSite (i, {})).run a.site = .ok o a'.site ∧
        ops = [.write res] ∧ Shows last o.2 res := by
  cases h with
  | accept error => exact Or.inl ⟨rfl, rfl⟩
  | handshake j error => exact Or.inl ⟨rfl, rfl⟩
  | request j n i o v res hj ho hres => exact Or.inr ⟨i, o, _, res, rfl, ho, rfl, hres⟩
  | invalid j n error req connected hj he => exact Or.inl ⟨if_neg he, rfl⟩
  | closed j error req connected hj he => exact Or.inl ⟨if_neg he, rfl⟩
  | written j error res => exact Or.inl ⟨rfl, rfl⟩

/-- **The order of the requests.** In a run of the protocol the site is asked for what has been read, in the
order in which it was read, and every response to a request shows the answer. -/
theorem site_of_serves {a a' : Front} {es : List Event} {ops : List (List Operation)}
    (h : RunsTo (Serves routes out cwd L) a es ops a') :
    ∃ (is : List (Visit routes out cwd L)) (os : List (Bool × Response)),
      es.filterMap Event.request = is.map Visit.request ∧
      (runAll stepSite (is.map fun i => (i, {}))).run a.site = .ok os a'.site ∧
      List.Forall₂ (fun res o => res.status = o.2.status ∧ (o.2.body ≠ [] → res.body = o.2.body))
        (responses es ops) os := by
  induction h with
  | nil a => exact ⟨[], [], rfl, rfl, .nil⟩
  | @cons a b c e ops es opss hstep hrun ih =>
    obtain ⟨is, os, hreq, hsite, hshown⟩ := ih
    rcases hstep.site with ⟨hnone, hsame⟩ | ⟨i, o, last, res, hsome, ho, rfl, hres⟩
    · rw [hsame] at hsite
      refine ⟨is, os, ?_, hsite, ?_⟩
      · rw [List.filterMap_cons_none hnone, hreq]
      · simpa [responses, hnone] using hshown
    · refine ⟨i :: is, o :: os, ?_, runAll_cons ho hsite, ?_⟩
      · rw [List.filterMap_cons_some hsome, hreq, List.map_cons]
      · have hcons : responses (e :: es) ([.write res] :: opss) = res :: responses es opss := by
          simp [responses, hsome, written]
        rw [hcons]
        exact .cons hres.visible hshown

/-- The server that has started holds a front without connections. -/
theorem holdsFront_first {m : Memory Tree} {v : Site} (h : HoldsSite cwd L m v) :
    HoldsFront cwd L (.first m) ⟨fun _ => {}, 0, v⟩ :=
  ⟨h, rfl, fun _ => sits_new, fun _ _ => ⟨rfl, rfl⟩⟩

/-- With one thread configured, the handlers of the events come to the results `ops` and the server `s'`,
however they are cut into steps and whatever the workers do in between. -/
def WorkedOff {σ : Type} (routes : RouteMap) (out : Outside) (file : FileSystem σ) (s : Server σ)
    (es : List Event) (ops : List (List Operation)) (s' : Server σ) : Prop :=
  ∀ (n : ℕ) (program : Event → Thread Fault (Server σ) (List Operation)) (ms : List (Move Event))
    (c : Work Fault (Server σ) (List Operation)), n ≤ 1 →
    (∀ e, (program e).alone = happen routes out file e) → ms.filterMap Move.called = es →
    moves n program (.first s) ms = some c → (∀ t, c.busy t = none) → c.results = ops ∧ c.state = s'

theorem worked_off {σ : Type} {routes : RouteMap} {out : Outside} {file : FileSystem σ}
    {s s' : Server σ} {es : List Event} {ops : List (List Operation)}
    (hrun : (runAll (happen routes out file) es).run s = .ok ops s') :
    WorkedOff routes out file s es ops s' := by
  intro n program ms c hn hprogram hcalled hms hfree
  have hturn := run_in_turn hn hms hfree
  rw [hcalled, funext hprogram, hrun] at hturn
  obtain ⟨rfl, rfl⟩ := EStateM.Result.ok.inj hturn
  exact ⟨rfl, rfl⟩

/-- **Many connections, one site.** The directories of a configuration lie apart, and each is missing or
holds a store. Once the server has started, the connections are accepted and the operations of their
sessions completed in any order; whoever sends a request waits for the answer, and no entity is exhausted.
Then no handler throws, with one thread the workers come to the same, and the run is one of the protocol; in
particular the responses to the requests show the answers the site gives to all of them, one after another
in the order in which they were read. -/
theorem connections_refine {config : NginxConfig} {stores : ℕ → Store} {it : DirectoryIterator}
    {h' : Heap} (hL : L.Sound cwd) (hG : Grounds cwd config L stores)
    (hr : (generateRoutes it cwd config).run ⟨⟨L.disk, fun _ => ∅⟩, 0⟩ = .ok routes h') {es : List Event}
    (hes : Along (happen routes out (realFileSystem cwd)) (Event.Allowed routes out cwd L)
      (.first h'.memory) es) :
    ∃ ids ops s' a', (∀ a root, L.kind a = some (.api root) → InMap (ids a) (stores a)) ∧
      (runAll (happen routes out (realFileSystem cwd)) es).run (.first h'.memory) = .ok ops s' ∧
      WorkedOff routes out (realFileSystem cwd) (.first h'.memory) es ops s' ∧
      RunsTo (Serves routes out cwd L) ⟨fun _ => {}, 0, ⟨stores, fun _ _ => Store.empty, ids⟩⟩ es ops a' ∧
      HoldsFront cwd L s' a' ∧
      ∃ (is : List (Visit routes out cwd L)) (os : List (Bool × Response)),
        es.filterMap Event.request = is.map Visit.request ∧
        (runAll stepSite (is.map fun i => (i, {}))).run ⟨stores, fun _ _ => Store.empty, ids⟩ =
          .ok os a'.site ∧
        List.Forall₂ (fun res o => res.status = o.2.status ∧ (o.2.body ≠ [] → res.body = o.2.body))
          (responses es ops) os := by
  obtain ⟨hR, hsite, hids⟩ := holdsSite_started hL hG hr
  obtain ⟨ops, s', a', hrun, hserves, hend⟩ := simulation_rel
    (fun s a e h he => serves_happen hL hR h he) (holdsFront_first hsite) hes
  exact ⟨_, ops, s', a', hids, hrun, worked_off hrun, hserves, hend, site_of_serves hserves⟩

end Front

/-! ### Two connections -/

/-- Two connections are accepted; a shoe is stored on the first, and asked for on the second. -/
theorem connections_refine_files : ∃ (routes : RouteMap) (h' : Heap) (es : List Event)
    (ops : List (List Operation)) (s' : Server Tree) (a' : Front),
    (generateRoutes inOrder [] filesConfig).run bareHeap = .ok routes h' ∧ es.length = 6 ∧
      (runAll (happen routes nothingOutside (realFileSystem [])) es).run (.first h'.memory) = .ok ops s' ∧
      HoldsFront [] filesLayout s' a' ∧ (responses es ops).length = 2 := by
  obtain ⟨routes, h', hr⟩ := starts_files
  obtain ⟨hpost, hget⟩ := select_files hr
  let post : Visit routes nothingOutside [] filesLayout := .object _ _ _ _ hpost
  let get : Visit routes nothingOutside [] filesLayout := .download _ _ 1 _ _ _ ⟨rfl, rfl, rfl⟩ rfl hget
  let es : List Event := [.accept 0, .accept 0, .completion 0 (.handshake 0), .completion 1 (.handshake 0),
    .completion 0 (.read 0 18 post.request true), .completion 1 (.read 0 18 get.request true)]
  have hes : Along (happen routes nothingOutside (realFileSystem []))
      (Event.Allowed routes nothingOutside [] filesLayout) (.first h'.memory) es := by
    refine ⟨⟨trivial, trivial, fun _ hq => by cases hq⟩, fun _ _ h1 => ?_⟩
    cases h1
    refine ⟨⟨trivial, trivial, fun _ hq => by cases hq⟩, fun _ _ h2 => ?_⟩
    cases h2
    refine ⟨⟨⟨.handshake, List.mem_singleton_self _, rfl⟩, trivial, fun _ hq => by cases hq⟩, fun _ _ h3 => ?_⟩
    cases h3
    refine ⟨⟨⟨.handshake, List.mem_singleton_self _, rfl⟩, trivial, fun _ hq => by cases hq⟩, fun _ _ h4 => ?_⟩
    cases h4
    refine ⟨⟨⟨.read, List.mem_singleton_self _, rfl⟩, fun _ => rfl, fun _ hq => ?_⟩, fun _ s h5 => ?_⟩
    · cases hq
      exact ⟨post, rfl, hasNumber_files hr⟩
    · have hwaits := sessions_completion (by decide : (1 : ℕ) ≠ 0) h5
      refine ⟨⟨⟨.read, ?_, rfl⟩, fun _ => rfl, fun _ hq => ?_⟩, fun _ _ _ => trivial⟩
      · rw [hwaits]
        exact List.mem_singleton_self _
      · cases hq
        exact ⟨get, rfl, trivial⟩
  obtain ⟨ids, ops, s', a', -, hrun, -, -, hend, is, os, hreq, hsite, hshown⟩ :=
    connections_refine sound_filesLayout grounds_filesLayout hr hes
  refine ⟨routes, h', es, ops, s', a', hr, rfl, hrun, hend, ?_⟩
  have hlen : is.length = 2 := by
    have hmap := congrArg List.length hreq
    rw [List.length_map] at hmap
    exact hmap.symm
  rw [hshown.length_eq, length_of_runAll hsite, List.length_map, hlen]

end Kachow.Sessions.Connections
