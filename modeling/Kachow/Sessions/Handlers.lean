import Kachow.Server.Routes

/-! # A session

A session serves one connection. It starts an operation on the socket, and is called back when the
operation is completed: after the handshake it reads a request, after a request it writes the response,
and after that it reads the next request. The response is a member, and every handler fills in the one
the last handler has left. Before it is written, the address of the peer is logged, which throws if the
peer is gone by then.

A session owns itself: where a handler fails, it deletes itself. -/

namespace Kachow.Sessions.Handlers

open Kachow.Lib.Text Kachow.Http.Messages Kachow.Disk Kachow.Server.Factories Kachow.Server.Routes

/-- `boost::system::error_code`; `0` is success. -/
abbrev ErrorCode := ℤ

/-- An operation on the socket. -/
inductive Operation where
  | handshake
  | read
  | write (res : Response)
  deriving DecidableEq, Repr

/-- `session`, with the operations it has started and how often it was deleted. -/
structure Session where
  request : Request := ⟨.other [], [], 11, [], []⟩
  response : Response := {}
  outstanding : List Operation := []
  deleted : ℕ := 0

/-- A session, and what all sessions share. -/
structure Connection (σ : Type) where
  session : Session
  memory : Memory σ

/-! ### The choice of a location -/

/-- The conversion of a length to `int`. -/
def toInt (n : ℕ) : ℤ := Int.bmod n (2 ^ 32)

/-- The conversion of an `int` to `size_t`. -/
def toSize (z : ℤ) : ℤ := z % 2 ^ 64

/-- The body of the loop of `match`: the length of the longest location so far, and the location. -/
def matchStep (requestUrl : Str) (longest : ℤ × Str) (location : Str) : ℤ × Str :=
  let subUrl := requestUrl.take location.length
  if subUrl = location ∧ toSize longest.1 < subUrl.length then (toInt subUrl.length, subUrl)
  else longest

/-- The loop of `match` over the locations. -/
def matchIn (locations : List Str) (requestUrl : Str) : Str :=
  (locations.foldl (matchStep requestUrl) (0, [])).2

/-- `session::match`. A map is iterated in the order of its keys. -/
def matchLocation (routes : RouteMap) (requestUrl : Str) : Str := matchIn routes.keys.sort requestUrl

/-- The factory of the location, and the location; nothing where there is none (`count`). -/
def select (routes : RouteMap) (requestUrl : Str) : Option (Str × RequestHandlerFactory) :=
  let location := matchLocation routes requestUrl
  (routes.lookup location).map fun factory => (location, factory)

/-! ### The handlers -/

section Handlers
variable {σ : Type} (routes : RouteMap) (out : Outside) (file : FileSystem σ)

/-- A change of the session. -/
def onSession (f : Session → Session) : EStateM Fault (Connection σ) Unit :=
  modify fun c => { c with session := f c.session }

/-- An operation is started. -/
def startOperation (op : Operation) : EStateM Fault (Connection σ) Unit :=
  onSession fun s => { s with outstanding := s.outstanding ++ [op] }

/-- `delete this`. -/
def deleteThis : EStateM Fault (Connection σ) Unit :=
  onSession fun s => { s with deleted := s.deleted + 1 }

/-- The response is written. -/
def startWrite : EStateM Fault (Connection σ) Unit := do
  let c ← get
  startOperation (.write c.session.response)

/-- What a handler does with the response of the session. -/
def onResponse (x : Response → EStateM Fault (Memory σ) (Bool × Response)) :
    EStateM Fault (Connection σ) Unit := fun c =>
  match x c.session.response c.memory with
  | .ok o m => .ok () ⟨{ c.session with response := o.2 }, m⟩
  | .error e m => .error e ⟨c.session, m⟩

/-- The answer to a request that leads nowhere. -/
def setInvalid (res : Response) : Response :=
  res.fill11 400 textHtml "<html><h1>400 Bad Request</h1></html>".toList

/-- The handler of the location the target leads to fills in the response. -/
def answer (req : Request) (res : Response) : EStateM Fault (Memory σ) (Bool × Response) :=
  match select routes req.target with
  | none => pure (false, setInvalid res)
  | some (location, factory) => factory.serve out file location req res

/-- `remote_endpoint`, for the log. It throws if the peer is not connected any more. -/
def remoteEndpoint (connected : Bool) : EStateM Fault (Connection σ) Unit :=
  if connected then pure () else throw .systemError

/-- The response of the session is filled in, logged and written. -/
def reply (connected : Bool) (x : Response → EStateM Fault (Memory σ) (Bool × Response)) :
    EStateM Fault (Connection σ) ℤ := do
  onResponse x
  remoteEndpoint connected
  startWrite
  pure 1

/-- `session::start`. -/
def start : EStateM Fault (Connection σ) ℤ := do
  startOperation .handshake
  pure 1

/-- `session::handle_handshake`. -/
def handleHandshake (error : ErrorCode) : EStateM Fault (Connection σ) ℤ :=
  if error = 0 then do
    startOperation .read
    pure 1
  else do
    deleteThis
    pure (-1)

/-- `session::handle_read`; `connected` says whether the peer is still there when it is logged. -/
def handleRead (error : ErrorCode) (bytesTransferred : ℕ) (connected : Bool) :
    EStateM Fault (Connection σ) ℤ :=
  if error = 0 then do
    let c ← get
    reply connected (answer routes out file c.session.request)
  else do
    if 0 < bytesTransferred then
      onSession fun s => { s with response := setInvalid s.response }
      startWrite
    pure (-1)

/-- `session::handle_write`. -/
def handleWrite (error : ErrorCode) : EStateM Fault (Connection σ) ℤ :=
  if error = 0 then do
    startOperation .read
    pure 1
  else do
    deleteThis
    pure (-1)

end Handlers

/-! ### What the steps change -/

section Steps
variable {σ : Type}

@[simp] theorem run_onSession (f : Session → Session) (c : Connection σ) :
    (onSession f).run c = .ok () ⟨f c.session, c.memory⟩ := rfl

@[simp] theorem run_startOperation (op : Operation) (c : Connection σ) :
    (startOperation op).run c =
      .ok () ⟨{ c.session with outstanding := c.session.outstanding ++ [op] }, c.memory⟩ := rfl

@[simp] theorem run_startWrite (c : Connection σ) : startWrite.run c = .ok ()
    ⟨{ c.session with outstanding := c.session.outstanding ++ [.write c.session.response] },
      c.memory⟩ := rfl

@[simp] theorem run_deleteThis (c : Connection σ) : deleteThis.run c =
    .ok () ⟨{ c.session with deleted := c.session.deleted + 1 }, c.memory⟩ := rfl

/-- A reply starts one operation, the write of the response, if the peer is still there. -/
theorem run_reply (connected : Bool) (x : Response → EStateM Fault (Memory σ) (Bool × Response))
    (c : Connection σ) : (reply connected x).run c =
      match (x c.session.response).run c.memory with
      | .ok o m =>
        if connected then .ok 1 ⟨{ c.session with
          response := o.2, outstanding := c.session.outstanding ++ [.write o.2] }, m⟩
        else .error .systemError ⟨{ c.session with response := o.2 }, m⟩
      | .error e m => .error e ⟨c.session, m⟩ := by
  have hresp : (onResponse x).run c =
      match (x c.session.response).run c.memory with
      | .ok o m => .ok () ⟨{ c.session with response := o.2 }, m⟩
      | .error e m => .error e ⟨c.session, m⟩ := by
    cases hx : x c.session.response c.memory <;> simp [onResponse, EStateM.run, hx]
  unfold reply
  rw [EStateM.run_bind, hresp]
  cases (x c.session.response).run c.memory <;> cases connected <;> rfl

theorem reply_ok {connected : Bool} {x : Response → EStateM Fault (Memory σ) (Bool × Response)}
    {c c' : Connection σ} {r : ℤ} (hr : (reply connected x).run c = .ok r c') :
    ∃ o m, (x c.session.response).run c.memory = .ok o m ∧ c' = ⟨{ c.session with
        response := o.2, outstanding := c.session.outstanding ++ [.write o.2] }, m⟩ := by
  rw [run_reply] at hr
  cases hx : (x c.session.response).run c.memory with
  | ok o m =>
    rw [hx] at hr
    cases connected <;> cases hr
    exact ⟨o, m, rfl, rfl⟩
  | error e m =>
    rw [hx] at hr
    cases hr

end Steps

end Kachow.Sessions.Handlers
