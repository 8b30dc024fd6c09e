import Kachow.Lib.Text

/-! # Requests and responses

A request has a method, a target, a version, header fields and a body. Of a response the handlers set
the status, the fields `Content-Type` and `Content-Length`, and the body; `preparePayload` fills in
the length of the body. A default-constructed response is a `200` with no fields and an empty body. -/

namespace Kachow.Http.Messages

open Kachow.Lib.Text

/-- What can go wrong while a request is served: an exception, or undefined behaviour. -/
inductive Fault where
  /-- `std::out_of_range`, thrown by `substr`. -/
  | outOfRange
  /-- `boost::filesystem::filesystem_error`. -/
  | filesystemError
  /-- `boost::system::system_error`, thrown by a call on a socket. -/
  | systemError
  /-- An `end()` iterator is dereferenced. -/
  | endDereference
  /-- A signed integer overflows. -/
  | intOverflow
  deriving DecidableEq, Repr

/-- The request methods the handlers tell apart; `other` is any further one. -/
inductive Verb where
  | get
  | head
  | post
  | put
  | delete
  | connect
  | options
  | trace
  | patch
  | other (name : Str)
  deriving DecidableEq, Repr

/-- The names of the further methods Beast knows. -/
def otherVerbs : List Str :=
  ["COPY", "LOCK", "MKCOL", "MOVE", "PROPFIND", "PROPPATCH", "SEARCH", "UNLOCK", "BIND", "REBIND",
    "UNBIND", "ACL", "REPORT", "MKACTIVITY", "CHECKOUT", "MERGE", "M-SEARCH", "NOTIFY", "SUBSCRIBE",
    "UNSUBSCRIBE", "PURGE", "MKCALENDAR", "LINK", "UNLINK"].map String.toList

/-- The method as a number of its enumeration, and back: one that Beast does not know loses its name. -/
def Verb.known : Verb → Verb
  | .other name => .other (if otherVerbs.contains name then name else [])
  | method => method

/-- `http::request<http::string_body>`. -/
structure Request where
  method : Verb
  target : Str
  version : ℕ
  fields : List (Str × Str)
  body : Str
  deriving DecidableEq, Repr

/-- A name of a header field, in lower case; the names are compared so. -/
def lower (s : Str) : Str := s.map Char.toLower

/-- `operator[]` on the header: the value of the first field of this name, empty if there is none. -/
def Request.field (req : Request) (name : Str) : Str :=
  ((req.fields.find? fun f => lower f.1 = lower name).map Prod.snd).getD []

/-- `http::response<http::string_body>`. -/
structure Response where
  version : ℕ := 11
  status : ℕ := 200
  contentType : Option Str := none
  contentLength : Option ℕ := none
  body : Str := []
  deriving DecidableEq, Repr

/-- `prepare_payload`. -/
def Response.preparePayload (res : Response) : Response :=
  { res with contentLength := some res.body.length }

/-- The answer a handler gives where it sets everything itself. -/
def Response.fill (res : Response) (status : ℕ) (contentType body : Str) : Response :=
  { res with status := status, contentType := some contentType, body := body }.preparePayload

/-- Also setting the version. -/
def Response.fill11 (res : Response) (status : ℕ) (contentType body : Str) : Response :=
  { res with version := 11 }.fill status contentType body

def textHtml : Str := "text/html".toList

def textPlain : Str := "text/plain".toList

end Kachow.Http.Messages
