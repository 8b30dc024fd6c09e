import Kachow.Api.Handler

/-! # The handlers without data of their own

Four of them always give the same kind of answer (`RequestHandlerEcho`, `RequestHandlerHealth`,
`RequestHandlerNotFound`, `RequestHandlerSleep`). The other two give out files, and only to a `GET`:
`RequestHandlerStatic` the file the target names, `RequestHandlerLogin` always the same one. They call
Boost directly, and what they do there is what `FileSystem` does. -/

namespace Kachow.Handlers.Plain

open Kachow.Lib.Text Kachow.Lib.Files Kachow.Boost.Paths Kachow.Http.Messages Kachow.Http.Mime
open Kachow.Disk
open Kachow.Api.Handler (setNotfoundRequest setBadRequest setNotAllowed)

/-! ### Fixed answers -/

/-- `RequestHandlerEcho::get_response`. How a request is written out is left open. -/
def RequestHandlerEcho.getResponse (serialize : Request → Str) (req : Request) (res : Response) :
    Bool × Response :=
  (true, res.fill11 200 textPlain (serialize req))

/-- `RequestHandlerHealth::get_response`. -/
def RequestHandlerHealth.getResponse (res : Response) : Bool × Response :=
  (true, res.fill11 200 textPlain "OK".toList)

/-- `RequestHandlerNotFound::get_response`. -/
def RequestHandlerNotFound.getResponse (res : Response) : Bool × Response :=
  (true, res.fill11 404 textHtml "<html><h1>404 Not Found</h1></html>".toList)

/-- `RequestHandlerSleep::get_response`, after the second it sleeps. -/
def RequestHandlerSleep.getResponse (res : Response) : Bool × Response :=
  (true, res.fill11 200 textHtml "<html><h1>Slept for 1 second</h1></html>".toList)

/-! ### Files -/

section Files
variable {σ : Type} (file : FileSystem σ) (req : Request) (res : Response)

/-- The answer to a method other than `GET`. -/
def refuse (method : Verb) : Response :=
  match method with
  | .other _ => setBadRequest res
  | _ => setNotAllowed res

/-- The contents of a regular file, with the content type of its extension. -/
def serveFile (fullPath : Path) : EStateM Fault σ (Bool × Response) := do
  let there ← file.exists_ fullPath
  let regular ← if there then file.isRegularFile fullPath else pure false
  if !regular then
    pure (false, setNotfoundRequest res)
  else
    let body ← file.readFile fullPath
    pure (true, res.fill 200 (extensionToMIME fullPath.extension) body)

/-- `RequestHandlerStatic`. -/
structure RequestHandlerStatic where
  basePath : Path
  prefixLength : ℕ

/-- `RequestHandlerStatic::get_response`. -/
def RequestHandlerStatic.getResponse (h : RequestHandlerStatic) :
    EStateM Fault σ (Bool × Response) :=
  match req.method with
  | .get =>
    match substr req.target h.prefixLength with
    | some url => serveFile file res (h.basePath.append url)
    | none => throw .outOfRange
  | method => pure (false, refuse res method)

/-- `RequestHandlerLogin`. -/
structure RequestHandlerLogin where
  basePath : Path

/-- `login_path`. -/
def loginPath : Str := "/login.html".toList

/-- `RequestHandlerLogin::get_response`. -/
def RequestHandlerLogin.getResponse (h : RequestHandlerLogin) : EStateM Fault σ (Bool × Response) :=
  match req.method with
  | .get => serveFile file res (h.basePath.append loginPath)
  | method => pure (false, refuse res method)

end Files

/-! ### On the real file system -/

section Real
variable (cwd : Loc Str) (res : Response) (p : Path) (t : Tree)

/-- What `serveFile` answers, by what is in the tree. -/
theorem run_serveFile : (serveFile (realFileSystem cwd) res p).run t =
    if existsAt cwd t p && isFileAt cwd t p then
      .ok (true, res.fill 200 (extensionToMIME p.extension) (readAt cwd t p)) t
    else .ok (false, setNotfoundRequest res) t := by
  have hex : ((realFileSystem cwd).exists_ p).run t = .ok (existsAt cwd t p) t := rfl
  have hreg : ((realFileSystem cwd).isRegularFile p).run t = .ok (isFileAt cwd t p) t := rfl
  have hread : ((realFileSystem cwd).readFile p).run t = .ok (readAt cwd t p) t := rfl
  unfold serveFile
  by_cases he : existsAt cwd t p = true
  · by_cases hf : isFileAt cwd t p = true
    · simp [he, hf, hex, hreg, hread]
    · simp [he, hf, hex, hreg]
  · simp [he, hex]

end Real

end Kachow.Handlers.Plain
