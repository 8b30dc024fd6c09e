import Kachow.Api.Factory
import Kachow.Handlers.Plain
import Kachow.Secure.Handler

/-! # The factories of the handlers

The server has a factory for each location of its configuration. A factory makes a handler for every
request and keeps what its handlers share: for the two kinds of API a root directory and a map of
identifiers. The factories live on a heap; two of them are told apart by their addresses, and the maps
are kept by address (`Memory`). -/

namespace Kachow.Server.Factories

open Kachow.Lib.Text Kachow.Boost.Paths Kachow.Http.Messages Kachow.Disk Kachow.Api.Ids
open Kachow.Api.Handler Kachow.Handlers.Plain Kachow.Secure.Handler

/-- An `Auth`: `TokenAuth` with its client and its key file, or `FakeAuth`. -/
inductive Authorizer where
  | tokenAuth (clientId publicKeyPath : Str)
  | fakeAuth
  deriving DecidableEq, Repr

/-- The classes of factories, with their members. -/
inductive FactoryKind where
  | echo
  | static (rootFilePath : Str)
  | notFound
  | api (rootFilePath : Str)
  | secureAPI (rootFilePath : Str) (authorizer : Authorizer)
  | health
  | sleep
  | login (rootFilePath : Str)
  deriving DecidableEq, Repr

/-- The root directory a factory scans. -/
def apiRoot : FactoryKind → Option Str
  | .api root | .secureAPI root _ => some root
  | _ => none

/-- `RequestHandlerFactory`, and where it lives. -/
structure RequestHandlerFactory where
  kind : FactoryKind
  address : ℕ
  deriving DecidableEq, Repr

/-- What is not part of the server: how a request is written out, and what a token is worth. -/
structure Outside where
  serialize : Request → Str
  tokenAuth : Str → Str → Auth

/-- `get_auth` of an authorizer. -/
def Outside.getAuth (out : Outside) : Authorizer → Auth
  | .tokenAuth clientId publicKeyPath => out.tokenAuth clientId publicKeyPath
  | .fakeAuth => FakeAuth.getAuth

/-- The files, and the maps of the factories. -/
structure Memory (σ : Type) where
  disk : σ
  entityIdMaps : ℕ → EntityIdMap

section Serve
variable {σ α : Type}

/-- A handler that uses the files only. -/
def onFiles (x : EStateM Fault σ α) : EStateM Fault (Memory σ) α := fun s =>
  match x s.disk with
  | .ok a d => .ok a ⟨d, s.entityIdMaps⟩
  | .error e d => .error e ⟨d, s.entityIdMaps⟩

/-- A handler that also uses the map of the factory. -/
def onMap (address : ℕ) (x : EStateM Fault (World σ) α) : EStateM Fault (Memory σ) α := fun s =>
  match x ⟨s.disk, s.entityIdMaps address⟩ with
  | .ok a w => .ok a ⟨w.disk, Function.update s.entityIdMaps address w.entityIdMap⟩
  | .error e w => .error e ⟨w.disk, Function.update s.entityIdMaps address w.entityIdMap⟩

/-- `create` for the location, and `get_response` of the handler it gives. -/
def RequestHandlerFactory.serve (out : Outside) (file : FileSystem σ) (f : RequestHandlerFactory)
    (location : Str) (req : Request) (res : Response) : EStateM Fault (Memory σ) (Bool × Response) :=
  match f.kind with
  | .echo => pure (RequestHandlerEcho.getResponse out.serialize req res)
  | .static root => onFiles (RequestHandlerStatic.getResponse file req res ⟨⟨root⟩, location.length⟩)
  | .notFound => pure (RequestHandlerNotFound.getResponse res)
  | .api root =>
    onMap f.address (RequestHandlerAPI.getResponse ⟨⟨root⟩, location.length⟩ file req res)
  | .secureAPI root authorizer =>
    onMap f.address (serveSecure root location.length (out.getAuth authorizer) file req res)
  | .health => pure (RequestHandlerHealth.getResponse res)
  | .sleep => pure (RequestHandlerSleep.getResponse res)
  | .login root => onFiles (RequestHandlerLogin.getResponse file req res ⟨⟨root⟩⟩)

end Serve

end Kachow.Server.Factories
