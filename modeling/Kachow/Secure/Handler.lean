import Kachow.Api.Handler

/-! # The handler of the API with users

`SecureRequestHandlerAPI` stands in front of two handlers of the API, one for the private users and one
for the public ones, each with a directory of its own under the data path; the map of identifiers they
share. A private user's name is written in front of the entity the target names (`retarget`), so that
the entities of the users differ. Without a valid token the answer is a `401`.

The handler is made anew for every request, and makes the two directories if they are missing. -/

namespace Kachow.Secure.Handler

open Kachow.Lib.Text Kachow.Lib.Files Kachow.Boost.Paths Kachow.Http.Messages Kachow.Disk
open Kachow.Api.Handler

/-- `auth_level`. -/
inductive AuthLevel where
  | noAuth
  | publicAuth
  | privateAuth
  deriving DecidableEq, Repr

/-- `Auth`: the level of a token, and the user it sets. -/
abbrev Auth := Str → AuthLevel × Str

/-- `FakeAuth::get_auth`. -/
def FakeAuth.getAuth : Auth := fun idToken =>
  if idToken = "PRIVAUTH1".toList then (.privateAuth, "priv1".toList)
  else if idToken = "PRIVAUTH2".toList then (.privateAuth, "priv2".toList)
  else if idToken = "PUBAUTH1".toList then (.publicAuth, "pub1".toList)
  else (.noAuth, [])

/-- `SecureRequestHandlerAPI`. -/
structure SecureRequestHandlerAPI where
  baseRequestHandlerPriv : RequestHandlerAPI
  baseRequestHandlerPub : RequestHandlerAPI
  authorizer : Auth
  prefixLength : ℕ

/-- The handlers behind the constructor of `SecureRequestHandlerAPI`. -/
def secureHandler (dataPath : Str) (prefixLength : ℕ) (authorizer : Auth) :
    SecureRequestHandlerAPI where
  baseRequestHandlerPriv := ⟨⟨dataPath ++ "/priv".toList⟩, prefixLength⟩
  baseRequestHandlerPub := ⟨⟨dataPath ++ "/pub".toList⟩, prefixLength⟩
  authorizer := authorizer
  prefixLength := prefixLength

section Methods
variable {σ : Type}

/-- A directory is made if there is nothing. -/
def ensure (file : FileSystem σ) (p : Path) : EStateM Fault σ Unit := do
  let there ← file.exists_ p
  if !there then
    let _ ← file.createDirectory p

/-- The constructor of `SecureRequestHandlerAPI`. -/
def SecureRequestHandlerAPI.new (dataPath : Str) (prefixLength : ℕ) (authorizer : Auth)
    (file : FileSystem σ) : EStateM Fault σ SecureRequestHandlerAPI := do
  ensure file ⟨dataPath ++ "/priv".toList⟩
  ensure file ⟨dataPath ++ "/pub".toList⟩
  pure (secureHandler dataPath prefixLength authorizer)

/-- The token: what follows the seven characters of `Bearer `. -/
def tokenOf (req : Request) : Str :=
  let authField := req.field "Authorization".toList
  if 7 < authField.length then authField.drop 7 else []

/-- The target with the user's name in front of the entity. -/
def newTarget (prefixLength : ℕ) (userId target : Str) : Str :=
  target.take (prefixLength + 1) ++ userId ++ ['_'] ++ target.drop (prefixLength + 1)

/-- The request that is passed on for a private user, without header fields. -/
def retarget (prefixLength : ℕ) (userId : Str) (req : Request) : Request :=
  ⟨req.method.known, newTarget prefixLength userId req.target, req.version, [], req.body⟩

/-- The answer without a valid token. -/
def setUnauthorized (res : Response) (body : Str) : Response := res.fill11 401 textPlain body

/-- `SecureRequestHandlerAPI::get_response`. -/
def SecureRequestHandlerAPI.getResponse (h : SecureRequestHandlerAPI) (file : FileSystem σ)
    (req : Request) (res : Response) : EStateM Fault (World σ) (Bool × Response) :=
  if tokenOf req = [] then pure (true, setUnauthorized res "No token found".toList)
  else
    match h.authorizer (tokenOf req) with
    | (.privateAuth, userId) =>
      if req.target.length ≤ h.prefixLength + 1 then h.baseRequestHandlerPriv.getResponse file req res
      else h.baseRequestHandlerPriv.getResponse file (retarget h.prefixLength userId req) res
    | (.publicAuth, _) => h.baseRequestHandlerPub.getResponse file req res
    | (.noAuth, _) => pure (true, setUnauthorized res "Invalid token".toList)

/-- A request to a location of `SecureAPIHandlerFactory`: its handler is made, and answers. -/
def serveSecure (dataPath : Str) (prefixLength : ℕ) (authorizer : Auth) (file : FileSystem σ)
    (req : Request) (res : Response) : EStateM Fault (World σ) (Bool × Response) := do
  let h ← onDisk (SecureRequestHandlerAPI.new dataPath prefixLength authorizer file)
  h.getResponse file req res

end Methods

/-! ### Who asks -/

/-- Who sends a request. All public users are one. -/
inductive Principal where
  | unauthenticated
  | publicUser
  | user (userId : Str)
  deriving DecidableEq, Repr

/-- Who sends a request, by its token. -/
def principalOf (authorizer : Auth) (req : Request) : Principal :=
  if tokenOf req = [] then .unauthenticated
  else
    match authorizer (tokenOf req) with
    | (.privateAuth, userId) => .user userId
    | (.publicAuth, _) => .publicUser
    | (.noAuth, _) => .unauthenticated

/-- The header fields say who sends a request. -/
theorem principalOf_congr {authorizer : Auth} {req req' : Request} (h : req.fields = req'.fields) :
    principalOf authorizer req = principalOf authorizer req' := by
  unfold principalOf tokenOf Request.field
  rw [h]

/-- A request with nothing but header fields. -/
def withFields (fields : List (Str × Str)) : Request := ⟨.get, [], 11, fields, []⟩

/-- **What a request is answered with, by its sender.** -/
theorem getResponse_eq {σ : Type} (dataPath : Str) (prefixLength : ℕ) (authorizer : Auth)
    (file : FileSystem σ) (req : Request) (res : Response) :
    (secureHandler dataPath prefixLength authorizer).getResponse file req res =
      match principalOf authorizer req with
      | .user userId =>
        if req.target.length ≤ prefixLength + 1 then
          RequestHandlerAPI.getResponse ⟨⟨dataPath ++ "/priv".toList⟩, prefixLength⟩ file req res
        else RequestHandlerAPI.getResponse ⟨⟨dataPath ++ "/priv".toList⟩, prefixLength⟩ file
          (retarget prefixLength userId req) res
      | .publicUser =>
        RequestHandlerAPI.getResponse ⟨⟨dataPath ++ "/pub".toList⟩, prefixLength⟩ file req res
      | .unauthenticated => pure (true, setUnauthorized res
          (if tokenOf req = [] then "No token found".toList else "Invalid token".toList)) := by
  unfold SecureRequestHandlerAPI.getResponse principalOf secureHandler
  by_cases ht : tokenOf req = []
  · simp only [ht, if_true]
  · simp only [ht, if_false]
    obtain ⟨level, userId⟩ := authorizer (tokenOf req)
    cases level <;> rfl

/-! ### The two directories -/

section Areas
variable {cwd B : Loc Str} {t : Tree} {dataPath : Str}

/-- A directory of the data path is one level below it. -/
theorem locate_area {x : Str} (hl : Path.locate t cwd ⟨dataPath⟩ = some B) (hd : t.isDir B = true)
    (hx : Path.comps ⟨'/' :: x⟩ = [.name x]) :
    Path.locate t cwd ⟨dataPath ++ '/' :: x⟩ = some (B ++ [x]) := by
  have h := locate_append_slash hl x
  rw [append_slash, hx, FileTree.locate, if_pos hd] at h
  exact h

theorem locate_priv (hl : Path.locate t cwd ⟨dataPath⟩ = some B) (hd : t.isDir B = true) :
    Path.locate t cwd ⟨dataPath ++ "/priv".toList⟩ = some (B ++ ["priv".toList]) :=
  @locate_area _ _ _ _ "priv".toList hl hd (by decide)

theorem locate_pub (hl : Path.locate t cwd ⟨dataPath⟩ = some B) (hd : t.isDir B = true) :
    Path.locate t cwd ⟨dataPath ++ "/pub".toList⟩ = some (B ++ ["pub".toList]) :=
  @locate_area _ _ _ _ "pub".toList hl hd (by decide)

/-- A directory that is missing is made, and nothing else is changed. -/
theorem run_ensure {p : Path} {l : Loc Str} (hl : p.locate t cwd = some l) :
    ∃ t', (ensure (realFileSystem cwd) p).run t = .ok () t' ∧
      ∀ k, t'.node k = if k = l ∧ t.node k = none then some .dir else t.node k := by
  have hex : ((realFileSystem cwd).exists_ p).run t = .ok (existsAt cwd t p) t := rfl
  unfold ensure
  cases hn : existsAt cwd t p with
  | true =>
    rw [EStateM.run_bind, hex, hn]
    refine ⟨t, rfl, fun k => ?_⟩
    rw [existsAt_of_locate hl] at hn
    rw [if_neg]
    rintro ⟨rfl, hnone⟩
    simp [hnone] at hn
  | false =>
    have hnone : t.node l = none := by
      rw [existsAt_of_locate hl] at hn
      simpa using hn
    have hput := canPut_of_locate hl hnone
    have hmk : ((realFileSystem cwd).createDirectory p).run t = .ok true (t.put l .dir hput) := by
      have hat : mkdirAt cwd t p = some (true, t.put l .dir hput) := by
        rw [mkdirAt_of_locate hl, FileTree.mkdir_of_canPut hput hnone]
      simp only [realFileSystem, orThrow, EStateM.run, hat]
    refine ⟨t.put l .dir hput, ?_, fun k => ?_⟩
    · simp [hex, hn, hmk]
    · rw [FileTree.node_put]
      by_cases hk : k = l
      · simp [hk, hnone]
      · simp [hk]

/-- **The constructor** makes the directories that are missing, and changes nothing else. -/
theorem run_new (hl : Path.locate t cwd ⟨dataPath⟩ = some B) (hd : t.isDir B = true)
    (prefixLength : ℕ) (authorizer : Auth) :
    ∃ t', (SecureRequestHandlerAPI.new dataPath prefixLength authorizer (realFileSystem cwd)).run t =
        .ok (secureHandler dataPath prefixLength authorizer) t' ∧
      ∀ k, t'.node k =
        if (k = B ++ ["priv".toList] ∨ k = B ++ ["pub".toList]) ∧ t.node k = none then some .dir
        else t.node k := by
  obtain ⟨t₁, hrun₁, hnode₁⟩ := run_ensure (locate_priv hl hd)
  have hdir : ∀ l, t.isDir l = true → t₁.isDir l = true := fun l hdl => by
    rw [FileTree.isDir_iff] at hdl ⊢
    rw [hnode₁, if_neg (by simp [hdl]), hdl]
  obtain ⟨t₂, hrun₂, hnode₂⟩ := run_ensure (locate_pub (path_locate_mono hdir hl) (hdir B hd))
  refine ⟨t₂, ?_, fun k => ?_⟩
  · unfold SecureRequestHandlerAPI.new
    simp only [EStateM.run_bind, hrun₁, hrun₂]
    rfl
  · rw [hnode₂, hnode₁]
    generalize B ++ ["priv".toList] = priv
    generalize B ++ ["pub".toList] = pub
    by_cases hn : t.node k = none
    · rw [hn]
      by_cases h1 : k = priv
      · simp [h1]
      · simp [h1]
    · simp [hn]

end Areas

end Kachow.Secure.Handler
