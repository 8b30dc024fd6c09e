import Kachow.Api.Ids
import Kachow.Disk
import Kachow.Http.Mime

/-! # The handler of the API

`RequestHandlerAPI` keeps the objects of an entity as files in a directory of its own:
`base_path/entity/id`. It is stateless but for the file system and the map of identifiers, which all
handlers of one location share (`World`). `getResponse` first cuts the target into the entity and the
identifier (`parseUrlTarget`) and then does what the method asks for.

The theorems `run_create`, `run_retrieve`, `run_update` and `run_remove` say what each method does on
the real file system, in one expression without monadic steps. -/

namespace Kachow.Api.Handler

open Kachow.Lib.Text Kachow.Lib.Decimal Kachow.Lib.Files Kachow.Boost.Paths Kachow.Http.Messages
open Kachow.Http.Mime Kachow.Disk Kachow.Api.Ids

/-- What the handlers of a location share. -/
structure World (σ : Type) where
  disk : σ
  entityIdMap : EntityIdMap

section Steps
variable {σ α : Type}

/-- A call of the file system. -/
def onDisk (x : EStateM Fault σ α) : EStateM Fault (World σ) α := fun w =>
  match x w.disk with
  | .ok a d => .ok a ⟨d, w.entityIdMap⟩
  | .error e d => .error e ⟨d, w.entityIdMap⟩

/-- A change of the map. -/
def onIds (f : EntityIdMap → EntityIdMap) : EStateM Fault (World σ) Unit := fun w =>
  .ok () ⟨w.disk, f w.entityIdMap⟩

/-- `get_next_id` on the map the handlers share. -/
def takeNextId (entity : Str) : EStateM Fault (World σ) ℤ := fun w =>
  match getNextId w.entityIdMap entity with
  | .ok (id, m) => .ok id ⟨w.disk, m⟩
  | .error e => .error e w

/-- A pure computation that may fail. -/
def pureStep (x : Except Fault α) : EStateM Fault (World σ) α := fun w =>
  match x with
  | .ok a => .ok a w
  | .error e => .error e w

end Steps

/-- `RequestHandlerAPI`, without what the handlers of a location share. -/
structure RequestHandlerAPI where
  basePath : Path
  prefixLength : ℕ

/-! ### The target -/

/-- What `parse_url_target` gives: its result, and its three output parameters. -/
structure ParsedUrl where
  ok : Bool
  fullPath : Path
  id : ℤ
  entity : Str
  deriving DecidableEq, Repr

/-- The number after the last separator and the entity before it; `none` where this throws. At
position `0` the length `pos - 1` wraps around and the rest of the string is taken. -/
def splitEntity (url : Str) (pos : ℕ) : Option (ℤ × Str) := do
  let id ← stoi (← substr url (pos + 1))
  let entity ← substr url 1 (if pos = 0 then none else some (pos - 1))
  pure (id, entity)

/-- `parse_url_target` behind the prefix. -/
def parseUrl (basePath : Path) (url : Str) : Except Fault ParsedUrl :=
  if url.head? ≠ some '/' then .ok ⟨false, ⟨[]⟩, 0, []⟩
  else
    let url := if url.getLast? = some '/' then url.dropLast else url
    let fullPath := basePath.append url
    match findLastOf '/' url with
    | none => .ok ⟨false, fullPath, 0, url⟩
    | some pos =>
      match splitEntity url pos with
      | some (id, entity) => .ok ⟨true, fullPath, id, entity⟩
      | none =>
        match substr url 1 with
        | some entity => .ok ⟨true, fullPath, 0, entity⟩
        | none => .error .outOfRange

/-- `parse_url_target`. -/
def RequestHandlerAPI.parseUrlTarget (h : RequestHandlerAPI) (req : Request) :
    Except Fault ParsedUrl :=
  match substr req.target h.prefixLength with
  | some url => parseUrl h.basePath url
  | none => .error .outOfRange

/-! ### The answers -/

/-- `set_notfound_request`. -/
def setNotfoundRequest (res : Response) : Response :=
  res.fill 404 textHtml "<html><h1>404 Not Found</h1></html>".toList

/-- `set_bad_request`. -/
def setBadRequest (res : Response) : Response :=
  res.fill 400 textHtml "<html><h1>400 Bad Request</h1></html>".toList

/-- The answer to a method that is not supported. -/
def setNotAllowed (res : Response) : Response :=
  res.fill 405 textHtml "<html><h1>405 Not Allowed</h1></html>".toList

/-- The body of the answer to a `POST`. -/
def createdBody (id : ℤ) : Str := "\x7b\"id\": ".toList ++ intToString id ++ "\x7d".toList

theorem createdBody_inj {j k : ℤ} (h : createdBody j = createdBody k) : j = k := by
  unfold createdBody at h
  rw [List.append_cancel_right_eq, List.append_cancel_left_eq] at h
  exact intToString_inj h

/-- The answer to a `POST`. The content type is left as it is. -/
def setCreated (res : Response) (id : ℤ) : Response :=
  { res with status := 201, body := createdBody id }.preparePayload

/-- The answer to a `PUT` or a `DELETE`. The content type and the body are left as they are. -/
def setOk (res : Response) : Response := { res with status := 200 }.preparePayload

/-- The body of a list: the identifiers, each with a comma behind it; the last character is cut off
and the bracket closed. -/
def listBody (IDs : IdSet) : Str :=
  let response := IDs.toList.foldl (fun response ID => response ++ intToString ID ++ [',']) ['[']
  response.dropLast ++ [']']

/-- The body of a list, by the entry of the map. -/
def listResponse (entity : Str) : Option IdSet → Str
  | some IDs => listBody IDs
  | none => "Entity: ".toList ++ entity ++ " is currently empty!".toList

/-! ### The methods -/

section Methods
variable {σ : Type} (h : RequestHandlerAPI) (file : FileSystem σ) (req : Request) (res : Response)
  (u : ParsedUrl)

/-- Create: `POST`. -/
def create : EStateM Fault (World σ) (Bool × Response) := do
  if !(u.fullPath.parentPath.same h.basePath) then
    pure (false, setBadRequest res)
  else
    let there ← onDisk (file.exists_ u.fullPath)
    if !there then
      let _ ← onDisk (file.createDirectory u.fullPath)
      onIds fun m => insertKey m u.entity
    let id ← takeNextId u.entity
    let _ ← onDisk (file.writeFile (u.fullPath.append (intToString id)) req.body)
    pure (true, setCreated res id)

/-- Retrieve or list: `GET`. -/
def retrieve : EStateM Fault (World σ) (Bool × Response) := do
  let there ← onDisk (file.exists_ u.fullPath)
  if u.id = 0 then
    if !there then
      pure (false, setNotfoundRequest res)
    else
      let w ← get
      pure (true, res.fill 200 textPlain (listResponse u.entity (w.entityIdMap.lookup u.entity)))
  else
    let regular ← if there then onDisk (file.isRegularFile u.fullPath) else pure false
    if !regular then
      onIds fun m => eraseIfExist m u.entity u.id
      pure (false, setNotfoundRequest res)
    else
      let body ← onDisk (file.readFile u.fullPath)
      onIds fun m => insertIfNotexist m u.entity u.id
      pure (true, res.fill 200 (extensionToMIME u.fullPath.extension) body)

/-- Update: `PUT`. -/
def update : EStateM Fault (World σ) (Bool × Response) := do
  if u.id = 0 ∨ !(u.fullPath.parentPath.parentPath.same h.basePath) then
    pure (false, setBadRequest res)
  else
    let there ← onDisk (file.exists_ u.fullPath.parentPath)
    if !there then
      let _ ← onDisk (file.createDirectory u.fullPath.parentPath)
    let _ ← onDisk (file.writeFile u.fullPath req.body)
    onIds fun m => insertIfNotexist m u.entity u.id
    pure (true, setOk res)

/-- Delete: `DELETE`. -/
def remove : EStateM Fault (World σ) (Bool × Response) := do
  let there ← onDisk (file.exists_ u.fullPath)
  let regular ← if there then onDisk (file.isRegularFile u.fullPath) else pure false
  if !regular then
    pure (false, setNotfoundRequest res)
  else
    let _ ← onDisk (file.remove u.fullPath)
    onIds fun m => eraseIfExist m u.entity u.id
    pure (true, setOk res)

/-- `RequestHandlerAPI::get_response`, once the target is parsed. -/
def serve : EStateM Fault (World σ) (Bool × Response) :=
  match req.method with
  | .post => create h file req res u
  | .get => retrieve file res u
  | .put => update h file req res u
  | .delete => remove file res u
  | .head | .connect | .options | .trace | .patch => pure (false, setNotAllowed res)
  | .other _ => pure (false, setBadRequest res)

/-- `RequestHandlerAPI::get_response`. -/
def RequestHandlerAPI.getResponse : EStateM Fault (World σ) (Bool × Response) := do
  let u ← pureStep (h.parseUrlTarget req)
  if !u.ok then pure (false, setNotfoundRequest res)
  else serve h file req res u

end Methods

theorem run_onDisk {σ α : Type} (x : EStateM Fault σ α) (w : World σ) : (onDisk x).run w =
    match x.run w.disk with
    | .ok a d => .ok a ⟨d, w.entityIdMap⟩
    | .error e d => .error e ⟨d, w.entityIdMap⟩ := by
  cases hx : x w.disk <;> simp [onDisk, EStateM.run, hx]

/-! ### The methods on the real file system -/

section Steps
variable {σ α : Type} (cwd : Loc Str) (w : World Tree) (p : Path) (body : Str)

@[simp] theorem run_exists : (onDisk ((realFileSystem cwd).exists_ p)).run w =
    .ok (existsAt cwd w.disk p) w := rfl

@[simp] theorem run_isRegularFile : (onDisk ((realFileSystem cwd).isRegularFile p)).run w =
    .ok (isFileAt cwd w.disk p) w := rfl

@[simp] theorem run_readFile : (onDisk ((realFileSystem cwd).readFile p)).run w =
    .ok (readAt cwd w.disk p) w := rfl

@[simp] theorem run_writeFile : (onDisk ((realFileSystem cwd).writeFile p body)).run w =
    .ok true ⟨writeAt cwd w.disk p body, w.entityIdMap⟩ := rfl

@[simp] theorem run_createDirectory : (onDisk ((realFileSystem cwd).createDirectory p)).run w =
    match mkdirAt cwd w.disk p with
    | some (b, t) => .ok b ⟨t, w.entityIdMap⟩
    | none => .error .filesystemError w := by
  simp only [onDisk, realFileSystem, orThrow, EStateM.run]
  cases mkdirAt cwd w.disk p <;> rfl

@[simp] theorem run_fsRemove : (onDisk ((realFileSystem cwd).remove p)).run w =
    match removeAt cwd w.disk p with
    | some (b, t) => .ok b ⟨t, w.entityIdMap⟩
    | none => .error .filesystemError w := by
  simp only [onDisk, realFileSystem, orThrow, EStateM.run]
  cases removeAt cwd w.disk p <;> rfl

@[simp] theorem run_onIds (w : World σ) (f : EntityIdMap → EntityIdMap) :
    (onIds f).run w = .ok () ⟨w.disk, f w.entityIdMap⟩ := rfl

@[simp] theorem run_takeNextId (w : World σ) (entity : Str) : (takeNextId entity).run w =
    match getNextId w.entityIdMap entity with
    | .ok (id, m) => .ok id ⟨w.disk, m⟩
    | .error e => .error e w := rfl

@[simp] theorem run_pureStep (w : World σ) (x : Except Fault α) : (pureStep x).run w =
    match x with
    | .ok a => .ok a w
    | .error e => .error e w := rfl

end Steps

section Real
variable (h : RequestHandlerAPI) (cwd : Loc Str) (req : Request) (res : Response) (u : ParsedUrl)
  (w : World Tree)

/-- The tree and the map once a `POST` has made its entity. -/
def madeEntity : Option (Tree × EntityIdMap) :=
  if existsAt cwd w.disk u.fullPath then some (w.disk, w.entityIdMap)
  else (mkdirAt cwd w.disk u.fullPath).map fun b => (b.2, insertKey w.entityIdMap u.entity)

/-- The tree once a `PUT` has made the directory of its entity. -/
def madeDir : Option Tree :=
  if existsAt cwd w.disk u.fullPath.parentPath then some w.disk
  else (mkdirAt cwd w.disk u.fullPath.parentPath).map Prod.snd

/-- The path is a regular file. -/
def isObject : Bool := existsAt cwd w.disk u.fullPath && isFileAt cwd w.disk u.fullPath

theorem run_create : (create h (realFileSystem cwd) req res u).run w =
    if u.fullPath.parentPath.same h.basePath then
      match madeEntity cwd u w with
      | none => .error .filesystemError w
      | some (t, m) =>
        match getNextId m u.entity with
        | .error e => .error e ⟨t, m⟩
        | .ok (id, m') => .ok (true, setCreated res id)
            ⟨writeAt cwd t (u.fullPath.append (intToString id)) req.body, m'⟩
    else .ok (false, setBadRequest res) w := by
  unfold create madeEntity
  by_cases hs : u.fullPath.parentPath.same h.basePath = true
  · by_cases he : existsAt cwd w.disk u.fullPath = true
    · simp only [hs, he, Bool.not_true, Bool.false_eq_true, if_true, if_false, EStateM.run_bind,
        run_exists, run_takeNextId]
      cases getNextId w.entityIdMap u.entity <;> simp
    · simp only [hs, he, Bool.not_true, Bool.not_false, Bool.false_eq_true, if_true, if_false,
        EStateM.run_bind, run_exists, run_createDirectory]
      cases mkdirAt cwd w.disk u.fullPath with
      | none => rfl
      | some b =>
        simp only [run_onIds, run_takeNextId, Option.map_some]
        cases getNextId (insertKey w.entityIdMap u.entity) u.entity <;> simp
  · simp [hs]

theorem run_retrieve : (retrieve (realFileSystem cwd) res u).run w =
    if u.id = 0 then
      if existsAt cwd w.disk u.fullPath then
        .ok (true, res.fill 200 textPlain (listResponse u.entity (w.entityIdMap.lookup u.entity))) w
      else .ok (false, setNotfoundRequest res) w
    else if isObject cwd u w then
      .ok (true, res.fill 200 (extensionToMIME u.fullPath.extension) (readAt cwd w.disk u.fullPath))
        ⟨w.disk, insertIfNotexist w.entityIdMap u.entity u.id⟩
    else .ok (false, setNotfoundRequest res) ⟨w.disk, eraseIfExist w.entityIdMap u.entity u.id⟩ := by
  unfold retrieve isObject
  by_cases hid : u.id = 0
  · by_cases he : existsAt cwd w.disk u.fullPath = true
    · simp [hid, he]
    · simp [hid, he]
  · by_cases he : existsAt cwd w.disk u.fullPath = true
    · by_cases hf : isFileAt cwd w.disk u.fullPath = true
      · simp [hid, he, hf]
      · simp [hid, he, hf]
    · simp [hid, he]

theorem run_update : (update h (realFileSystem cwd) req res u).run w =
    if u.id ≠ 0 ∧ u.fullPath.parentPath.parentPath.same h.basePath then
      match madeDir cwd u w with
      | none => .error .filesystemError w
      | some t => .ok (true, setOk res)
          ⟨writeAt cwd t u.fullPath req.body, insertIfNotexist w.entityIdMap u.entity u.id⟩
    else .ok (false, setBadRequest res) w := by
  unfold update madeDir
  by_cases hc : u.id ≠ 0 ∧ u.fullPath.parentPath.parentPath.same h.basePath = true
  · rw [if_pos hc, if_neg (by simpa using hc)]
    by_cases he : existsAt cwd w.disk u.fullPath.parentPath = true
    · simp [he]
    · simp only [he, Bool.not_false, Bool.false_eq_true, if_true, if_false, EStateM.run_bind,
        run_exists, run_createDirectory]
      cases mkdirAt cwd w.disk u.fullPath.parentPath with
      | none => rfl
      | some b => simp
  · rw [if_neg hc, if_pos]
    · rfl
    · by_cases hid : u.id = 0
      · exact Or.inl hid
      · exact Or.inr (by simpa [hid] using hc)

theorem run_remove : (remove (realFileSystem cwd) res u).run w =
    if isObject cwd u w then
      match removeAt cwd w.disk u.fullPath with
      | none => .error .filesystemError w
      | some (_, t) => .ok (true, setOk res) ⟨t, eraseIfExist w.entityIdMap u.entity u.id⟩
    else .ok (false, setNotfoundRequest res) w := by
  unfold remove isObject
  by_cases he : existsAt cwd w.disk u.fullPath = true
  · by_cases hf : isFileAt cwd w.disk u.fullPath = true
    · simp only [he, hf, Bool.not_true, Bool.and_self, Bool.false_eq_true, if_true, if_false,
        EStateM.run_bind, run_exists, run_isRegularFile, run_fsRemove]
      cases removeAt cwd w.disk u.fullPath with
      | none => rfl
      | some b => simp
    · simp [he, hf]
  · simp [he]

/-! ### What a successful request has done -/

variable {h cwd req res u w} {o : Bool × Response} {w' : World Tree}

theorem create_ok (hrun : (create h (realFileSystem cwd) req res u).run w = .ok o w') :
    u.fullPath.parentPath.same h.basePath = false ∧ o = (false, setBadRequest res) ∧ w' = w ∨
    u.fullPath.parentPath.same h.basePath = true ∧ ∃ t m IDs id,
      madeEntity cwd u w = some (t, m) ∧ m.lookup u.entity = some IDs ∧ nextFree IDs = some id ∧
      o = (true, setCreated res id) ∧
      w' = ⟨writeAt cwd t (u.fullPath.append (intToString id)) req.body,
        m.insert u.entity (IDs.insert id)⟩ := by
  rw [run_create] at hrun
  split_ifs at hrun with hs
  · right
    cases hm : madeEntity cwd u w with
    | none => simp [hm] at hrun
    | some tm =>
      obtain ⟨t, m⟩ := tm
      cases hid : getNextId m u.entity with
      | error e => simp [hm, hid] at hrun
      | ok r =>
        obtain ⟨id, m'⟩ := r
        obtain ⟨IDs, h1, h2, rfl⟩ := getNextId_ok hid
        simp only [hm, hid, EStateM.Result.ok.injEq] at hrun
        exact ⟨hs, t, m, IDs, id, rfl, h1, h2, hrun.1.symm, hrun.2.symm⟩
  · left
    simp only [EStateM.Result.ok.injEq] at hrun
    exact ⟨by simpa using hs, hrun.1.symm, hrun.2.symm⟩

theorem update_ok (hrun : (update h (realFileSystem cwd) req res u).run w = .ok o w') :
    o = (false, setBadRequest res) ∧ w' = w ∨
    u.id ≠ 0 ∧ u.fullPath.parentPath.parentPath.same h.basePath = true ∧
      ∃ t, madeDir cwd u w = some t ∧ o = (true, setOk res) ∧
        w' = ⟨writeAt cwd t u.fullPath req.body, insertIfNotexist w.entityIdMap u.entity u.id⟩ := by
  rw [run_update] at hrun
  split_ifs at hrun with hs
  · right
    cases hm : madeDir cwd u w with
    | none => simp [hm] at hrun
    | some t =>
      simp only [hm, EStateM.Result.ok.injEq] at hrun
      exact ⟨hs.1, hs.2, t, rfl, hrun.1.symm, hrun.2.symm⟩
  · left
    simp only [EStateM.Result.ok.injEq] at hrun
    exact ⟨hrun.1.symm, hrun.2.symm⟩

/-- Making an entity adds at most its directory and its key. -/
theorem madeEntity_some {t : Tree} {m : EntityIdMap} (h : madeEntity cwd u w = some (t, m)) :
    (∀ l, t.node l = w.disk.node l ∨
      l = u.fullPath.resolve cwd ∧ t.node l = some .dir ∧ w.disk.isFile l = false) ∧
    (∀ l, w.disk.isDir l = true → t.isDir l = true) ∧
    (m = w.entityIdMap ∨ m = insertKey w.entityIdMap u.entity) := by
  unfold madeEntity at h
  split_ifs at h with he
  · obtain ⟨rfl, rfl⟩ := Prod.mk.inj (Option.some.inj h)
    exact ⟨fun _ => Or.inl rfl, fun _ => id, Or.inl rfl⟩
  · obtain ⟨b, hb, hbt⟩ := Option.map_eq_some_iff.mp h
    obtain ⟨rfl, rfl⟩ := Prod.mk.inj hbt
    exact ⟨node_mkdirAt hb, fun _ => isDir_mkdirAt hb, Or.inr rfl⟩

/-- Making a directory adds at most this directory. -/
theorem madeDir_some {t : Tree} (h : madeDir cwd u w = some t) :
    (∀ l, t.node l = w.disk.node l ∨
      l = u.fullPath.parentPath.resolve cwd ∧ t.node l = some .dir ∧ w.disk.isFile l = false) ∧
    ∀ l, w.disk.isDir l = true → t.isDir l = true := by
  unfold madeDir at h
  split_ifs at h with he
  · obtain rfl := Option.some.inj h
    exact ⟨fun _ => Or.inl rfl, fun _ => id⟩
  · obtain ⟨b, hb, rfl⟩ := Option.map_eq_some_iff.mp h
    exact ⟨node_mkdirAt hb, fun _ => isDir_mkdirAt hb⟩

end Real

theorem run_getResponse {σ : Type} (h : RequestHandlerAPI) (file : FileSystem σ) (req : Request)
    (res : Response) (w : World σ) : (h.getResponse file req res).run w =
      match h.parseUrlTarget req with
      | .error e => .error e w
      | .ok u => if u.ok then (serve h file req res u).run w
          else .ok (false, setNotfoundRequest res) w := by
  simp only [RequestHandlerAPI.getResponse, EStateM.run_bind, run_pureStep]
  cases h.parseUrlTarget req with
  | error e => rfl
  | ok u => cases hok : u.ok <;> simp [hok]

end Kachow.Api.Handler
