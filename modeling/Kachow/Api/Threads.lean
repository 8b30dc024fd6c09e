import Kachow.Api.Handler
import Kachow.Lib.Threads

/-! # Requests as threads

The workers of the server serve their requests at the same time, and nothing locks the files or the map
of a location. Here a request is a thread: each call of the file system is one step, and so is each time
the map is looked up and a set copied from it, a set is written back, or a pair is inserted. This is what
is taken for granted here: nothing in the code makes an access to the `std::map` one step.

How a file is written is left open (`Writing`): as one step (`atOnce`), or as the real file system does it,
where the file is empty at first and the body gets into it byte by byte (`inPieces`). Without a break the
thread is the handler (`alone_responseThread`). -/

namespace Kachow.Api.Threads

open Kachow.Lib.Text Kachow.Lib.Decimal Kachow.Lib.Sets Kachow.Lib.Files Kachow.Lib.Threads
open Kachow.Boost.Paths Kachow.Http.Messages Kachow.Http.Mime Kachow.Disk Kachow.Api.Ids
open Kachow.Api.Handler

/-! ### The map, step by step -/

section Steps
variable {σ : Type}

/-- `find`, and the copy of the set; nothing where `find` gives `end()`. -/
def copyIDs (entity : Str) : EStateM Fault (World σ) (Option IdSet) := fun w =>
  .ok (w.entityIdMap.lookup entity) w

/-- `find`, and the copy of the set, without a look at the iterator. -/
def copyKnownIDs (entity : Str) : EStateM Fault (World σ) IdSet := fun w =>
  match w.entityIdMap.lookup entity with
  | some existingIDs => .ok existingIDs w
  | none => .error .endDereference w

/-- The set is written back. The iterator still points to its pair: no key is ever erased. -/
def writeBack (entity : Str) (IDs : IdSet) : EStateM Fault (World σ) Unit :=
  onIds fun m => m.insert entity IDs

/-- `std::map::insert` of a pair: a key that is there by now keeps its set. -/
def insertPair (m : EntityIdMap) (entity : Str) (IDs : IdSet) : EntityIdMap :=
  match m.lookup entity with
  | some _ => m
  | none => m.insert entity IDs

/-- `get_next_id`. -/
def nextIdThread (entity : Str) : Thread Fault (World σ) ℤ := do
  let existingIDs ← Thread.atomic (copyKnownIDs entity)
  match nextFree existingIDs with
  | none => .fail .intOverflow
  | some id => do
    Thread.atomic (writeBack entity (existingIDs.insert id))
    pure id

/-- `erase_if_exist`. -/
def eraseThread (entity : Str) (id : ℤ) : Thread Fault (World σ) Unit := do
  match ← Thread.atomic (copyIDs entity) with
  | none => pure ()
  | some existingIDs =>
    if id ∈ existingIDs then Thread.atomic (writeBack entity (existingIDs.erase id)) else pure ()

/-- `insert_if_notexist`. -/
def insertThread (entity : Str) (id : ℤ) : Thread Fault (World σ) Unit := do
  match ← Thread.atomic (copyIDs entity) with
  | some existingIDs =>
    if id ∈ existingIDs then pure () else Thread.atomic (writeBack entity (existingIDs.insert id))
  | none => Thread.atomic (onIds fun m => insertPair m entity ((∅ : IdSet).insert id))

theorem alone_nextIdThread (entity : Str) :
    (nextIdThread entity : Thread Fault (World σ) ℤ).alone = takeNextId entity := by
  funext w
  show (nextIdThread entity : Thread Fault (World σ) ℤ).alone.run w = (takeNextId entity).run w
  simp only [nextIdThread, Thread.alone_bind, Thread.alone_atomic, EStateM.run_bind, run_takeNextId,
    getNextId]
  have hcopy : (copyKnownIDs entity).run w = match w.entityIdMap.lookup entity with
      | some existingIDs => .ok existingIDs w
      | none => .error .endDereference w := rfl
  rw [hcopy]
  cases w.entityIdMap.lookup entity with
  | none => rfl
  | some existingIDs =>
    simp only
    cases nextFree existingIDs <;> rfl

theorem alone_eraseThread (entity : Str) (id : ℤ) :
    (eraseThread entity id : Thread Fault (World σ) Unit).alone =
      onIds fun m => eraseIfExist m entity id := by
  funext w
  show (eraseThread entity id : Thread Fault (World σ) Unit).alone.run w =
    .ok () ⟨w.disk, eraseIfExist w.entityIdMap entity id⟩
  have hcopy : (copyIDs entity).run w = .ok (w.entityIdMap.lookup entity) w := rfl
  simp only [eraseThread, Thread.alone_bind, Thread.alone_atomic, EStateM.run_bind, hcopy,
    eraseIfExist]
  cases w.entityIdMap.lookup entity with
  | none => rfl
  | some existingIDs =>
    simp only
    split_ifs
    · rw [Thread.alone_atomic]
      rfl
    · rfl

theorem alone_insertThread (entity : Str) (id : ℤ) :
    (insertThread entity id : Thread Fault (World σ) Unit).alone =
      onIds fun m => insertIfNotexist m entity id := by
  funext w
  show (insertThread entity id : Thread Fault (World σ) Unit).alone.run w =
    .ok () ⟨w.disk, insertIfNotexist w.entityIdMap entity id⟩
  have hcopy : (copyIDs entity).run w = .ok (w.entityIdMap.lookup entity) w := rfl
  simp only [insertThread, Thread.alone_bind, Thread.alone_atomic, EStateM.run_bind, hcopy,
    insertIfNotexist]
  cases hl : w.entityIdMap.lookup entity with
  | some existingIDs =>
    simp only
    split_ifs
    · rfl
    · rw [Thread.alone_atomic]
      rfl
  | none =>
    have hpair : insertPair w.entityIdMap entity ((∅ : IdSet).insert id) =
        w.entityIdMap.insert entity ((∅ : IdSet).insert id) := by
      unfold insertPair
      rw [hl]
    simp only [Thread.alone_atomic, run_onIds, hpair]

end Steps

/-! ### Writing a file -/

/-- A call of the file system, as one step. -/
def call {σ α : Type} (x : EStateM Fault σ α) : Thread Fault (World σ) α := Thread.atomic (onDisk x)

@[simp] theorem alone_call {σ α : Type} (x : EStateM Fault σ α) : (call x).alone = onDisk x :=
  Thread.alone_atomic _

/-- The steps in which a file is written. -/
abbrev Writing (σ : Type) := Path → Str → Thread Fault (World σ) Bool

/-- `write_file` as one step. -/
def atOnce {σ : Type} (file : FileSystem σ) : Writing σ := fun p body => call (file.writeFile p body)

/-- The file that was opened holds `b` by now. If it has been removed, nothing is seen of that. -/
def fillAt (cwd : Loc Str) (t : Tree) (p : Path) (b : Str) : Tree :=
  if isFileAt cwd t p then writeAt cwd t p b else t

/-- The rest of the body is written; `b` is in the file. -/
def fillThread (cwd : Loc Str) (p : Path) : Str → Str → Thread Fault (World Tree) Unit
  | _, [] => pure ()
  | b, c :: rest => do
    call fun t => .ok () (fillAt cwd t p (b ++ [c]))
    fillThread cwd p (b ++ [c]) rest

/-- `RealFileSystem::write_file`: the file is opened, which leaves it empty, and then written. -/
def inPieces (cwd : Loc Str) : Writing Tree := fun p body => do
  let written ← call ((realFileSystem cwd).writeFile p [])
  fillThread cwd p [] body
  pure written

section Pieces
variable {cwd : Loc Str} {t : Tree} {p : Path}

theorem fillAt_writeAt (a b : Str) : fillAt cwd (writeAt cwd t p a) p b = writeAt cwd t p b := by
  unfold fillAt
  cases hl : p.locate t cwd with
  | none =>
    have hsame : ∀ b, writeAt cwd t p b = t := fun b => by
      unfold writeAt
      rw [hl]
    simp only [hsame, ite_self]
  | some l =>
    by_cases hput : t.CanPut l
    · rw [if_pos (isFileAt_writeAt hl hput a), writeAt_of_locate (locate_writeAt a hl),
        writeAt_of_locate hl, writeAt_of_locate hl, FileTree.write_write]
    · have hsame : ∀ b, writeAt cwd t p b = t := fun b => by
        rw [writeAt_of_locate hl]
        unfold FileTree.write
        rw [dif_neg hput]
      simp only [hsame, ite_self]

theorem run_fillThread (m : EntityIdMap) : ∀ rest b : Str,
    (fillThread cwd p b rest).alone.run ⟨writeAt cwd t p b, m⟩ =
      .ok () ⟨writeAt cwd t p (b ++ rest), m⟩
  | [], b => by
    rw [List.append_nil]
    rfl
  | c :: rest, b => by
    have ih := run_fillThread m rest (b ++ [c])
    rw [List.append_cons, ← ih, ← fillAt_writeAt b (b ++ [c])]
    rfl

/-- Piece by piece the same is written as at once. -/
theorem alone_inPieces (cwd : Loc Str) (p : Path) (body : Str) :
    (inPieces cwd p body).alone = onDisk ((realFileSystem cwd).writeFile p body) := by
  funext w
  show (inPieces cwd p body).alone.run w = .ok true ⟨writeAt cwd w.disk p body, w.entityIdMap⟩
  unfold inPieces
  rw [Thread.alone_bind, alone_call, EStateM.run_bind, run_writeFile]
  simp only [Thread.alone_bind, EStateM.run_bind, run_fillThread]
  rfl

end Pieces

/-! ### The methods, step by step -/

section Methods
variable {σ : Type} (h : RequestHandlerAPI) (file : FileSystem σ) (writing : Writing σ) (req : Request)
  (res : Response) (u : ParsedUrl)

/-- Create: `POST`. -/
def createThread : Thread Fault (World σ) (Bool × Response) := do
  if !(u.fullPath.parentPath.same h.basePath) then
    pure (false, setBadRequest res)
  else
    let there ← call (file.exists_ u.fullPath)
    if !there then
      let _ ← call (file.createDirectory u.fullPath)
      Thread.atomic (onIds fun m => insertPair m u.entity ∅)
    let id ← nextIdThread u.entity
    let _ ← writing (u.fullPath.append (intToString id)) req.body
    pure (true, setCreated res id)

/-- Retrieve or list: `GET`. -/
def retrieveThread : Thread Fault (World σ) (Bool × Response) := do
  let there ← call (file.exists_ u.fullPath)
  if u.id = 0 then
    if !there then
      pure (false, setNotfoundRequest res)
    else
      let IDs ← Thread.atomic (copyIDs u.entity)
      pure (true, res.fill 200 textPlain (listResponse u.entity IDs))
  else
    let regular ← if there then call (file.isRegularFile u.fullPath) else pure false
    if !regular then
      eraseThread u.entity u.id
      pure (false, setNotfoundRequest res)
    else
      let body ← call (file.readFile u.fullPath)
      insertThread u.entity u.id
      pure (true, res.fill 200 (extensionToMIME u.fullPath.extension) body)

/-- Update: `PUT`. -/
def updateThread : Thread Fault (World σ) (Bool × Response) := do
  if u.id = 0 ∨ !(u.fullPath.parentPath.parentPath.same h.basePath) then
    pure (false, setBadRequest res)
  else
    let there ← call (file.exists_ u.fullPath.parentPath)
    if !there then
      let _ ← call (file.createDirectory u.fullPath.parentPath)
    let _ ← writing u.fullPath req.body
    insertThread u.entity u.id
    pure (true, setOk res)

/-- Delete: `DELETE`. -/
def removeThread : Thread Fault (World σ) (Bool × Response) := do
  let there ← call (file.exists_ u.fullPath)
  let regular ← if there then call (file.isRegularFile u.fullPath) else pure false
  if !regular then
    pure (false, setNotfoundRequest res)
  else
    let _ ← call (file.remove u.fullPath)
    eraseThread u.entity u.id
    pure (true, setOk res)

/-- `RequestHandlerAPI::get_response`, once the target is parsed. -/
def serveThread : Thread Fault (World σ) (Bool × Response) :=
  match req.method with
  | .post => createThread h file writing req res u
  | .get => retrieveThread file res u
  | .put => updateThread h file writing req res u
  | .delete => removeThread file res u
  | .head | .connect | .options | .trace | .patch => pure (false, setNotAllowed res)
  | .other _ => pure (false, setBadRequest res)

/-- `RequestHandlerAPI::get_response`. -/
def responseThread : Thread Fault (World σ) (Bool × Response) :=
  match h.parseUrlTarget req with
  | .error e => .fail e
  | .ok u => if !u.ok then pure (false, setNotfoundRequest res) else serveThread h file writing req res u

variable {h file writing req res u}

theorem insertPair_empty (m : EntityIdMap) (entity : Str) :
    insertPair m entity ∅ = insertKey m entity := rfl

section Writing
variable (hwriting : ∀ p body, (writing p body).alone = onDisk (file.writeFile p body))
include hwriting

theorem alone_createThread :
    (createThread h file writing req res u).alone = create h file req res u := by
  unfold createThread create
  split_ifs
  · rfl
  · rw [Thread.alone_bind, alone_call]
    refine congrArg (_ >>= ·) (funext fun there => ?_)
    cases there <;>
      simp [alone_nextIdThread, insertPair_empty, hwriting]

omit hwriting in
theorem alone_retrieveThread : (retrieveThread file res u).alone = retrieve file res u := by
  unfold retrieveThread retrieve
  rw [Thread.alone_bind, alone_call]
  refine congrArg (_ >>= ·) (funext fun there => ?_)
  by_cases hid : u.id = 0
  · cases there
    · simp [hid]
    · simp [hid]
      rfl
  · cases there <;> simp [hid, alone_eraseThread, alone_insertThread]

theorem alone_updateThread :
    (updateThread h file writing req res u).alone = update h file req res u := by
  unfold updateThread update
  split_ifs
  · rfl
  · rw [Thread.alone_bind, alone_call]
    refine congrArg (_ >>= ·) (funext fun there => ?_)
    cases there <;> simp [alone_insertThread, hwriting]

omit hwriting in
theorem alone_removeThread : (removeThread file res u).alone = remove file res u := by
  unfold removeThread remove
  rw [Thread.alone_bind, alone_call]
  refine congrArg (_ >>= ·) (funext fun there => ?_)
  cases there <;> simp [alone_eraseThread]

theorem alone_serveThread :
    (serveThread h file writing req res u).alone = serve h file req res u := by
  unfold serveThread serve
  cases req.method with
  | post => exact alone_createThread hwriting
  | get => exact alone_retrieveThread
  | put => exact alone_updateThread hwriting
  | delete => exact alone_removeThread
  | _ => rfl

/-- **Without a break the thread is the handler.** -/
theorem alone_responseThread :
    (responseThread h file writing req res).alone = h.getResponse file req res := by
  funext w
  show _ = (h.getResponse file req res).run w
  rw [run_getResponse]
  unfold responseThread
  cases h.parseUrlTarget req with
  | error e => rfl
  | ok u =>
    cases hok : u.ok
    · simp only [hok, Bool.not_false, if_true, Bool.false_eq_true, if_false]
      rfl
    · simp only [hok, Bool.not_true, Bool.false_eq_true, if_false, if_true, alone_serveThread hwriting]
      rfl

end Writing

end Methods

end Kachow.Api.Threads
