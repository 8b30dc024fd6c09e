import Kachow.Handlers.Plain

/-! # The accesses of a request

Which paths a request creates, writes, reads or removes. On a file system that writes down its accesses
a method does what it does without (`record`), and what is written down is given by the request and the
state it meets: `creates`, `retrieves`, `updates`, `removes`. -/

namespace Kachow.Api.Accesses

open Kachow.Lib.Text Kachow.Lib.Decimal Kachow.Lib.Files Kachow.Boost.Paths Kachow.Http.Messages
open Kachow.Http.Mime Kachow.Disk Kachow.Api.Ids Kachow.Api.Handler Kachow.Handlers.Plain

/-- The world, with the accesses so far. -/
def logging (w : World Tree) (log : List Access) : World (Tree × List Access) :=
  ⟨(w.disk, log), w.entityIdMap⟩

/-- How a program ends, with the accesses it has made. -/
def record {α : Type} (log : List Access) :
    EStateM.Result Fault (World Tree) α → EStateM.Result Fault (World (Tree × List Access)) α
  | .ok a w => .ok a (logging w log)
  | .error e w => .error e (logging w log)

@[simp] theorem entityIdMap_logging (w : World Tree) (log : List Access) :
    (logging w log).entityIdMap = w.entityIdMap := rfl

/-! ### One call -/

section Calls
variable {cwd : Loc Str} (w : World Tree) (log : List Access) (p : Path)

@[simp] theorem logged_exists : (onDisk ((logged (realFileSystem cwd)).exists_ p)).run
    (logging w log) = .ok (existsAt cwd w.disk p) (logging w log) := by
  simp [onDisk, logged, withLog, realFileSystem, logging, EStateM.run]

@[simp] theorem logged_isRegularFile : (onDisk ((logged (realFileSystem cwd)).isRegularFile p)).run
    (logging w log) = .ok (isFileAt cwd w.disk p) (logging w log) := by
  simp [onDisk, logged, withLog, realFileSystem, logging, EStateM.run]

@[simp] theorem logged_readFile : (onDisk ((logged (realFileSystem cwd)).readFile p)).run
    (logging w log) = .ok (readAt cwd w.disk p) (logging w (log ++ [.readFile p])) := rfl

@[simp] theorem logged_writeFile (body : Str) :
    (onDisk ((logged (realFileSystem cwd)).writeFile p body)).run (logging w log) =
      .ok true (logging ⟨writeAt cwd w.disk p body, w.entityIdMap⟩ (log ++ [.writeFile p])) := rfl

@[simp] theorem logged_createDirectory :
    (onDisk ((logged (realFileSystem cwd)).createDirectory p)).run (logging w log) =
      record (log ++ [.createDirectory p])
        ((onDisk ((realFileSystem cwd).createDirectory p)).run w) := by
  rw [run_createDirectory]
  simp only [onDisk, logged, withLog, realFileSystem, orThrow, logging, EStateM.run]
  cases mkdirAt cwd w.disk p <;> rfl

@[simp] theorem logged_remove :
    (onDisk ((logged (realFileSystem cwd)).remove p)).run (logging w log) =
      record (log ++ [.remove p]) ((onDisk ((realFileSystem cwd).remove p)).run w) := by
  rw [run_fsRemove]
  simp only [onDisk, logged, withLog, realFileSystem, orThrow, logging, EStateM.run]
  cases removeAt cwd w.disk p <;> rfl

@[simp] theorem logged_onIds (f : EntityIdMap → EntityIdMap) :
    (onIds f).run (logging w log) = .ok () (logging ⟨w.disk, f w.entityIdMap⟩ log) := rfl

theorem logged_takeNextId (entity : Str) : (takeNextId entity).run (logging w log) =
    match getNextId w.entityIdMap entity with
    | .ok (id, m) => .ok id (logging ⟨w.disk, m⟩ log)
    | .error e => .error e (logging w log) := rfl

end Calls

/-! ### The methods -/

section Methods
variable (h : RequestHandlerAPI) (cwd : Loc Str) (req : Request) (res : Response) (u : ParsedUrl)
  (w : World Tree)

/-- The accesses of a `POST`. -/
def creates : List Access :=
  if u.fullPath.parentPath.same h.basePath then
    (if existsAt cwd w.disk u.fullPath then [] else [.createDirectory u.fullPath]) ++
      match madeEntity cwd u w with
      | none => []
      | some (_, m) =>
        match getNextId m u.entity with
        | .error _ => []
        | .ok (id, _) => [.writeFile (u.fullPath.append (intToString id))]
  else []

/-- The accesses of a `GET`. -/
def retrieves : List Access := if u.id ≠ 0 ∧ isObject cwd u w then [.readFile u.fullPath] else []

/-- The accesses of a `PUT`. -/
def updates : List Access :=
  if u.id ≠ 0 ∧ u.fullPath.parentPath.parentPath.same h.basePath then
    (if existsAt cwd w.disk u.fullPath.parentPath then []
      else [.createDirectory u.fullPath.parentPath]) ++
      if (madeDir cwd u w).isSome then [.writeFile u.fullPath] else []
  else []

/-- The accesses of a `DELETE`. -/
def removes : List Access := if isObject cwd u w then [.remove u.fullPath] else []

/-- The accesses of a request. -/
def accesses : List Access :=
  match h.parseUrlTarget req with
  | .error _ => []
  | .ok u =>
    if u.ok then
      match req.method with
      | .post => creates h cwd u w
      | .get => retrieves cwd u w
      | .put => updates h cwd u w
      | .delete => removes cwd u w
      | _ => []
    else []

theorem logged_create (log : List Access) :
    (create h (logged (realFileSystem cwd)) req res u).run (logging w log) =
      record (log ++ creates h cwd u w) ((create h (realFileSystem cwd) req res u).run w) := by
  rw [run_create]
  unfold create creates madeEntity
  by_cases hs : u.fullPath.parentPath.same h.basePath = true
  · by_cases he : existsAt cwd w.disk u.fullPath = true
    · simp only [hs, he, Bool.not_true, Bool.false_eq_true, if_true, if_false, EStateM.run_bind,
        logged_exists, logged_takeNextId]
      cases getNextId w.entityIdMap u.entity <;> simp [record]
    · simp only [hs, he, Bool.not_true, Bool.not_false, Bool.false_eq_true, if_true, if_false,
        EStateM.run_bind, logged_exists, logged_createDirectory, run_createDirectory]
      cases mkdirAt cwd w.disk u.fullPath with
      | none => simp [record]
      | some b =>
        simp only [record, logged_onIds, logged_takeNextId, Option.map_some]
        cases getNextId (insertKey w.entityIdMap u.entity) u.entity <;> simp
  · simp [hs, record]

theorem logged_retrieve (log : List Access) :
    (retrieve (logged (realFileSystem cwd)) res u).run (logging w log) =
      record (log ++ retrieves cwd u w) ((retrieve (realFileSystem cwd) res u).run w) := by
  rw [run_retrieve]
  unfold retrieve retrieves isObject
  by_cases hid : u.id = 0
  · by_cases he : existsAt cwd w.disk u.fullPath = true
    · simp [hid, he, record]
    · simp [hid, he, record]
  · by_cases he : existsAt cwd w.disk u.fullPath = true
    · by_cases hf : isFileAt cwd w.disk u.fullPath = true
      · simp [hid, he, hf, record, -run_onIds]
      · simp [hid, he, hf, record, -run_onIds]
    · simp [hid, he, record, -run_onIds]

theorem logged_update (log : List Access) :
    (update h (logged (realFileSystem cwd)) req res u).run (logging w log) =
      record (log ++ updates h cwd u w) ((update h (realFileSystem cwd) req res u).run w) := by
  rw [run_update]
  unfold update updates madeDir
  by_cases hc : u.id ≠ 0 ∧ u.fullPath.parentPath.parentPath.same h.basePath = true
  · rw [if_pos hc, if_pos hc, if_neg (by simpa using hc)]
    by_cases he : existsAt cwd w.disk u.fullPath.parentPath = true
    · simp [he, record, -run_onIds]
    · simp only [he, Bool.not_false, Bool.false_eq_true, if_true, if_false, EStateM.run_bind,
        logged_exists, logged_createDirectory, run_createDirectory]
      cases mkdirAt cwd w.disk u.fullPath.parentPath with
      | none => simp [record]
      | some b => simp [record, -run_onIds]
  · rw [if_neg hc, if_neg hc, if_pos]
    · simp [record]
    · by_cases hid : u.id = 0
      · exact Or.inl hid
      · exact Or.inr (by simpa [hid] using hc)

theorem logged_fsRemove (log : List Access) :
    (remove (logged (realFileSystem cwd)) res u).run (logging w log) =
      record (log ++ removes cwd u w) ((remove (realFileSystem cwd) res u).run w) := by
  rw [run_remove]
  unfold remove removes isObject
  by_cases he : existsAt cwd w.disk u.fullPath = true
  · by_cases hf : isFileAt cwd w.disk u.fullPath = true
    · simp only [he, hf, Bool.not_true, Bool.and_self, Bool.false_eq_true, if_true, if_false,
        EStateM.run_bind, logged_exists, logged_isRegularFile, logged_remove, run_fsRemove]
      cases removeAt cwd w.disk u.fullPath <;> simp [record, -run_onIds]
    · simp [he, hf, record]
  · simp [he, record]

/-- **A request on a file system that writes down its accesses** is answered as without, and makes
these accesses. -/
theorem logged_getResponse (log : List Access) :
    (h.getResponse (logged (realFileSystem cwd)) req res).run (logging w log) =
      record (log ++ accesses h cwd req w) ((h.getResponse (realFileSystem cwd) req res).run w) := by
  rw [run_getResponse, run_getResponse]
  unfold accesses
  cases h.parseUrlTarget req with
  | error e => simp [record]
  | ok u =>
    cases hok : u.ok with
    | false => simp [record, hok]
    | true =>
      simp only [hok, if_true]
      unfold serve
      cases req.method with
      | post => exact logged_create h cwd req res u w log
      | get => exact logged_retrieve cwd res u w log
      | put => exact logged_update h cwd req res u w log
      | delete => exact logged_fsRemove cwd res u w log
      | _ => simp [record]

end Methods

/-! ### Files given out -/

/-- The accesses of a request for a file. -/
def serves (cwd : Loc Str) (t : Tree) (p : Path) : List Access :=
  if existsAt cwd t p && isFileAt cwd t p then [.readFile p] else []

/-- Giving out a file reads it. -/
theorem logged_serveFile (cwd : Loc Str) (res : Response) (p : Path) (t : Tree) (log : List Access) :
    (serveFile (logged (realFileSystem cwd)) res p).run (t, log) =
      match (serveFile (realFileSystem cwd) res p).run t with
      | .ok o t' => .ok o (t', log ++ serves cwd t p)
      | .error e t' => .error e (t', log ++ serves cwd t p) := by
  have hex : ((logged (realFileSystem cwd)).exists_ p).run (t, log) =
      .ok (existsAt cwd t p) (t, log ++ []) := rfl
  have hreg : ((logged (realFileSystem cwd)).isRegularFile p).run (t, log) =
      .ok (isFileAt cwd t p) (t, log ++ []) := rfl
  have hread : ((logged (realFileSystem cwd)).readFile p).run (t, log) =
      .ok (readAt cwd t p) (t, log ++ [.readFile p]) := rfl
  rw [List.append_nil] at hex hreg
  rw [run_serveFile]
  unfold serveFile serves
  by_cases he : existsAt cwd t p = true
  · by_cases hf : isFileAt cwd t p = true
    · simp [he, hf, hex, hreg, hread]
    · simp [he, hf, hex, hreg]
  · simp [he, hex]

end Kachow.Api.Accesses
