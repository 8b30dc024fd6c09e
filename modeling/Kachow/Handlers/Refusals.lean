import Kachow.Api.Target
import Kachow.Handlers.Plain
import Kachow.Lib.Runs
import Kachow.Secure.Handler

/-! # When a handler throws

A call of the operating system may fail for another reason than that there is no such file: a name is
too long, a directory may not be searched or written, the file system is read-only. `exists`,
`is_regular_file`, `create_directory` and `remove` then throw, and the streams fail silently
(`refusing`). No handler catches the exception.

Each call is refused on its own: a directory may be searched in which none can be made. A handler makes
few calls, on one path (`Granted`), and it throws exactly if one of them is refused, or if it has to make
a directory and there is none to make it in (`calm_getResponse_iff`, `calm_serveSecure_iff`,
`calm_serveFile_iff`). -/

namespace Kachow.Handlers.Refusals

open Kachow.Lib.Text Kachow.Lib.Decimal Kachow.Lib.Files Kachow.Lib.Runs Kachow.Boost.Paths Kachow.Http.Messages
open Kachow.Disk Kachow.Api.Ids Kachow.Api.Handler Kachow.Api.Target Kachow.Secure.Handler
open Kachow.Handlers.Plain

/-- The calls of a file system. -/
inductive Call where
  | exists_
  | createDirectory
  | isRegularFile
  | remove
  | writeFile
  | readFile
  deriving DecidableEq, Repr

/-- Which calls the operating system refuses on which paths. -/
abbrev RefusedCalls := Call → Path → Bool

/-- A file system on which some calls are refused. -/
def refusing {σ : Type} (refuses : RefusedCalls) (file : FileSystem σ) : FileSystem σ where
  exists_ p := if refuses .exists_ p then throw .filesystemError else file.exists_ p
  createDirectory p :=
    if refuses .createDirectory p then throw .filesystemError else file.createDirectory p
  isRegularFile p := if refuses .isRegularFile p then throw .filesystemError else file.isRegularFile p
  remove p := if refuses .remove p then throw .filesystemError else file.remove p
  writeFile p body := if refuses .writeFile p then pure true else file.writeFile p body
  readFile p := if refuses .readFile p then pure [] else file.readFile p

/-- The fault is an exception; the others are undefined behaviour. -/
def isException : Fault → Bool
  | .outOfRange | .filesystemError | .systemError => true
  | .endDereference | .intOverflow => false

/-- No exception leaves the program. -/
abbrev Calm {σ α : Type} (x : EStateM Fault σ α) (s : σ) : Prop := Avoids isException x s

/-! ### The calls -/

section Calls
variable (refuses : RefusedCalls) (cwd : Loc Str) (w : World Tree) (t : Tree) (p : Path) (body : Str)

/-- What a stream leaves that may fail to open. -/
def writeTo : Tree := if refuses .writeFile p then t else writeAt cwd t p body

/-- What a stream reads that may fail to open. -/
def readFrom : Str := if refuses .readFile p then [] else readAt cwd t p

@[simp] theorem run_exists_refusing :
    (onDisk ((refusing refuses (realFileSystem cwd)).exists_ p)).run w =
      if refuses .exists_ p then .error .filesystemError w else .ok (existsAt cwd w.disk p) w := by
  unfold refusing
  simp only
  split_ifs <;> rfl

@[simp] theorem run_isRegularFile_refusing :
    (onDisk ((refusing refuses (realFileSystem cwd)).isRegularFile p)).run w =
      if refuses .isRegularFile p then .error .filesystemError w
      else .ok (isFileAt cwd w.disk p) w := by
  unfold refusing
  simp only
  split_ifs <;> rfl

@[simp] theorem run_createDirectory_refusing :
    (onDisk ((refusing refuses (realFileSystem cwd)).createDirectory p)).run w =
      if refuses .createDirectory p then .error .filesystemError w
      else match mkdirAt cwd w.disk p with
        | some (b, t) => .ok b ⟨t, w.entityIdMap⟩
        | none => .error .filesystemError w := by
  unfold refusing
  simp only
  split_ifs
  · rfl
  · exact run_createDirectory cwd w p

@[simp] theorem run_fsRemove_refusing :
    (onDisk ((refusing refuses (realFileSystem cwd)).remove p)).run w =
      if refuses .remove p then .error .filesystemError w
      else match removeAt cwd w.disk p with
        | some (b, t) => .ok b ⟨t, w.entityIdMap⟩
        | none => .error .filesystemError w := by
  unfold refusing
  simp only
  split_ifs
  · rfl
  · exact run_fsRemove cwd w p

@[simp] theorem run_writeFile_refusing :
    (onDisk ((refusing refuses (realFileSystem cwd)).writeFile p body)).run w =
      .ok true ⟨writeTo refuses cwd w.disk p body, w.entityIdMap⟩ := by
  unfold refusing writeTo
  simp only
  split_ifs <;> rfl

@[simp] theorem run_readFile_refusing :
    (onDisk ((refusing refuses (realFileSystem cwd)).readFile p)).run w =
      .ok (readFrom refuses cwd w.disk p) w := by
  unfold refusing readFrom
  simp only
  split_ifs <;> rfl

theorem isDir_writeTo (l : Loc Str) : (writeTo refuses cwd t p body).isDir l = t.isDir l := by
  unfold writeTo
  split_ifs
  · rfl
  · exact isDir_writeAt body l

end Calls

/-! ### Where a directory can be made -/

/-- The path leads to a directory. -/
def LeadsToDir (cwd : Loc Str) (t : Tree) (p : Path) : Prop :=
  ∃ l, p.locate t cwd = some l ∧ t.isDir l = true

theorem LeadsToDir.mono {cwd : Loc Str} {t t' : Tree} {p : Path} (h : LeadsToDir cwd t p)
    (hd : ∀ l, t.isDir l = true → t'.isDir l = true) : LeadsToDir cwd t' p := by
  obtain ⟨l, hl, hdir⟩ := h
  exact ⟨l, path_locate_mono hd hl, hd l hdir⟩

theorem LeadsToDir.existsAt {cwd : Loc Str} {t : Tree} {p : Path} (h : LeadsToDir cwd t p) :
    existsAt cwd t p = true := by
  obtain ⟨l, hl, hd⟩ := h
  rw [existsAt_of_locate hl, FileTree.isDir_iff.mp hd]
  rfl

/-- **One level under a path** at which something is, a directory that is missing can be made exactly if
the path leads to a directory. -/
theorem mkdirAt_isSome_iff {cwd : Loc Str} {t : Tree} {p base : Path}
    (hbase : existsAt cwd t base = true) (hp : p.parentPath.same base = true)
    (hex : existsAt cwd t p = false) :
    (mkdirAt cwd t p).isSome = true ↔ LeadsToDir cwd t base := by
  obtain ⟨k, hk, hn⟩ := locate_of_existsAt hbase
  have hchild : (∃ l, p.locate t cwd = some l) ↔ LeadsToDir cwd t base :=
    locate_child (locate_ne_nil hk) (same_iff.mp hp)
  constructor
  · intro h
    obtain ⟨b, hb⟩ := Option.isSome_iff_exists.mp h
    obtain ⟨l, hl, hmk⟩ := locateNew_of_mkdirAt hb
    rcases locateNew_child (locate_ne_nil hk) (same_iff.mp hp) hl with hloc | rfl
    · exact hchild.mp hloc
    · -- the path leads to the base path itself, which is no file
      rw [← locate_resolve hk] at hmk
      refine ⟨k, hk, FileTree.isDir_iff.mpr ?_⟩
      have hfile := FileTree.isFile_of_mkdir hmk
      obtain ⟨n, hnode⟩ := Option.ne_none_iff_exists'.mp hn
      cases n with
      | dir => exact hnode
      | file body =>
        rw [FileTree.isFile_iff.mpr ⟨body, hnode⟩] at hfile
        exact absurd hfile (by simp)
  · intro h
    obtain ⟨l, hl⟩ := hchild.mpr h
    obtain ⟨t', hmk, -⟩ := mkdirAt_of_missing hl hex
    rw [hmk]
    rfl

/-! ### The calls of a method -/

section Granted
variable (refuses : RefusedCalls) (cwd : Loc Str) (t : Tree) (p : Path)

/-- A file may be looked for. -/
def LooksUp : Prop :=
  refuses .exists_ p = false ∧ (existsAt cwd t p = true → refuses .isRegularFile p = false)

/-- A directory may be looked for, and made if there is none. -/
def MakesDir : Prop :=
  refuses .exists_ p = false ∧ (existsAt cwd t p = false → refuses .createDirectory p = false)

/-- No call of a method is refused that can throw, once its target is parsed. -/
def Granted (h : RequestHandlerAPI) (u : ParsedUrl) : Verb → Prop
  | .post => u.fullPath.parentPath.same h.basePath = true → MakesDir refuses cwd t u.fullPath
  | .get =>
    refuses .exists_ u.fullPath = false ∧ (u.id ≠ 0 → LooksUp refuses cwd t u.fullPath)
  | .put =>
    u.id ≠ 0 → u.fullPath.parentPath.parentPath.same h.basePath = true →
      MakesDir refuses cwd t u.fullPath.parentPath
  | .delete =>
    LooksUp refuses cwd t u.fullPath ∧
      (isFileAt cwd t u.fullPath = true → refuses .remove u.fullPath = false)
  | _ => True

/-- A method has to make a directory. -/
def MustMake (h : RequestHandlerAPI) (u : ParsedUrl) : Verb → Prop
  | .post => u.fullPath.parentPath.same h.basePath = true ∧ existsAt cwd t u.fullPath = false
  | .put =>
    u.id ≠ 0 ∧ u.fullPath.parentPath.parentPath.same h.basePath = true ∧
      existsAt cwd t u.fullPath.parentPath = false
  | _ => False

end Granted

/-! ### The methods of the API -/

section Methods
variable {refuses : RefusedCalls} {h : RequestHandlerAPI} {cwd : Loc Str} {req : Request}
  {res : Response} {u : ParsedUrl} {w w' : World Tree} {o : Bool × Response}

theorem run_create_bad {file : FileSystem Tree} (hs : ¬ u.fullPath.parentPath.same h.basePath = true) :
    (create h file req res u).run w = .ok (false, setBadRequest res) w := by
  simp [create, hs]

theorem run_create_refusing (hs : u.fullPath.parentPath.same h.basePath = true)
    (hg : MakesDir refuses cwd w.disk u.fullPath) :
    (create h (refusing refuses (realFileSystem cwd)) req res u).run w =
      match madeEntity cwd u w with
      | none => .error .filesystemError w
      | some (t, m) =>
        match getNextId m u.entity with
        | .error e => .error e ⟨t, m⟩
        | .ok (id, m') => .ok (true, setCreated res id)
            ⟨writeTo refuses cwd t (u.fullPath.append (intToString id)) req.body, m'⟩ := by
  obtain ⟨hr, hmk⟩ := hg
  unfold create madeEntity
  cases he : existsAt cwd w.disk u.fullPath with
  | true =>
    simp only [hs, he, hr, Bool.not_true, Bool.false_eq_true, if_true, if_false, EStateM.run_bind,
      run_exists_refusing, run_takeNextId]
    cases getNextId w.entityIdMap u.entity <;> simp
  | false =>
    simp only [hs, he, hr, hmk he, Bool.not_true, Bool.not_false, Bool.false_eq_true, if_true,
      if_false, EStateM.run_bind, run_exists_refusing, run_createDirectory_refusing]
    cases mkdirAt cwd w.disk u.fullPath with
    | none => rfl
    | some b =>
      simp only [run_onIds, run_takeNextId, Option.map_some]
      cases getNextId (insertKey w.entityIdMap u.entity) u.entity <;> simp

theorem run_update_bad {file : FileSystem Tree}
    (hs : ¬ (u.id ≠ 0 ∧ u.fullPath.parentPath.parentPath.same h.basePath = true)) :
    (update h file req res u).run w = .ok (false, setBadRequest res) w := by
  unfold update
  rw [if_pos]
  · rfl
  · by_cases hid : u.id = 0
    · exact Or.inl hid
    · exact Or.inr (by simpa [hid] using hs)

theorem run_update_refusing (hid : u.id ≠ 0)
    (hs : u.fullPath.parentPath.parentPath.same h.basePath = true)
    (hg : MakesDir refuses cwd w.disk u.fullPath.parentPath) :
    (update h (refusing refuses (realFileSystem cwd)) req res u).run w =
      match madeDir cwd u w with
      | none => .error .filesystemError w
      | some t => .ok (true, setOk res)
          ⟨writeTo refuses cwd t u.fullPath req.body, insertIfNotexist w.entityIdMap u.entity u.id⟩ := by
  obtain ⟨hr, hmk⟩ := hg
  unfold update madeDir
  rw [if_neg (by simp [hid, hs])]
  cases he : existsAt cwd w.disk u.fullPath.parentPath with
  | true => simp [he, hr]
  | false =>
    simp only [he, hr, hmk he, Bool.not_false, Bool.false_eq_true, if_true, if_false,
      EStateM.run_bind, run_exists_refusing, run_createDirectory_refusing]
    cases mkdirAt cwd w.disk u.fullPath.parentPath with
    | none => rfl
    | some b => simp

/-- A `GET` ends, and leaves the files. -/
theorem run_retrieve_refusing (hg : Granted refuses cwd w.disk h u .get) :
    ∃ o m, (retrieve (refusing refuses (realFileSystem cwd)) res u).run w = .ok o ⟨w.disk, m⟩ := by
  obtain ⟨hr, hlook⟩ := hg
  unfold retrieve
  by_cases hid : u.id = 0
  · cases he : existsAt cwd w.disk u.fullPath <;> exact ⟨_, w.entityIdMap, by simp [hid, hr, he]; rfl⟩
  · obtain ⟨-, hreg⟩ := hlook hid
    cases he : existsAt cwd w.disk u.fullPath with
    | false => simp [hid, hr, he]
    | true => cases hf : isFileAt cwd w.disk u.fullPath <;> simp [hid, hr, he, hreg he, hf]

/-- A `DELETE` ends, and leaves the directories. -/
theorem run_remove_refusing (hg : Granted refuses cwd w.disk h u .delete) :
    ∃ o w', (remove (refusing refuses (realFileSystem cwd)) res u).run w = .ok o w' ∧
      ∀ l, w.disk.isDir l = true → w'.disk.isDir l = true := by
  obtain ⟨⟨hr, hreg⟩, hrm⟩ := hg
  unfold remove
  cases he : existsAt cwd w.disk u.fullPath with
  | false => simp [hr, he]
  | true =>
    cases hf : isFileAt cwd w.disk u.fullPath with
    | false => simp [hr, he, hreg he, hf]
    | true =>
      obtain ⟨l, t, -, -, hrun, -, hdir⟩ := removeAt_of_isFileAt hf
      refine ⟨(true, setOk res), ⟨t, eraseIfExist w.entityIdMap u.entity u.id⟩, ?_, fun k hk =>
        (hdir k).trans hk⟩
      simp [hr, he, hreg he, hf, hrm hf, hrun]

/-- If one of its calls is refused, the method throws. -/
theorem not_calm_serve (hg : ¬ Granted refuses cwd w.disk h u req.method) :
    ¬ Calm (serve h (refusing refuses (realFileSystem cwd)) req res u) w := by
  suffices hrun : (serve h (refusing refuses (realFileSystem cwd)) req res u).run w =
      .error .filesystemError w from not_avoids hrun rfl
  unfold serve
  cases hm : req.method <;> simp only [hm, Granted, not_true_eq_false] at hg ⊢
  case post =>
    obtain ⟨hs, hg⟩ := Classical.not_imp.mp hg
    unfold MakesDir at hg
    cases hr : refuses .exists_ u.fullPath with
    | true => simp [create, hs, hr]
    | false =>
      obtain ⟨he, hc⟩ := Classical.not_imp.mp (not_and.mp hg hr)
      simp [create, hs, hr, he, Bool.eq_true_of_not_eq_false hc]
  case get =>
    cases hr : refuses .exists_ u.fullPath with
    | true => simp [retrieve, hr]
    | false =>
      obtain ⟨hid, hlook⟩ := Classical.not_imp.mp (not_and.mp hg hr)
      obtain ⟨he, hreg⟩ := Classical.not_imp.mp (not_and.mp hlook hr)
      simp [retrieve, hr, hid, he, Bool.eq_true_of_not_eq_false hreg]
  case put =>
    obtain ⟨hid, hg⟩ := Classical.not_imp.mp hg
    obtain ⟨hs, hg⟩ := Classical.not_imp.mp hg
    unfold MakesDir at hg
    cases hr : refuses .exists_ u.fullPath.parentPath with
    | true => simp [update, hid, hs, hr]
    | false =>
      obtain ⟨he, hc⟩ := Classical.not_imp.mp (not_and.mp hg hr)
      simp [update, hid, hs, hr, he, Bool.eq_true_of_not_eq_false hc]
  case delete =>
    unfold LooksUp at hg
    cases hr : refuses .exists_ u.fullPath with
    | true => simp [remove, hr]
    | false =>
      cases he : existsAt cwd w.disk u.fullPath with
      | false =>
        have hf : isFileAt cwd w.disk u.fullPath = false := by
          by_contra hf
          rw [existsAt_of_isFileAt (by simpa using hf)] at he
          exact absurd he (by simp)
        exact absurd ⟨⟨hr, fun h => absurd (he.symm.trans h) (by simp)⟩,
          fun h => absurd (hf.symm.trans h) (by simp)⟩ hg
      | true =>
        cases hreg : refuses .isRegularFile u.fullPath with
        | true => simp [remove, hr, he, hreg]
        | false =>
          obtain ⟨hf, hrm⟩ := Classical.not_imp.mp (not_and.mp hg ⟨hr, fun _ => hreg⟩)
          simp [remove, hr, he, hreg, hf, Bool.eq_true_of_not_eq_false hrm]

/-! ### Which methods throw -/

/-- That there is no key, or no number, is no exception. -/
theorem getNextId_calm {m : EntityIdMap} {e : Str} {f : Fault} (hf : getNextId m e = .error f) :
    isException f = false := by
  unfold getNextId at hf
  cases hl : m.lookup e with
  | none =>
    simp only [hl] at hf
    cases hf
    rfl
  | some ids =>
    cases hn : nextFree ids with
    | none =>
      simp only [hl, hn] at hf
      cases hf
      rfl
    | some id => simp [hl, hn] at hf

theorem calm_create (hb : existsAt cwd w.disk h.basePath = true)
    (hs : u.fullPath.parentPath.same h.basePath = true)
    (hg : MakesDir refuses cwd w.disk u.fullPath) :
    Calm (create h (refusing refuses (realFileSystem cwd)) req res u) w ↔
      (existsAt cwd w.disk u.fullPath = false → LeadsToDir cwd w.disk h.basePath) := by
  have hrun := @run_create_refusing refuses h cwd req res u w hs hg
  have hmade : madeEntity cwd u w = none ↔
      ¬ (existsAt cwd w.disk u.fullPath = false → LeadsToDir cwd w.disk h.basePath) := by
    unfold madeEntity
    cases hex : existsAt cwd w.disk u.fullPath with
    | true => simp
    | false => simp [← mkdirAt_isSome_iff hb hs hex]
  cases hm : madeEntity cwd u w with
  | none =>
    rw [hm] at hrun
    exact iff_of_false (not_avoids hrun rfl) (hmade.mp hm)
  | some tm =>
    obtain ⟨t, m⟩ := tm
    have hplace := not_not.mp (mt hmade.mpr (by simp [hm]))
    refine iff_of_true ?_ hplace
    simp only [hm] at hrun
    intro e s' he
    rw [hrun] at he
    cases hid : getNextId m u.entity with
    | error f =>
      simp only [hid, EStateM.Result.error.injEq] at he
      exact he.1 ▸ getNextId_calm hid
    | ok r => simp [hid] at he

theorem calm_update (hb : existsAt cwd w.disk h.basePath = true) (hid : u.id ≠ 0)
    (hs : u.fullPath.parentPath.parentPath.same h.basePath = true)
    (hg : MakesDir refuses cwd w.disk u.fullPath.parentPath) :
    Calm (update h (refusing refuses (realFileSystem cwd)) req res u) w ↔
      (existsAt cwd w.disk u.fullPath.parentPath = false → LeadsToDir cwd w.disk h.basePath) := by
  have hrun := @run_update_refusing refuses h cwd req res u w hid hs hg
  have hmade : madeDir cwd u w = none ↔
      ¬ (existsAt cwd w.disk u.fullPath.parentPath = false → LeadsToDir cwd w.disk h.basePath) := by
    unfold madeDir
    cases hex : existsAt cwd w.disk u.fullPath.parentPath with
    | true => simp
    | false => simp [← mkdirAt_isSome_iff hb hs hex]
  cases hm : madeDir cwd u w with
  | none =>
    rw [hm] at hrun
    exact iff_of_false (not_avoids hrun rfl) (hmade.mp hm)
  | some t =>
    have hplace := not_not.mp (mt hmade.mpr (by simp [hm]))
    rw [hm] at hrun
    exact iff_of_true (avoids_of_ok hrun) hplace

/-- **When a method throws no exception**: where none of its calls is refused, and it has a place for the
directory it may have to make. -/
theorem calm_serve_iff (hb : existsAt cwd w.disk h.basePath = true) :
    Calm (serve h (refusing refuses (realFileSystem cwd)) req res u) w ↔
      Granted refuses cwd w.disk h u req.method ∧
        (MustMake cwd w.disk h u req.method → LeadsToDir cwd w.disk h.basePath) := by
  by_cases hg : Granted refuses cwd w.disk h u req.method
  · rw [and_iff_right hg]
    unfold serve
    cases hm : req.method <;> rw [hm] at hg <;> simp only [MustMake]
    case post =>
      by_cases hs : u.fullPath.parentPath.same h.basePath = true
      · simp only [hs, true_and]
        exact calm_create hb hs (hg hs)
      · exact iff_of_true (avoids_of_ok (run_create_bad hs)) fun hmust => absurd hmust.1 hs
    case get =>
      obtain ⟨o, m, hrun⟩ := @run_retrieve_refusing refuses h cwd res u w hg
      exact iff_of_true (avoids_of_ok hrun) False.elim
    case put =>
      by_cases hs : u.id ≠ 0 ∧ u.fullPath.parentPath.parentPath.same h.basePath = true
      · obtain ⟨hid, hs⟩ := hs
        simp only [hs, hid, ne_eq, not_false_eq_true, true_and]
        exact calm_update hb hid hs (hg hid hs)
      · exact iff_of_true (avoids_of_ok (run_update_bad hs)) fun hmust => absurd ⟨hmust.1, hmust.2.1⟩ hs
    case delete =>
      obtain ⟨o, w', hrun, -⟩ := @run_remove_refusing refuses h cwd res u w hg
      exact iff_of_true (avoids_of_ok hrun) False.elim
    all_goals exact iff_of_true (avoids_of_ok rfl) False.elim
  · exact iff_of_false (not_calm_serve hg) fun hall => hg hall.1

/-- **No directory is ever removed.** -/
theorem isDir_serve (hrun : (serve h (refusing refuses (realFileSystem cwd)) req res u).run w = .ok o w')
    {l : Loc Str} (hl : w.disk.isDir l = true) : w'.disk.isDir l = true := by
  have hg : Granted refuses cwd w.disk h u req.method := by
    by_contra hno
    exact not_calm_serve hno (avoids_of_ok hrun)
  unfold serve at hrun
  cases hm : req.method <;> rw [hm] at hg <;> simp only [hm] at hrun
  case post =>
    by_cases hs : u.fullPath.parentPath.same h.basePath = true
    · rw [run_create_refusing hs (hg hs)] at hrun
      cases hmade : madeEntity cwd u w with
      | none => simp [hmade] at hrun
      | some tm =>
        obtain ⟨t, m⟩ := tm
        cases hid : getNextId m u.entity with
        | error f => simp [hmade, hid] at hrun
        | ok r =>
          simp only [hmade, hid, EStateM.Result.ok.injEq] at hrun
          rw [← hrun.2]
          exact (isDir_writeTo _ _ _ _ _ l).trans ((madeEntity_some hmade).2.1 l hl)
    · rw [run_create_bad hs] at hrun
      cases hrun
      exact hl
  case get =>
    obtain ⟨o', m, hrun'⟩ := @run_retrieve_refusing refuses h cwd res u w hg
    rw [hrun'] at hrun
    cases hrun
    exact hl
  case put =>
    by_cases hs : u.id ≠ 0 ∧ u.fullPath.parentPath.parentPath.same h.basePath = true
    · rw [run_update_refusing hs.1 hs.2 (hg hs.1 hs.2)] at hrun
      cases hmade : madeDir cwd u w with
      | none => simp [hmade] at hrun
      | some t =>
        simp only [hmade, EStateM.Result.ok.injEq] at hrun
        rw [← hrun.2]
        exact (isDir_writeTo _ _ _ _ _ l).trans ((madeDir_some hmade).2 l hl)
    · rw [run_update_bad hs] at hrun
      cases hrun
      exact hl
  case delete =>
    obtain ⟨o', w'', hrun', hdir⟩ := @run_remove_refusing refuses h cwd res u w hg
    rw [hrun'] at hrun
    cases hrun
    exact hdir l hl
  all_goals
    cases hrun
    exact hl

/-! ### The handlers -/

/-- What the requests to a handler of the API have to be like; `place` says that the base path leads to a
directory. -/
def ApiPasses (refuses : RefusedCalls) (cwd : Loc Str) (t : Tree) (h : RequestHandlerAPI) (place : Prop)
    (req : Request) : Prop :=
  ∀ u, h.parseUrlTarget req = .ok u → u.ok = true →
    Granted refuses cwd t h u req.method ∧ (MustMake cwd t h u req.method → place)

/-- **When the handler of the API throws no exception.** -/
theorem calm_getResponse_iff (hb : existsAt cwd w.disk h.basePath = true)
    (hlen : h.prefixLength ≤ req.target.length) :
    Calm (h.getResponse (refusing refuses (realFileSystem cwd)) req res) w ↔
      ApiPasses refuses cwd w.disk h (LeadsToDir cwd w.disk h.basePath) req := by
  obtain ⟨u, hu⟩ := exists_parseUrlTarget hlen
  have hrun := run_getResponse h (refusing refuses (realFileSystem cwd)) req res w
  rw [hu] at hrun
  by_cases hok : u.ok = true
  · have hcalm : Calm (h.getResponse (refusing refuses (realFileSystem cwd)) req res) w ↔
        Calm (serve h (refusing refuses (realFileSystem cwd)) req res u) w := by
      unfold Calm Avoids
      rw [hrun]
      simp only [hok, if_true]
    rw [hcalm, calm_serve_iff hb]
    constructor
    · intro hall v hv _
      obtain rfl := Except.ok.inj (hu.symm.trans hv)
      exact hall
    · exact fun hall => hall u hu hok
  · simp only [hok] at hrun
    refine iff_of_true (avoids_of_ok hrun) fun v hv hv' => ?_
    obtain rfl := Except.ok.inj (hu.symm.trans hv)
    exact absurd hv' hok

theorem isDir_getResponse
    (hrun : (h.getResponse (refusing refuses (realFileSystem cwd)) req res).run w = .ok o w')
    {l : Loc Str} (hl : w.disk.isDir l = true) : w'.disk.isDir l = true := by
  rw [run_getResponse] at hrun
  cases hu : h.parseUrlTarget req with
  | error e => simp [hu] at hrun
  | ok u =>
    simp only [hu] at hrun
    split_ifs at hrun
    · exact isDir_serve hrun hl
    · cases hrun
      exact hl

end Methods

section Files
variable {refuses : RefusedCalls} {cwd : Loc Str} {req : Request} {res : Response} {t t' : Tree}
  {o : Bool × Response}

/-- What is answered to a request for a file, if no call that can throw is refused. -/
theorem run_serveFile_refusing {p : Path} (hg : LooksUp refuses cwd t p) :
    ∃ o, (serveFile (refusing refuses (realFileSystem cwd)) res p).run t = .ok o t := by
  obtain ⟨hr, hreg⟩ := hg
  have hex : ((refusing refuses (realFileSystem cwd)).exists_ p).run t = .ok (existsAt cwd t p) t := by
    simp only [refusing, hr]
    rfl
  unfold serveFile
  rw [EStateM.run_bind, hex]
  cases he : existsAt cwd t p with
  | false => exact ⟨(false, setNotfoundRequest res), rfl⟩
  | true =>
    have hfile : ((refusing refuses (realFileSystem cwd)).isRegularFile p).run t =
        .ok (isFileAt cwd t p) t := by
      simp only [refusing, hreg he]
      rfl
    have hread : ∃ body, ((refusing refuses (realFileSystem cwd)).readFile p).run t = .ok body t := by
      unfold refusing
      simp only
      split_ifs
      · exact ⟨[], rfl⟩
      · exact ⟨readAt cwd t p, rfl⟩
    obtain ⟨body, hread⟩ := hread
    cases hf : isFileAt cwd t p <;> simp [hfile, hf, hread]

/-- **A file is given out** without an exception, if no call on its path is refused. -/
theorem calm_serveFile_iff (p : Path) :
    Calm (serveFile (refusing refuses (realFileSystem cwd)) res p) t ↔ LooksUp refuses cwd t p := by
  constructor
  · intro hcalm
    by_contra hg
    suffices hrun : (serveFile (refusing refuses (realFileSystem cwd)) res p).run t =
        .error .filesystemError t from not_avoids hrun rfl hcalm
    unfold serveFile refusing
    unfold LooksUp at hg
    cases hr : refuses .exists_ p with
    | true =>
      simp only [hr, if_true]
      rfl
    | false =>
      obtain ⟨he, hreg⟩ := Classical.not_imp.mp (not_and.mp hg hr)
      have hex : ((realFileSystem cwd).exists_ p).run t = .ok true t := by
        rw [← he]
        rfl
      simp only [hr, Bool.false_eq_true, if_false, Bool.eq_true_of_not_eq_false hreg, if_true,
        EStateM.run_bind, hex]
      rfl
  · intro hg
    obtain ⟨o, hrun⟩ := @run_serveFile_refusing refuses cwd res t p hg
    exact avoids_of_ok hrun

/-- It changes no file. -/
theorem disk_of_serveFile {p : Path}
    (hrun : (serveFile (refusing refuses (realFileSystem cwd)) res p).run t = .ok o t') : t = t' := by
  obtain ⟨o', hrun'⟩ := @run_serveFile_refusing refuses cwd res t p
    ((calm_serveFile_iff p).mp (avoids_of_ok hrun))
  rw [hrun'] at hrun
  exact (EStateM.Result.ok.inj hrun).2

end Files

section Secure
variable {refuses : RefusedCalls} {dataPath : Str} {prefixLength : ℕ} {authorizer : Auth}
  {cwd : Loc Str} {req : Request} {res : Response} {w w' : World Tree} {o : Bool × Response}

/-- The request that comes to the handler of the private users. -/
def passedOn (prefixLength : ℕ) (userId : Str) (req : Request) : Request :=
  if req.target.length ≤ prefixLength + 1 then req else retarget prefixLength userId req

/-- The tree once a directory has been made that was missing. -/
def ensured (cwd : Loc Str) (t : Tree) (p : Path) : Tree :=
  if existsAt cwd t p then t else ((mkdirAt cwd t p).map Prod.snd).getD t

/-- The tree once the constructor has made its directories. -/
def withAreas (cwd : Loc Str) (t : Tree) (dataPath : Str) : Tree :=
  ensured cwd (ensured cwd t ⟨dataPath ++ "/priv".toList⟩) ⟨dataPath ++ "/pub".toList⟩

/-- What the requests to a handler with users have to be like. -/
def SecurePasses (refuses : RefusedCalls) (dataPath : Str) (prefixLength : ℕ) (authorizer : Auth)
    (cwd : Loc Str) (t : Tree) (req : Request) : Prop :=
  MakesDir refuses cwd t ⟨dataPath ++ "/priv".toList⟩ ∧
    MakesDir refuses cwd t ⟨dataPath ++ "/pub".toList⟩ ∧
    match principalOf authorizer req with
    | .user userId =>
      ApiPasses refuses cwd (withAreas cwd t dataPath) ⟨⟨dataPath ++ "/priv".toList⟩, prefixLength⟩
        (isFileAt cwd t ⟨dataPath ++ "/priv".toList⟩ = false) (passedOn prefixLength userId req)
    | .publicUser =>
      ApiPasses refuses cwd (withAreas cwd t dataPath) ⟨⟨dataPath ++ "/pub".toList⟩, prefixLength⟩
        (isFileAt cwd t ⟨dataPath ++ "/pub".toList⟩ = false) req
    | .unauthenticated => True

/-- A directory that is missing is made, if this is not refused. -/
theorem run_ensure_granted {t : Tree} {p : Path} {l : Loc Str} (hl : p.locate t cwd = some l)
    (hg : MakesDir refuses cwd t p) :
    (ensure (refusing refuses (realFileSystem cwd)) p).run t = .ok () (ensured cwd t p) := by
  obtain ⟨hr, hc⟩ := hg
  have hex : ((realFileSystem cwd).exists_ p).run t = .ok (existsAt cwd t p) t := rfl
  unfold ensure refusing ensured
  simp only [hr, Bool.false_eq_true, if_false, EStateM.run_bind, hex]
  cases he : existsAt cwd t p with
  | true => rfl
  | false =>
    obtain ⟨t', hmk, -⟩ := mkdirAt_of_missing hl he
    have hrun : ((realFileSystem cwd).createDirectory p).run t = .ok true t' := by
      simp only [realFileSystem, orThrow, EStateM.run, hmk]
    simp [hc he, hrun, hmk]

theorem run_ensure_denied {t : Tree} {p : Path} (hg : ¬ MakesDir refuses cwd t p) :
    (ensure (refusing refuses (realFileSystem cwd)) p).run t = .error .filesystemError t := by
  have hex : ((realFileSystem cwd).exists_ p).run t = .ok (existsAt cwd t p) t := rfl
  unfold ensure refusing
  unfold MakesDir at hg
  cases hr : refuses .exists_ p with
  | true =>
    simp only [hr, if_true]
    rfl
  | false =>
    obtain ⟨he, hc⟩ := Classical.not_imp.mp (not_and.mp hg hr)
    simp only [hr, Bool.false_eq_true, if_false, EStateM.run_bind, hex, he,
      Bool.eq_true_of_not_eq_false hc]
    rfl

/-- What is in a tree once a directory has been made that was missing. -/
theorem node_ensured {t : Tree} {p : Path} {l : Loc Str} (hl : p.locate t cwd = some l) (k : Loc Str) :
    (ensured cwd t p).node k = if k = l ∧ t.node k = none then some .dir else t.node k := by
  obtain ⟨t', hrun, hnode⟩ := run_ensure hl
  have hens := @run_ensure_granted (fun _ _ => false) cwd t p l hl ⟨rfl, fun _ => rfl⟩
  obtain rfl : ensured cwd t p = t' := (EStateM.Result.ok.inj (hens.symm.trans hrun)).2
  exact hnode k

theorem isDir_ensured {t : Tree} {p : Path} {l : Loc Str} (hl : p.locate t cwd = some l) {k : Loc Str}
    (hk : t.isDir k = true) : (ensured cwd t p).isDir k = true := by
  rw [FileTree.isDir_iff] at hk ⊢
  rw [node_ensured hl, if_neg (by simp [hk]), hk]

/-- Making the one area does not matter to the other. -/
theorem makesDir_pub {t : Tree} {B : Loc Str} (hl : Path.locate t cwd ⟨dataPath⟩ = some B)
    (hd : t.isDir B = true) :
    MakesDir refuses cwd (ensured cwd t ⟨dataPath ++ "/priv".toList⟩) ⟨dataPath ++ "/pub".toList⟩ ↔
      MakesDir refuses cwd t ⟨dataPath ++ "/pub".toList⟩ := by
  have hpub := locate_pub hl hd
  have hpub' := path_locate_mono (fun _ => isDir_ensured (locate_priv hl hd)) hpub
  unfold MakesDir
  rw [existsAt_of_locate hpub, existsAt_of_locate hpub', node_ensured (locate_priv hl hd),
    if_neg (by simp)]

/-- **The constructor** makes the directories that are missing, if this is not refused. -/
theorem run_new_granted {t : Tree} {B : Loc Str} (hl : Path.locate t cwd ⟨dataPath⟩ = some B)
    (hd : t.isDir B = true) (hpriv : MakesDir refuses cwd t ⟨dataPath ++ "/priv".toList⟩)
    (hpub : MakesDir refuses cwd t ⟨dataPath ++ "/pub".toList⟩) :
    (SecureRequestHandlerAPI.new dataPath prefixLength authorizer
        (refusing refuses (realFileSystem cwd))).run t =
      .ok (secureHandler dataPath prefixLength authorizer) (withAreas cwd t dataPath) := by
  have hl' := path_locate_mono (fun _ => isDir_ensured (locate_priv hl hd)) (locate_pub hl hd)
  unfold SecureRequestHandlerAPI.new
  rw [EStateM.run_bind, run_ensure_granted (locate_priv hl hd) hpriv]
  simp only
  rw [EStateM.run_bind, run_ensure_granted hl' ((makesDir_pub hl hd).mpr hpub)]
  rfl

/-- It throws if one of its calls is refused. -/
theorem not_calm_new {t : Tree} {B : Loc Str} (hl : Path.locate t cwd ⟨dataPath⟩ = some B)
    (hd : t.isDir B = true) (hr : ¬ (MakesDir refuses cwd t ⟨dataPath ++ "/priv".toList⟩ ∧
      MakesDir refuses cwd t ⟨dataPath ++ "/pub".toList⟩)) :
    ∃ t', (SecureRequestHandlerAPI.new dataPath prefixLength authorizer
      (refusing refuses (realFileSystem cwd))).run t = .error .filesystemError t' := by
  unfold SecureRequestHandlerAPI.new
  by_cases hpriv : MakesDir refuses cwd t ⟨dataPath ++ "/priv".toList⟩
  · have hpub := mt (makesDir_pub hl hd).mp (not_and.mp hr hpriv)
    refine ⟨ensured cwd t ⟨dataPath ++ "/priv".toList⟩, ?_⟩
    rw [EStateM.run_bind, run_ensure_granted (locate_priv hl hd) hpriv]
    simp only
    rw [EStateM.run_bind, run_ensure_denied hpub]
  · refine ⟨t, ?_⟩
    rw [EStateM.run_bind, run_ensure_denied hpriv]

/-- Once the constructor has run, what was there is there, and the areas are. -/
theorem node_withAreas {t : Tree} {B : Loc Str} (hl : Path.locate t cwd ⟨dataPath⟩ = some B)
    (hd : t.isDir B = true) (k : Loc Str) : (withAreas cwd t dataPath).node k =
      if (k = B ++ ["priv".toList] ∨ k = B ++ ["pub".toList]) ∧ t.node k = none then some .dir
      else t.node k := by
  obtain ⟨t', hrun, hnode⟩ := run_new hl hd 0 FakeAuth.getAuth
  have hnew := @run_new_granted (fun _ _ => false) dataPath 0 FakeAuth.getAuth cwd t B hl hd
    ⟨rfl, fun _ => rfl⟩ ⟨rfl, fun _ => rfl⟩
  obtain rfl : withAreas cwd t dataPath = t' := (EStateM.Result.ok.inj (hnew.symm.trans hrun)).2
  exact hnode k

/-- An area is a directory then if it was no file. -/
theorem leadsToDir_area {t t' : Tree} {p : Path} {l : Loc Str} (hl : p.locate t cwd = some l)
    (hd : ∀ k, t.isDir k = true → t'.isDir k = true)
    (hnode : t'.node l = if t.node l = none then some .dir else t.node l) :
    existsAt cwd t' p = true ∧ (LeadsToDir cwd t' p ↔ isFileAt cwd t p = false) := by
  have hl' := path_locate_mono hd hl
  have hdir : LeadsToDir cwd t' p ↔ t'.isDir l = true := by
    constructor
    · rintro ⟨k, hk, hkd⟩
      obtain rfl := Option.some.inj (hl'.symm.trans hk)
      exact hkd
    · exact fun h => ⟨l, hl', h⟩
  rw [existsAt_of_locate hl', hdir, isFileAt_of_locate hl, FileTree.isDir_iff, hnode]
  unfold FileTree.isFile
  cases hn : t.node l with
  | none => simp
  | some n => cases n <;> simp

/-- **When the handler with users throws no exception.** -/
theorem calm_serveSecure_iff (hroot : LeadsToDir cwd w.disk ⟨dataPath⟩)
    (hlen : prefixLength ≤ req.target.length) :
    Calm (serveSecure dataPath prefixLength authorizer (refusing refuses (realFileSystem cwd)) req res)
      w ↔ SecurePasses refuses dataPath prefixLength authorizer cwd w.disk req := by
  obtain ⟨B, hB, hd⟩ := hroot
  unfold SecurePasses
  rw [← and_assoc]
  by_cases hr : MakesDir refuses cwd w.disk ⟨dataPath ++ "/priv".toList⟩ ∧
      MakesDir refuses cwd w.disk ⟨dataPath ++ "/pub".toList⟩
  · rw [and_iff_right hr]
    have hnode := @node_withAreas dataPath cwd w.disk B hB hd
    have hdirs : ∀ k, w.disk.isDir k = true → (withAreas cwd w.disk dataPath).isDir k = true :=
      fun k hk => by
        rw [FileTree.isDir_iff] at hk ⊢
        rw [hnode, if_neg (by simp [hk]), hk]
    have hfirst : (onDisk (SecureRequestHandlerAPI.new dataPath prefixLength authorizer
        (refusing refuses (realFileSystem cwd)))).run w =
          .ok (secureHandler dataPath prefixLength authorizer)
            ⟨withAreas cwd w.disk dataPath, w.entityIdMap⟩ := by
      rw [run_onDisk, run_new_granted hB hd hr.1 hr.2]
    unfold serveSecure
    refine (avoids_bind_of_ok hfirst).trans ?_
    rw [getResponse_eq]
    cases principalOf authorizer req with
    | unauthenticated => exact iff_of_true (avoids_of_ok rfl) trivial
    | publicUser =>
      obtain ⟨hex, hplace⟩ := leadsToDir_area (locate_pub hB hd) hdirs (by rw [hnode]; simp)
      exact (calm_getResponse_iff hex hlen).trans (by rw [hplace])
    | user userId =>
      obtain ⟨hex, hplace⟩ := leadsToDir_area (locate_priv hB hd) hdirs (by rw [hnode]; simp)
      simp only
      unfold passedOn
      split_ifs with hshort
      · exact (calm_getResponse_iff hex hlen).trans (by rw [hplace])
      · have hlen' : prefixLength ≤ (retarget prefixLength userId req).target.length := by
          simp only [retarget, newTarget, List.length_append, List.length_take, List.length_drop]
          omega
        exact (calm_getResponse_iff hex hlen').trans (by rw [hplace])
  · obtain ⟨t', hnew⟩ := @not_calm_new refuses dataPath prefixLength authorizer cwd w.disk B hB hd hr
    have hrun : (serveSecure dataPath prefixLength authorizer (refusing refuses (realFileSystem cwd))
        req res).run w = .error .filesystemError ⟨t', w.entityIdMap⟩ := by
      unfold serveSecure
      rw [EStateM.run_bind, run_onDisk, hnew]
    exact iff_of_false (not_avoids hrun rfl) fun hpass => hr hpass.1

/-- **The handler with users removes no directory.** -/
theorem isDir_serveSecure (hroot : LeadsToDir cwd w.disk ⟨dataPath⟩)
    (hrun : (serveSecure dataPath prefixLength authorizer (refusing refuses (realFileSystem cwd)) req
      res).run w = .ok o w') {l : Loc Str} (hl : w.disk.isDir l = true) : w'.disk.isDir l = true := by
  obtain ⟨B, hB, hd⟩ := hroot
  unfold serveSecure at hrun
  obtain ⟨h, u, hnew, hrun⟩ := run_bind_ok hrun
  rw [run_onDisk] at hnew
  by_cases hr : MakesDir refuses cwd w.disk ⟨dataPath ++ "/priv".toList⟩ ∧
      MakesDir refuses cwd w.disk ⟨dataPath ++ "/pub".toList⟩
  · rw [run_new_granted hB hd hr.1 hr.2] at hnew
    cases hnew
    have hl' : (withAreas cwd w.disk dataPath).isDir l = true := by
      rw [FileTree.isDir_iff] at hl ⊢
      rw [@node_withAreas dataPath cwd w.disk B hB hd, if_neg (by simp [hl]), hl]
    rw [getResponse_eq] at hrun
    cases hp : principalOf authorizer req with
    | unauthenticated =>
      rw [hp] at hrun
      cases hrun
      exact hl'
    | publicUser =>
      rw [hp] at hrun
      exact isDir_getResponse hrun hl'
    | user userId =>
      simp only [hp] at hrun
      split_ifs at hrun
      · exact isDir_getResponse hrun hl'
      · exact isDir_getResponse hrun hl'
  · obtain ⟨t', herr⟩ := @not_calm_new refuses dataPath prefixLength authorizer cwd w.disk B hB hd hr
    simp [herr] at hnew

end Secure

end Kachow.Handlers.Refusals
