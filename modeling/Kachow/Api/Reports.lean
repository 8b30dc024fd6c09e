import Kachow.Api.Handler
import Kachow.Lib.Runs

/-! # What a file system reports

`create_directory`, `write_file` and `remove` report whether they have succeeded, and the handler does
not look at the reports. `reported` is a file system that writes them down; the handler does on it what
it does without (`reported_getResponse`).

`MayFail` is a file system on which each of the three may fail: then it reports `false` and changes
nothing. What is in the files is seen by their paths, so nothing is said about how they are kept.
`limited` is one, a disk on which only so many changes can be made.

The real file system is not, as it does not report a failure: `create_directory` and `remove` throw, and
`write_file` reports `true` though the file could not be opened. But for these calls it is one
(`honest_createDirectory_iff`, `honest_remove_iff`, `honest_writeFile_iff`). -/

namespace Kachow.Api.Reports

open Kachow.Lib.Text Kachow.Lib.Decimal Kachow.Lib.Files Kachow.Lib.Runs Kachow.Boost.Paths
open Kachow.Http.Messages Kachow.Http.Mime Kachow.Disk Kachow.Api.Ids Kachow.Api.Handler

variable {σ α : Type}

/-! ### Writing the reports down -/

/-- A call whose report is written down. -/
def withReport (x : EStateM Fault σ Bool) : EStateM Fault (σ × List Bool) Bool := fun s =>
  match x s.1 with
  | .ok b t => .ok b (t, s.2 ++ [b])
  | .error e t => .error e (t, s.2)

/-- A call without a report. -/
def unreported (x : EStateM Fault σ α) : EStateM Fault (σ × List Bool) α := fun s =>
  match x s.1 with
  | .ok a t => .ok a (t, s.2)
  | .error e t => .error e (t, s.2)

/-- A file system that writes down the reports. -/
def reported (file : FileSystem σ) : FileSystem (σ × List Bool) where
  exists_ p := unreported (file.exists_ p)
  createDirectory p := withReport (file.createDirectory p)
  isRegularFile p := unreported (file.isRegularFile p)
  remove p := withReport (file.remove p)
  writeFile p body := withReport (file.writeFile p body)
  readFile p := unreported (file.readFile p)

section Calls
variable {x : EStateM Fault σ Bool} {y : EStateM Fault σ α} {s t : σ} {log : List Bool}
  {m : EntityIdMap} {a : α} {b : Bool}

theorem run_withReport (h : x.run s = .ok b t) : (onDisk (withReport x)).run ⟨(s, log), m⟩ =
    .ok b ⟨(t, log ++ [b]), m⟩ := by
  have hx : x s = .ok b t := h
  simp [onDisk, withReport, EStateM.run, hx]

theorem run_unreported (h : y.run s = .ok a t) : (onDisk (unreported y)).run ⟨(s, log), m⟩ =
    .ok a ⟨(t, log), m⟩ := by
  have hy : y s = .ok a t := h
  simp [onDisk, unreported, EStateM.run, hy]

end Calls

/-! ### The handler without the reports -/

/-- The world without the reports. -/
def unlogged (w : World (σ × List Bool)) : World σ := ⟨w.disk.1, w.entityIdMap⟩

theorem erases_withReport (x : EStateM Fault σ Bool) : Erases Prod.fst (withReport x) x := by
  intro s
  unfold withReport EStateM.run
  cases h : x s.1 <;> simp [mapState, h]

theorem erases_unreported (x : EStateM Fault σ α) : Erases Prod.fst (unreported x) x := by
  intro s
  unfold unreported EStateM.run
  cases h : x s.1 <;> simp [mapState, h]

theorem erases_onDisk {x : EStateM Fault (σ × List Bool) α} {y : EStateM Fault σ α}
    (h : Erases Prod.fst x y) : Erases unlogged (onDisk x) (onDisk y) := by
  intro w
  have hw := h w.disk
  rw [run_onDisk, run_onDisk]
  simp only [unlogged, ← hw]
  cases x.run w.disk <;> rfl

theorem erases_onIds (f : EntityIdMap → EntityIdMap) :
    Erases unlogged (onIds f : EStateM Fault (World (σ × List Bool)) Unit) (onIds f) := fun _ => rfl

theorem erases_takeNextId (entity : Str) :
    Erases unlogged (takeNextId entity : EStateM Fault (World (σ × List Bool)) ℤ)
      (takeNextId entity) := by
  intro w
  rw [run_takeNextId, run_takeNextId]
  simp only [unlogged]
  cases getNextId w.entityIdMap entity <;> rfl

section Handler
variable (h : RequestHandlerAPI) (file : FileSystem σ) (req : Request) (res : Response) (u : ParsedUrl)

theorem reported_create : Erases unlogged (create h (reported file) req res u)
    (create h file req res u) := by
  have hwrite : ∀ id, Erases unlogged (onDisk ((reported file).writeFile
      (u.fullPath.append (intToString id)) req.body)) (onDisk (file.writeFile _ _)) :=
    fun _ => erases_onDisk (erases_withReport _)
  have hrest := erases_bind (erases_takeNextId u.entity) fun id =>
    erases_bind (hwrite id) fun _ => erases_pure (true, setCreated res id)
  unfold create
  refine erases_ite (erases_pure _) (erases_bind (erases_onDisk (erases_unreported _)) fun there => ?_)
  refine erases_ite (erases_bind (erases_onDisk (erases_withReport _)) fun _ => ?_) hrest
  exact erases_bind (erases_onIds _) fun _ => hrest

theorem reported_retrieve : Erases unlogged (retrieve (reported file) res u) (retrieve file res u) := by
  have hread : Erases unlogged (onDisk ((reported file).readFile u.fullPath)) (onDisk (file.readFile _)) :=
    erases_onDisk (erases_unreported _)
  have hmissing : Erases (@unlogged σ) _ _ := erases_bind (erases_onIds fun m =>
    eraseIfExist m u.entity u.id) fun _ => erases_pure (false, setNotfoundRequest res)
  have hfound := erases_bind hread fun body =>
    erases_bind (erases_onIds fun m => insertIfNotexist m u.entity u.id) fun _ =>
      erases_pure (true, res.fill 200 (extensionToMIME u.fullPath.extension) body)
  unfold retrieve
  refine erases_bind (erases_onDisk (erases_unreported _)) fun there => ?_
  refine erases_ite (erases_ite (erases_pure _) fun _ => rfl) ?_
  exact erases_ite (erases_bind (erases_onDisk (erases_unreported _)) fun _ => erases_ite hmissing hfound)
    (erases_bind (erases_pure _) fun _ => erases_ite hmissing hfound)

theorem reported_update : Erases unlogged (update h (reported file) req res u)
    (update h file req res u) := by
  have hwrite : Erases unlogged (onDisk ((reported file).writeFile u.fullPath req.body))
      (onDisk (file.writeFile _ _)) := erases_onDisk (erases_withReport _)
  have hrest := erases_bind hwrite fun _ =>
    erases_bind (erases_onIds fun m => insertIfNotexist m u.entity u.id) fun _ =>
      erases_pure (true, setOk res)
  unfold update
  refine erases_ite (erases_pure _) (erases_bind (erases_onDisk (erases_unreported _)) fun there => ?_)
  exact erases_ite (erases_bind (erases_onDisk (erases_withReport _)) fun _ => hrest) hrest

theorem reported_remove : Erases unlogged (remove (reported file) res u) (remove file res u) := by
  have hremove : Erases unlogged (onDisk ((reported file).remove u.fullPath))
      (onDisk (file.remove _)) := erases_onDisk (erases_withReport _)
  have hfound := erases_bind hremove fun _ =>
    erases_bind (erases_onIds fun m => eraseIfExist m u.entity u.id) fun _ =>
      erases_pure (true, setOk res)
  unfold remove
  refine erases_bind (erases_onDisk (erases_unreported _)) fun there => ?_
  exact erases_ite (erases_bind (erases_onDisk (erases_unreported _)) fun _ => erases_ite (erases_pure _) hfound)
    (erases_bind (erases_pure _) fun _ => erases_ite (erases_pure _) hfound)

/-- **The reports are only written down.** -/
theorem reported_getResponse : Erases unlogged (h.getResponse (reported file) req res)
    (h.getResponse file req res) := by
  intro w
  rw [run_getResponse, run_getResponse]
  cases h.parseUrlTarget req with
  | error e => rfl
  | ok u =>
    simp only
    split_ifs
    · unfold serve
      cases req.method with
      | post => exact reported_create h file req res u w
      | get => exact reported_retrieve file res u w
      | put => exact reported_update h file req res u w
      | delete => exact reported_remove file res u w
      | _ => rfl
    · rfl

end Handler

/-! ### Operations that may fail -/

/-- What is there is a regular file. -/
def isFileNode : Option (Node Str) → Bool
  | some (.file _) => true
  | _ => false

/-- `view` is what is at each path. An operation that changes something reports `true` and has taken
effect, or reports `false` and has changed nothing. -/
structure MayFail (file : FileSystem σ) (view : σ → Path → Option (Node Str)) : Prop where
  exists_ : ∀ p s, ∃ s', (file.exists_ p).run s = .ok (view s p).isSome s' ∧ view s' = view s
  isRegularFile : ∀ p s, ∃ s',
    (file.isRegularFile p).run s = .ok (isFileNode (view s p)) s' ∧ view s' = view s
  readFile : ∀ p s, ∃ c s', (file.readFile p).run s = .ok c s' ∧ view s' = view s ∧
    ∀ body, view s p = some (.file body) → c = body
  createDirectory : ∀ p s, ∃ b s', (file.createDirectory p).run s = .ok b s' ∧
    (b = true → view s' p = some .dir) ∧ (b = false → view s' = view s)
  writeFile : ∀ p body s, ∃ b s', (file.writeFile p body).run s = .ok b s' ∧
    (b = true → view s' p = some (.file body)) ∧ (b = false → view s' = view s)
  remove : ∀ p s, ∃ b s', (file.remove p).run s = .ok b s' ∧
    (b = true → view s' p = none) ∧ (b = false → view s' = view s)

/-- What is at the path. -/
def nodeAt (cwd : Loc Str) (t : Tree) (p : Path) : Option (Node Str) := (p.locate t cwd).bind t.node

section Limited
variable (cwd : Loc Str)

/-- A change, as long as there is room for one and it takes effect. -/
def attempt (change : Tree → Tree) (took : Tree → Bool) : EStateM Fault (Tree × ℕ) Bool := fun s =>
  if s.2 ≠ 0 ∧ took (change s.1) = true then .ok true (change s.1, s.2 - 1) else .ok false s

/-- A disk on which only so many changes can be made. -/
def limited : FileSystem (Tree × ℕ) where
  exists_ p := fun s => .ok (nodeAt cwd s.1 p).isSome s
  createDirectory p := attempt (fun t => ((mkdirAt cwd t p).map Prod.snd).getD t)
    fun t => nodeAt cwd t p = some .dir
  isRegularFile p := fun s => .ok (isFileNode (nodeAt cwd s.1 p)) s
  remove p := attempt (fun t => ((removeAt cwd t p).map Prod.snd).getD t) fun t => nodeAt cwd t p = none
  writeFile p body := attempt (fun t => writeAt cwd t p body) fun t => nodeAt cwd t p = some (.file body)
  readFile p := fun s => .ok (readAt cwd s.1 p) s

theorem run_attempt (P : Tree → Prop) [DecidablePred P] (change : Tree → Tree) (s : Tree × ℕ) :
    ∃ b s', (attempt change fun t => P t).run s = .ok b s' ∧ (b = true → P s'.1) ∧
      (b = false → nodeAt cwd s'.1 = nodeAt cwd s.1) := by
  by_cases h : s.2 ≠ 0 ∧ decide (P (change s.1)) = true
  · exact ⟨true, _, if_pos h, fun _ => of_decide_eq_true h.2, fun hb => absurd hb (by simp)⟩
  · exact ⟨false, s, if_neg h, fun hb => absurd hb (by simp), fun _ => rfl⟩

theorem limited_mayFail : MayFail (limited cwd) fun s => nodeAt cwd s.1 where
  exists_ _ _ := ⟨_, rfl, rfl⟩
  isRegularFile _ _ := ⟨_, rfl, rfl⟩
  readFile p s := by
    refine ⟨_, s, rfl, rfl, fun body hbody => ?_⟩
    obtain ⟨l, hl, hn⟩ := Option.bind_eq_some_iff.mp hbody
    rw [readAt_of_locate hl]
    unfold FileTree.read
    rw [hn]
    rfl
  createDirectory p s := run_attempt cwd (nodeAt cwd · p = some .dir) _ s
  writeFile p body s := run_attempt cwd (nodeAt cwd · p = some (.file body)) (writeAt cwd · p body) s
  remove p s := run_attempt cwd (nodeAt cwd · p = none) _ s

end Limited

/-! ### The real file system -/

/-- The call reports `true`, and `n` is at the path, or it reports `false` and has changed nothing. -/
def Honest (view : σ → Path → Option (Node Str)) (x : EStateM Fault σ Bool) (p : Path)
    (n : Option (Node Str)) (s : σ) : Prop :=
  ∃ b s', x.run s = .ok b s' ∧ (b = true → view s' p = n) ∧ (b = false → view s' = view s)

section Real
variable {cwd : Loc Str} {t : Tree} {p : Path}

theorem run_orThrow (f : Tree → Option (Bool × Tree)) {b : Bool} {t' : Tree} :
    (orThrow f).run t = .ok b t' ↔ f t = some (b, t') := by
  show orThrow f t = .ok b t' ↔ _
  unfold orThrow
  cases hf : f t with
  | none => simp
  | some r =>
    obtain ⟨c, u⟩ := r
    simp

/-- A directory is made or there, unless the call throws. -/
theorem honest_createDirectory_iff :
    Honest (nodeAt cwd) ((realFileSystem cwd).createDirectory p) p (some .dir) t ↔
      mkdirAt cwd t p ≠ none := by
  constructor
  · rintro ⟨b, t', hrun, -⟩
    rw [(run_orThrow _).mp hrun]
    simp
  · intro h
    obtain ⟨⟨b, t'⟩, hm⟩ := Option.ne_none_iff_exists'.mp h
    refine ⟨b, t', (run_orThrow _).mpr hm, fun _ => ?_, ?_⟩
    · obtain ⟨l, hl, hmk⟩ := locateNew_of_mkdirAt hm
      have hdir : t'.isDir l = true := by
        rw [FileTree.isDir_iff, FileTree.node_mkdir hmk, if_pos rfl]
      have hnew := locateNew_mono (fun _ => FileTree.isDir_mkdir hmk) hl
      rw [nodeAt, locate_of_locateNew hnew hdir]
      exact FileTree.isDir_iff.mp hdir
    · rintro rfl
      obtain ⟨l, -, hmk⟩ := locateNew_of_mkdirAt hm
      rw [FileTree.mkdir_false hmk]

/-- What is there is removed, unless the call throws. -/
theorem honest_remove_iff : Honest (nodeAt cwd) ((realFileSystem cwd).remove p) p none t ↔
    removeAt cwd t p ≠ none := by
  constructor
  · rintro ⟨b, t', hrun, -⟩
    rw [(run_orThrow _).mp hrun]
    simp
  · intro h
    obtain ⟨⟨b, t'⟩, hrm⟩ := Option.ne_none_iff_exists'.mp h
    refine ⟨b, t', (run_orThrow _).mpr hrm, ?_⟩
    cases hl : p.locate t cwd with
    | none =>
      unfold removeAt at hrm
      rw [hl] at hrm
      cases hrm
      exact ⟨fun hb => absurd hb (by simp), fun _ => rfl⟩
    | some l =>
      rw [removeAt_of_locate hl] at hrm
      obtain ⟨hgone, hsame⟩ := FileTree.unlink_some hrm
      refine ⟨fun hb => ?_, fun hb => by rw [hsame hb]⟩
      rw [nodeAt]
      cases hl' : p.locate t' cwd with
      | none => rfl
      | some l' =>
        rw [locate_resolve hl', ← locate_resolve hl]
        exact hgone hb

/-- A file is written, unless its path leads nowhere or to a directory; then `true` is reported too. -/
theorem honest_writeFile_iff {body : Str} :
    Honest (nodeAt cwd) ((realFileSystem cwd).writeFile p body) p (some (.file body)) t ↔
      ∃ l, p.locate t cwd = some l ∧ t.isDir l = false := by
  constructor
  · rintro ⟨b, t', hrun, htrue, -⟩
    obtain ⟨rfl, rfl⟩ := EStateM.Result.ok.inj hrun
    obtain ⟨l, hl, hn⟩ := Option.bind_eq_some_iff.mp (htrue rfl)
    refine ⟨l, path_locate_mono (fun l' hd => by rwa [isDir_writeAt] at hd) hl, ?_⟩
    rw [← isDir_writeAt body l]
    unfold FileTree.isDir
    rw [hn]
  · rintro ⟨l, hl, hd⟩
    refine ⟨true, _, rfl, fun _ => ?_, fun hb => absurd hb (by simp)⟩
    rw [nodeAt, locate_writeAt body hl, writeAt_of_locate hl]
    exact (FileTree.node_write l body l).trans (if_pos ⟨rfl, (canPut_iff hl).mpr hd⟩)

end Real

end Kachow.Api.Reports
