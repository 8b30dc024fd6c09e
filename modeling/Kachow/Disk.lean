import Kachow.Boost.Paths
import Kachow.Http.Messages

/-! # The file system under the handlers

`FileSystem` is the interface the handlers are written against, over a type `σ` of states. The
operations may throw. `realFileSystem` is the one the server runs on: a tree of files, read from the
current directory `cwd`. `logged` is a file system that also writes down the paths it is asked to
create, write, read or remove. -/

namespace Kachow.Disk

open Kachow.Lib.Text Kachow.Lib.Files Kachow.Boost.Paths Kachow.Http.Messages

/-- `FileSystem`. -/
structure FileSystem (σ : Type) where
  exists_ : Path → EStateM Fault σ Bool
  createDirectory : Path → EStateM Fault σ Bool
  isRegularFile : Path → EStateM Fault σ Bool
  remove : Path → EStateM Fault σ Bool
  writeFile : Path → Str → EStateM Fault σ Bool
  readFile : Path → EStateM Fault σ Str

/-- The files of the server. -/
abbrev Tree := FileTree Str Str

/-! ### The real file system -/

section Real
variable (cwd : Loc Str) (t : Tree) (p : Path)

/-- `fs::exists`. -/
def existsAt : Bool :=
  match p.locate t cwd with
  | some l => (t.node l).isSome
  | none => false

/-- `fs::is_regular_file`. -/
def isFileAt : Bool :=
  match p.locate t cwd with
  | some l => t.isFile l
  | none => false

/-- The contents `std::ifstream` reads: nothing if the file cannot be opened. -/
def readAt : Str :=
  match p.locate t cwd with
  | some l => (t.read l).getD []
  | none => []

/-- What `fs::ofstream` leaves: nothing is written if the file cannot be opened. -/
def writeAt (body : Str) : Tree :=
  match p.locate t cwd with
  | some l => t.write l body
  | none => t

/-- `fs::create_directory`; `none` where it throws. A separator behind the name of the new directory
does not matter. -/
def mkdirAt : Option (Bool × Tree) :=
  match p.locateNew t cwd with
  | some l => t.mkdir l
  | none => none

/-- `fs::remove`; `none` where it throws. -/
def removeAt : Option (Bool × Tree) :=
  match p.locate t cwd with
  | some l => t.unlink l
  | none => some (false, t)

end Real

/-! ### Calls on a path that leads somewhere -/

section Located
variable {cwd l : Loc Str} {t : Tree} {p : Path}

theorem existsAt_of_locate (h : p.locate t cwd = some l) : existsAt cwd t p = (t.node l).isSome := by
  unfold existsAt; rw [h]

theorem isFileAt_of_locate (h : p.locate t cwd = some l) : isFileAt cwd t p = t.isFile l := by
  unfold isFileAt; rw [h]

theorem readAt_of_locate (h : p.locate t cwd = some l) : readAt cwd t p = (t.read l).getD [] := by
  unfold readAt; rw [h]

theorem writeAt_of_locate (h : p.locate t cwd = some l) (b : Str) :
    writeAt cwd t p b = t.write l b := by
  unfold writeAt; rw [h]

theorem mkdirAt_of_locateNew (h : p.locateNew t cwd = some l) : mkdirAt cwd t p = t.mkdir l := by
  unfold mkdirAt; rw [h]

theorem mkdirAt_of_locate (h : p.locate t cwd = some l) : mkdirAt cwd t p = t.mkdir l :=
  mkdirAt_of_locateNew (locateNew_of_locate h)

theorem removeAt_of_locate (h : p.locate t cwd = some l) : removeAt cwd t p = t.unlink l := by
  unfold removeAt; rw [h]

theorem locate_of_existsAt (h : existsAt cwd t p = true) :
    ∃ l, p.locate t cwd = some l ∧ t.node l ≠ none := by
  cases hl : p.locate t cwd with
  | none => simp [existsAt, hl] at h
  | some l =>
    rw [existsAt_of_locate hl] at h
    exact ⟨l, rfl, Option.isSome_iff_ne_none.mp h⟩

theorem locate_of_isFileAt (h : isFileAt cwd t p = true) :
    ∃ l, p.locate t cwd = some l ∧ t.isFile l = true := by
  cases hl : p.locate t cwd with
  | none => simp [isFileAt, hl] at h
  | some l => exact ⟨l, rfl, by rwa [isFileAt_of_locate hl] at h⟩

/-- A regular file is there. -/
theorem existsAt_of_isFileAt (h : isFileAt cwd t p = true) : existsAt cwd t p = true := by
  obtain ⟨l, hl, hf⟩ := locate_of_isFileAt h
  obtain ⟨b, hb⟩ := FileTree.isFile_iff.mp hf
  rw [existsAt_of_locate hl, hb]
  rfl

theorem locateNew_of_mkdirAt {b : Bool × Tree} (h : mkdirAt cwd t p = some b) :
    ∃ l, p.locateNew t cwd = some l ∧ t.mkdir l = some b := by
  cases hl : p.locateNew t cwd with
  | none => simp [mkdirAt, hl] at h
  | some l => exact ⟨l, rfl, by rwa [mkdirAt_of_locateNew hl] at h⟩

/-- Where something new is to be made, nothing exists if nothing is there. -/
theorem existsAt_of_locateNew (h : p.locateNew t cwd = some l) (hn : t.node l = none) :
    existsAt cwd t p = false := by
  cases hl : p.locate t cwd with
  | none => simp [existsAt, hl]
  | some k =>
    obtain rfl := node_of_locateNew h hl
    rw [existsAt_of_locate hl, hn]
    rfl

/-- Where something new is to be made and nothing is, something can be put. -/
theorem canPut_of_locateNew (h : p.locateNew t cwd = some l) (hn : t.node l = none) : t.CanPut l := by
  have hstart : (parts '/' p.pathname).map comp = [] → t.node (p.start cwd) ≠ none := by
    intro hparts
    rw [start_of_parts_eq_nil (locateNew_ne_nil h) (List.map_eq_nil_iff.mp hparts),
      FileTree.isDir_iff.mp FileTree.isDir_root]
    simp
  obtain ⟨hne, hdir⟩ := FileTree.isDir_dropLast_of_locate hstart (locateNew_walk h) hn
  exact ⟨hne, hdir, by unfold FileTree.isDir; rw [hn]⟩

/-- Where a path leads and nothing is, something can be put. -/
theorem canPut_of_locate (h : p.locate t cwd = some l) (hn : t.node l = none) : t.CanPut l :=
  canPut_of_locateNew (locateNew_of_locate h) hn

/-- A directory that is missing is made, where its path leads somewhere. -/
theorem mkdirAt_of_missing (h : p.locate t cwd = some l) (hex : existsAt cwd t p = false) :
    ∃ t', mkdirAt cwd t p = some (true, t') ∧ t'.isDir l = true := by
  have hn : t.node l = none := by
    rw [existsAt_of_locate h] at hex
    simpa using hex
  have hput := canPut_of_locate h hn
  refine ⟨t.put l .dir hput, ?_, ?_⟩
  · rw [mkdirAt_of_locate h, FileTree.mkdir_of_canPut hput hn]
  · rw [FileTree.isDir_iff, FileTree.node_put, if_pos rfl]

/-- Where a path leads, a file can be written unless a directory is there. -/
theorem canPut_iff (h : p.locate t cwd = some l) : t.CanPut l ↔ t.isDir l = false := by
  refine ⟨fun hput => hput.2.2, fun hd => ?_⟩
  by_cases hn : t.node l = none
  · exact canPut_of_locate h hn
  · rcases List.eq_nil_or_concat l with rfl | ⟨l, x, rfl⟩
    · exact absurd (FileTree.isDir_iff.mpr t.root) (by rw [hd]; simp)
    · rw [List.concat_eq_append] at hn hd ⊢
      exact ⟨by simp, by rw [List.dropLast_concat]; exact FileTree.isDir_of_node hn, hd⟩

/-! ### What the calls change -/

/-- Writing a file changes nothing but the place the path leads to. -/
theorem node_writeAt (b : Str) (l : Loc Str) : (writeAt cwd t p b).node l = t.node l ∨
    p.locate t cwd = some l ∧ (writeAt cwd t p b).node l = some (.file b) ∧ t.CanPut l := by
  cases hl : p.locate t cwd with
  | none => left; unfold writeAt; rw [hl]
  | some l' =>
    rw [writeAt_of_locate hl, FileTree.node_write]
    by_cases h : l = l' ∧ t.CanPut l'
    · right
      rw [if_pos h]
      exact ⟨by rw [h.1], rfl, by rw [h.1]; exact h.2⟩
    · exact Or.inl (if_neg h)

theorem isDir_writeAt (b : Str) (l : Loc Str) : (writeAt cwd t p b).isDir l = t.isDir l := by
  cases hl : p.locate t cwd with
  | none => unfold writeAt; rw [hl]
  | some l' => rw [writeAt_of_locate hl]; exact FileTree.isDir_write l' b l

theorem locate_writeAt {q : Path} (b : Str) (h : q.locate t cwd = some l) :
    q.locate (writeAt cwd t p b) cwd = some l :=
  path_locate_mono (fun l' hl => by rw [isDir_writeAt]; exact hl) h

/-- A file that can be written is there then. -/
theorem isFileAt_writeAt (h : p.locate t cwd = some l) (hput : t.CanPut l) (b : Str) :
    isFileAt cwd (writeAt cwd t p b) p = true := by
  rw [isFileAt_of_locate (locate_writeAt b h), writeAt_of_locate h]
  unfold FileTree.isFile
  rw [FileTree.node_write, if_pos ⟨rfl, hput⟩]

/-- Making a directory changes nothing but the place of the path. -/
theorem node_mkdirAt {b : Bool × Tree} (h : mkdirAt cwd t p = some b) (l : Loc Str) :
    b.2.node l = t.node l ∨
      l = p.resolve cwd ∧ b.2.node l = some .dir ∧ t.isFile l = false := by
  obtain ⟨l', hl, hm⟩ := locateNew_of_mkdirAt h
  rw [FileTree.node_mkdir hm]
  by_cases hl' : l = l'
  · subst hl'
    exact Or.inr ⟨locateNew_resolve hl, if_pos rfl, FileTree.isFile_of_mkdir hm⟩
  · exact Or.inl (if_neg hl')

theorem isDir_mkdirAt {b : Bool × Tree} (h : mkdirAt cwd t p = some b) {l : Loc Str}
    (hd : t.isDir l = true) : b.2.isDir l = true := by
  obtain ⟨l', -, hm⟩ := locateNew_of_mkdirAt h
  exact FileTree.isDir_mkdir hm hd

theorem locate_mkdirAt {b : Bool × Tree} {q : Path} (h : mkdirAt cwd t p = some b)
    (hq : q.locate t cwd = some l) : q.locate b.2 cwd = some l :=
  path_locate_mono (fun _ hl => isDir_mkdirAt h hl) hq

/-- Removing a file works, and removes nothing else. -/
theorem removeAt_of_isFileAt (h : isFileAt cwd t p = true) : ∃ l t', p.locate t cwd = some l ∧
    t.isFile l = true ∧ removeAt cwd t p = some (true, t') ∧
    (∀ l', t'.node l' = if l' = l then none else t.node l') ∧ ∀ l', t'.isDir l' = t.isDir l' := by
  obtain ⟨l, hl, hf⟩ := locate_of_isFileAt h
  obtain ⟨hne, hu⟩ := FileTree.unlink_of_isFile hf
  refine ⟨l, t.erase l hne, hl, hf, ?_, FileTree.node_erase, FileTree.isDir_erase hf⟩
  rw [removeAt_of_locate hl, hu]

end Located

theorem canPut_empty (d : Str) : (FileTree.empty : Tree).CanPut [d] := by
  refine ⟨by simp, by simp, ?_⟩
  unfold FileTree.isDir
  rw [FileTree.node_empty, if_neg (by simp)]

/-- A tree with nothing in it but the directory `d`. -/
def withDir (d : Str) : Tree := FileTree.empty.put [d] .dir (canPut_empty d)

theorem node_withDir (d : Str) (l : Loc Str) :
    (withDir d).node l = if l = [d] ∨ l = [] then some .dir else none := by
  unfold withDir
  rw [FileTree.node_put, FileTree.node_empty]
  by_cases h1 : l = [d] <;> by_cases h2 : l = [] <;> simp [h1, h2]

/-- A call that may throw `filesystem_error`. -/
def orThrow (f : Tree → Option (Bool × Tree)) : EStateM Fault Tree Bool := fun t =>
  match f t with
  | some (b, t') => .ok b t'
  | none => .error .filesystemError t

/-- `RealFileSystem`. -/
def realFileSystem (cwd : Loc Str) : FileSystem Tree where
  exists_ p := fun t => .ok (existsAt cwd t p) t
  createDirectory p := orThrow (mkdirAt cwd · p)
  isRegularFile p := fun t => .ok (isFileAt cwd t p) t
  remove p := orThrow (removeAt cwd · p)
  writeFile p body := fun t => .ok true (writeAt cwd t p body)
  readFile p := fun t => .ok (readAt cwd t p) t

/-! ### Writing down the accesses -/

/-- A path a file system was asked to create, write, read or remove. -/
inductive Access where
  | createDirectory (p : Path)
  | writeFile (p : Path)
  | readFile (p : Path)
  | remove (p : Path)
  deriving DecidableEq, Repr

/-- The path of an access. -/
def Access.path : Access → Path
  | .createDirectory p => p
  | .writeFile p => p
  | .readFile p => p
  | .remove p => p

/-- The call, with its accesses written down. -/
def withLog {σ α : Type} (as : List Access) (x : EStateM Fault σ α) :
    EStateM Fault (σ × List Access) α := fun s =>
  match x s.1 with
  | .ok a t => .ok a (t, s.2 ++ as)
  | .error e t => .error e (t, s.2 ++ as)

/-- A file system that writes down its accesses. -/
def logged {σ : Type} (file : FileSystem σ) : FileSystem (σ × List Access) where
  exists_ p := withLog [] (file.exists_ p)
  createDirectory p := withLog [.createDirectory p] (file.createDirectory p)
  isRegularFile p := withLog [] (file.isRegularFile p)
  remove p := withLog [.remove p] (file.remove p)
  writeFile p body := withLog [.writeFile p] (file.writeFile p body)
  readFile p := withLog [.readFile p] (file.readFile p)

end Kachow.Disk
