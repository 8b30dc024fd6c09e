import Kachow.Api.Target

/-! # The store behind the API

What the API is for: an entity holds objects, each under a number from `1` to `intMax` of its own
(`Store`). The server keeps a store twice, as a tree of files under the base path (`OnDisk`) and, for
the numbers in use, as the map of identifiers (`InMap`). This file says what a store looks like in
either, and that each operation of the server on one of them is the operation on the store.

The two are tied to the same store, and never to each other: no operation reads one to update the
other. -/

namespace Kachow.Api.Objects

open Kachow.Lib.Text Kachow.Lib.Decimal Kachow.Lib.Sets Kachow.Lib.Files Kachow.Boost.Paths
open Kachow.Disk Kachow.Api.Ids Kachow.Api.Handler

/-- The name of an entity, as a target can spell it without being taken for something else. -/
structure EntityName where
  name : Str
  ne_nil : name ≠ []
  noSlash : '/' ∉ name
  notDot : name ≠ ['.']
  notDots : name ≠ ['.', '.']
  notNumber : stoi name = none

/-- A name of a directory, as one step of a path. -/
structure IsName (e : Str) : Prop where
  ne_nil : e ≠ []
  noSlash : '/' ∉ e
  notDot : e ≠ ['.']
  notDots : e ≠ ['.', '.']

theorem EntityName.isName (e : EntityName) : IsName e.name :=
  ⟨e.ne_nil, e.noSlash, e.notDot, e.notDots⟩

/-- The number of an object. -/
structure ObjectId where
  number : ℤ
  pos : 1 ≤ number
  le : number ≤ intMax

theorem ObjectId.pos_one : (1 : ℤ) ≤ 1 := le_rfl

theorem ObjectId.one_le : 1 ≤ intMax := by decide

/-- A name that the tests use. -/
theorem isName_shoes : IsName "shoes".toList := ⟨by decide, by decide, by decide, by decide⟩

theorem isName_hats : IsName "hats".toList := ⟨by decide, by decide, by decide, by decide⟩

theorem stoi_shoes : stoi "shoes".toList = none := by decide

/-- The entities that have been made, and the contents of the objects there are. -/
@[ext] structure Store where
  made : Str → Bool
  content : Str → ℤ → Option Str
  live : ∀ e k, content e k ≠ none → made e = true ∧ 1 ≤ k ∧ k ≤ intMax

namespace Store

variable (s : Store)

/-- Nothing has been made. -/
def empty : Store := ⟨fun _ => false, fun _ _ => none, fun _ _ h => absurd rfl h⟩

/-- The entity is made, unless it is there. -/
def make (e : Str) : Store where
  made x := x = e || s.made x
  content := s.content
  live x k h := ⟨by simp [(s.live x k h).1], (s.live x k h).2⟩

/-- The object is stored; what was stored there is replaced. -/
def put (e : Str) (k : ObjectId) (b : Str) : Store where
  made x := x = e || s.made x
  content x j := if x = e ∧ j = k.number then some b else s.content x j
  live x j h := by
    split_ifs at h with hx
    · exact ⟨by simp [hx.1], hx.2 ▸ ⟨k.pos, k.le⟩⟩
    · exact ⟨by simp [(s.live x j h).1], (s.live x j h).2⟩

/-- The object is deleted. -/
def drop (e : Str) (k : ℤ) : Store where
  made := s.made
  content x j := if x = e ∧ j = k then none else s.content x j
  live x j h := by
    split_ifs at h with hx
    · exact absurd rfl h
    · exact s.live x j h

/-- `k` is the least number that is free in `e`. -/
def IsNext (e : Str) (k : ObjectId) : Prop :=
  s.content e k.number = none ∧ ∀ j, 1 ≤ j → j < k.number → s.content e j ≠ none

open Classical in
/-- The least free number, if there is one. -/
noncomputable def nextId (e : Str) : Option ObjectId :=
  if h : ∃ k, s.IsNext e k then some h.choose else none

variable {s}

theorem isNext_nextId {e : Str} {k : ObjectId} (h : s.nextId e = some k) : s.IsNext e k := by
  unfold nextId at h
  split_ifs at h with hex
  exact Option.some.inj h ▸ hex.choose_spec

/-- There is only one least free number. -/
theorem nextId_eq {e : Str} {k : ObjectId} (h : s.IsNext e k) : s.nextId e = some k := by
  have hex : ∃ k, s.IsNext e k := ⟨k, h⟩
  have hle : ∀ {i j : ObjectId}, s.IsNext e i → s.IsNext e j → i.number ≤ j.number := by
    intro i j hi hj
    by_contra hlt
    exact hi.2 j.number j.pos (by omega) hj.1
  have hnum : hex.choose.number = k.number :=
    le_antisymm (hle hex.choose_spec h) (hle h hex.choose_spec)
  unfold nextId
  rw [dif_pos hex]
  generalize hex.choose = i at hnum
  obtain ⟨n, hn1, hn2⟩ := i
  obtain ⟨n', hn1', hn2'⟩ := k
  obtain rfl : n = n' := hnum
  rfl

theorem make_put (e : Str) (k : ObjectId) (b : Str) : (s.make e).put e k b = s.put e k b := by
  ext x <;> simp [make, put]

theorem make_of_made {e : Str} (h : s.made e = true) : s.make e = s := by
  ext x
  · by_cases hx : x = e <;> simp [make, hx, h]
  · rfl

theorem content_of_not_made {e : Str} (h : s.made e = false) (k : ℤ) : s.content e k = none := by
  by_contra hc
  rw [(s.live e k hc).1] at h
  exact absurd h (by simp)

end Store

/-! ### In the tree of files -/

/-- The path of an entity. -/
def entityPath (base : Path) (e : Str) : Path := ⟨base.pathname ++ '/' :: e⟩

/-- The path of an object. -/
def objectPath (base : Path) (e : Str) (k : ℤ) : Path :=
  ⟨base.pathname ++ '/' :: e ++ '/' :: intToString k⟩

section Levels
variable {base : Path} {e : Str} (hb : TakesNames base) (he : IsName e) (k : ℤ)
include hb he

theorem named_entity : Named (entityPath base e) ∧
    (entityPath base e).elements = base.elements ++ [e] ∧
    (entityPath base e).parentPath.same base = true := by
  obtain ⟨hn, hel⟩ := hb e he.ne_nil he.noSlash
  refine ⟨hn, hel, ?_⟩
  rw [same_iff, elements_parentPath]
  unfold entityPath
  rw [hel, List.dropLast_concat]

theorem named_object : (objectPath base e k).elements = base.elements ++ [e] ++ [intToString k] ∧
    (objectPath base e k).parentPath = entityPath base e := by
  obtain ⟨hn, hel, -⟩ := named_entity hb he
  have hk : '/' ∉ intToString k := notMem_intToString (by decide) (by decide) k
  obtain ⟨-, h2, h3⟩ := hn.append_name (intToString_ne_nil k) hk
  exact ⟨by rw [← hel]; exact h2, h3⟩

theorem append_entity : (entityPath base e).append (intToString k) = objectPath base e k := by
  obtain ⟨hn, -, -⟩ := named_entity hb he
  have hk : '/' ∉ intToString k := notMem_intToString (by decide) (by decide) k
  unfold Path.append
  rw [if_neg (intToString_ne_nil k), if_neg]
  · rfl
  · have hhead : (intToString k).head? ≠ some '/' := noSep_of_notMem hk
    simp [hn.ne_nil, hn.noSlash, hhead]

omit k in
theorem not_same_entity : (entityPath base e).same base = false := by
  rw [← Bool.not_eq_true, same_iff, (named_entity hb he).2.1]
  simp

end Levels

/-- The tree holds the store under the base path, which leads to `B`. -/
structure OnDisk (base : Path) (cwd B : Loc Str) (t : Tree) (s : Store) : Prop where
  base : base.locate t cwd = some B
  dir : t.isDir B = true
  entity : ∀ e, t.node (B ++ [e]) = if s.made e then some .dir else none
  object : ∀ e k, 1 ≤ k → k ≤ intMax →
    t.node (B ++ [e] ++ [intToString k]) = (s.content e k).map .file

namespace OnDisk

variable {base : Path} {cwd B : Loc Str} {t : Tree} {s : Store} {e : Str} (k : ObjectId)

theorem comps_entity (he : IsName e) : Path.comps ⟨'/' :: e⟩ = [.name e] := by
  rw [comps_name he.ne_nil he.noSlash, comp, if_neg he.notDot, if_neg he.notDots]

theorem comp_intToString (k : ℤ) : comp (intToString k) = .name (intToString k) := by
  have hdot : '.' ∉ intToString k := notMem_intToString (by decide) (by decide) k
  rw [comp, if_neg fun h => hdot (by simp [h]), if_neg fun h => hdot (by simp [h])]

theorem noSlash_intToString (k : ℤ) : '/' ∉ intToString k :=
  notMem_intToString (by decide) (by decide) k

/-- The file of an object lies in the directory of its entity. -/
theorem resolve_append_number {p : Path} (hp : p.pathname ≠ []) (id : ℤ) :
    (p.append (intToString id)).resolve cwd = p.resolve cwd ++ [intToString id] := by
  rw [resolve_append_name hp (intToString_ne_nil id) (noSlash_intToString id), comp_intToString]
  rfl

theorem entity_ne_object (e x : Str) (k : ℤ) : B ++ [x] ≠ B ++ [e] ++ [intToString k] := by
  intro h
  simpa using congrArg List.length h

section
variable (h : OnDisk base cwd B t s) (he : IsName e)
include h

include he in
theorem locate_entity : (entityPath base e).locate t cwd = some (B ++ [e]) := by
  have := locate_append_slash h.base e
  rw [append_slash, comps_entity he, FileTree.locate, if_pos h.dir] at this
  exact this

theorem isDir_entity (x : Str) : t.isDir (B ++ [x]) = s.made x := by
  unfold FileTree.isDir
  rw [h.entity]
  cases s.made x <;> rfl

include he in
theorem locate_object (k : ℤ) : (objectPath base e k).locate t cwd =
    if s.made e then some (B ++ [e] ++ [intToString k]) else none := by
  have := locate_append_slash (h.locate_entity he) (intToString k)
  rw [append_slash, comps_name (intToString_ne_nil k) (noSlash_intToString k), comp_intToString,
    FileTree.locate, h.isDir_entity] at this
  exact this

include he in
theorem existsAt_entity : existsAt cwd t (entityPath base e) = s.made e := by
  rw [existsAt_of_locate (h.locate_entity he), h.entity]
  cases s.made e <;> rfl

include he in
/-- An entity is no file. -/
theorem isFileAt_entity : isFileAt cwd t (entityPath base e) = false := by
  rw [isFileAt_of_locate (h.locate_entity he)]
  unfold FileTree.isFile
  rw [h.entity]
  cases s.made e <;> rfl

include he in
/-- The object is there if and only if the store has it. -/
theorem isFileAt_object : (existsAt cwd t (objectPath base e k.number) &&
    isFileAt cwd t (objectPath base e k.number)) = (s.content e k.number).isSome := by
  by_cases hm : s.made e = true
  · have hl := h.locate_object he k.number
    rw [if_pos hm] at hl
    rw [existsAt_of_locate hl, isFileAt_of_locate hl]
    unfold FileTree.isFile
    rw [h.object _ _ k.pos k.le]
    cases s.content e k.number <;> rfl
  · have hl := h.locate_object he k.number
    rw [if_neg hm] at hl
    have hn : existsAt cwd t (objectPath base e k.number) = false := by
      unfold existsAt; rw [hl]
    rw [hn, Store.content_of_not_made (by simpa using hm)]
    rfl

include he in
theorem readAt_object {b : Str} (hb : s.content e k.number = some b) :
    readAt cwd t (objectPath base e k.number) = b := by
  have hl := h.locate_object he k.number
  rw [if_pos (s.live e k.number (by simp [hb])).1] at hl
  rw [readAt_of_locate hl]
  unfold FileTree.read
  rw [h.object _ _ k.pos k.le, hb]
  rfl

include he in
/-- Making the directory of an entity. -/
theorem make (hm : s.made e = false) : ∃ t', mkdirAt cwd t (entityPath base e) =
    some (true, t') ∧ OnDisk base cwd B t' (s.make e) := by
  have hn : t.node (B ++ [e]) = none := by rw [h.entity, hm]; rfl
  have hput : t.CanPut (B ++ [e]) :=
    ⟨by simp, by simpa using h.dir, by rw [h.isDir_entity, hm]⟩
  have hmk := FileTree.mkdir_of_canPut hput hn
  have hat := mkdirAt_of_locate (h.locate_entity he)
  rw [hmk] at hat
  refine ⟨_, hat, locate_mkdirAt hat h.base, isDir_mkdirAt hat h.dir, fun x => ?_, fun x k h1 h2 => ?_⟩
  · rw [FileTree.node_mkdir hmk, h.entity]
    by_cases hx : x = e <;> simp [hx, Store.make]
  · rw [FileTree.node_mkdir hmk, if_neg fun he => entity_ne_object _ _ _ he.symm,
      h.object x k h1 h2]
    rfl

include he in
/-- Writing the file of an object. -/
theorem put (hm : s.made e = true) (b : Str) :
    OnDisk base cwd B (writeAt cwd t (objectPath base e k.number) b) (s.put e k b) := by
  have hl := h.locate_object he k.number
  rw [if_pos hm] at hl
  have hfile : t.isDir (B ++ [e] ++ [intToString k.number]) = false := by
    unfold FileTree.isDir
    rw [h.object _ _ k.pos k.le]
    cases s.content e k.number <;> rfl
  have hput : t.CanPut (B ++ [e] ++ [intToString k.number]) :=
    ⟨by simp, by rw [List.dropLast_concat, h.isDir_entity, hm], hfile⟩
  refine ⟨locate_writeAt b h.base, by rw [isDir_writeAt]; exact h.dir, fun x => ?_, fun x j h1 h2 => ?_⟩
  · rw [writeAt_of_locate hl, FileTree.node_write, if_neg fun he => entity_ne_object _ _ _ he.1,
      h.entity]
    by_cases hx : x = e <;> simp [hx, Store.put, hm]
  · rw [writeAt_of_locate hl, FileTree.node_write, h.object x j h1 h2]
    by_cases hx : x = e ∧ j = k.number
    · rw [if_pos ⟨by rw [hx.1, hx.2], hput⟩]
      simp [hx, Store.put]
    · rw [if_neg]
      · simp [hx, Store.put]
      · rintro ⟨he, -⟩
        simp only [List.append_assoc, List.cons_append, List.nil_append, List.append_cancel_left_eq,
          List.cons.injEq, and_true] at he
        exact hx ⟨he.1, intToString_inj he.2⟩

include he in
/-- Removing the file of an object. -/
theorem drop (hc : s.content e k.number ≠ none) :
    ∃ t', removeAt cwd t (objectPath base e k.number) = some (true, t') ∧
      OnDisk base cwd B t' (s.drop e k.number) := by
  have hf := h.isFileAt_object k he
  rw [Option.isSome_iff_ne_none.mpr hc, Bool.and_eq_true] at hf
  obtain ⟨l, t', hl, -, hrm, hnode, hdir⟩ := removeAt_of_isFileAt hf.2
  have hl' := h.locate_object he k.number
  rw [if_pos (s.live _ _ hc).1, hl, Option.some.injEq] at hl'
  subst hl'
  refine ⟨t', hrm, path_locate_mono (fun l hd => by rw [hdir]; exact hd) h.base,
    by rw [hdir]; exact h.dir, fun x => ?_, fun x j h1 h2 => ?_⟩
  · rw [hnode, if_neg (entity_ne_object _ _ _), h.entity]
    rfl
  · rw [hnode, h.object x j h1 h2]
    by_cases hx : x = e ∧ j = k.number
    · simp [hx, Store.drop]
    · rw [if_neg]
      · simp [hx, Store.drop]
      · intro he
        simp only [List.append_assoc, List.cons_append, List.nil_append, List.append_cancel_left_eq,
          List.cons.injEq, and_true] at he
        exact hx ⟨he.1, intToString_inj he.2⟩

end

end OnDisk

/-! ### In the map of identifiers -/

/-- The map has a key for each entity of the store, and its set is the numbers of the objects. -/
structure InMap (m : EntityIdMap) (s : Store) : Prop where
  key : ∀ e, (m.lookup e).isSome = s.made e
  mem : ∀ e ids k, m.lookup e = some ids → (k ∈ ids ↔ s.content e k ≠ none)

namespace InMap

variable {m : EntityIdMap} {s : Store} {e : Str}

theorem exists_ids (h : InMap m s) (hm : s.made e = true) : ∃ ids, m.lookup e = some ids := by
  rw [← h.key] at hm
  exact Option.isSome_iff_exists.mp hm

/-- The search of `getNextId` finds the least free number. -/
theorem nextFree_eq {ids : IdSet} {k : ObjectId} (h : InMap m s) (hl : m.lookup e = some ids)
    (hk : s.nextId e = some k) : nextFree ids = some k.number := by
  obtain ⟨h1, h2⟩ := Store.isNext_nextId hk
  rw [nextFree_eq_some]
  refine ⟨k.pos, k.le, fun hc => (h.mem e ids _ hl).mp hc h1, fun j hj hjk => ?_⟩
  exact (h.mem e ids j hl).mpr (h2 j hj hjk)

theorem insertKey (h : InMap m s) (e : Str) : InMap (insertKey m e) (s.make e) := by
  refine ⟨fun x => ?_, fun x ids k hx => ?_⟩
  · rw [lookup_insertKey]
    by_cases hx : x = e <;> simp [hx, Store.make, h.key]
  · rw [lookup_insertKey] at hx
    split_ifs at hx with he
    · subst he
      obtain rfl := Option.some.inj hx
      cases hl : m.lookup x with
      | some ids => exact h.mem x ids k hl
      | none =>
        have hm : s.made x = false := by rw [← h.key, hl]; rfl
        simp [Store.make, Store.content_of_not_made hm]
    · exact h.mem x ids k hx

/-- Adding a number to the set of an entity. -/
theorem insert {ids : IdSet} (h : InMap m s) (hl : m.lookup e = some ids) (k : ObjectId) (b : Str) :
    InMap (m.insert e (ids.insert k.number)) (s.put e k b) := by
  refine ⟨fun x => ?_, fun x ids' j hx => ?_⟩
  · rw [lookup_insert]
    by_cases hx : x = e <;> simp [hx, Store.put, h.key]
  · rw [lookup_insert] at hx
    split_ifs at hx with he
    · subst he
      obtain rfl := Option.some.inj hx
      rw [SortedSet.mem_insert, h.mem x ids j hl]
      by_cases hj : j = k.number <;> simp [hj, Store.put]
    · rw [h.mem x ids' j hx]
      simp [Store.put, he]

theorem insertIfNotexist (h : InMap m s) (e : Str) (k : ObjectId) (b : Str) :
    InMap (insertIfNotexist m e k.number) (s.put e k b) := by
  obtain ⟨ids, hl⟩ := (h.insertKey e).exists_ids (e := e) (by simp [Store.make])
  have hput := (h.insertKey e).insert hl k b
  rw [Store.make_put] at hput
  rw [lookup_insertKey, if_pos rfl, Option.some.injEq] at hl
  have heq : ∀ x, (Ids.insertIfNotexist m e k.number).lookup x =
      ((Ids.insertKey m e).insert e (ids.insert k.number)).lookup x := fun x => by
    rw [lookup_insertIfNotexist, lookup_insert, lookup_insertKey, hl]
    split_ifs <;> rfl
  exact ⟨fun x => by rw [heq]; exact hput.key x, fun x ids' j hx => hput.mem x ids' j (heq x ▸ hx)⟩

theorem eraseIfExist (h : InMap m s) (e : Str) (k : ℤ) :
    InMap (eraseIfExist m e k) (s.drop e k) := by
  refine ⟨fun x => ?_, fun x ids j hx => ?_⟩
  · rw [lookup_eraseIfExist]
    by_cases hx : x = e <;> simp [hx, Store.drop, h.key]
  · rw [lookup_eraseIfExist] at hx
    split_ifs at hx with he
    · subst he
      obtain ⟨ids', hl, rfl⟩ := Option.map_eq_some_iff.mp hx
      rw [SortedSet.mem_erase, h.mem x ids' j hl]
      by_cases hj : j = k <;> simp [hj, Store.drop]
    · rw [h.mem x ids j hx]
      simp [Store.drop, he]

end InMap

/-! ### Both -/

/-- The tree and the map hold the store. -/
structure Holds (base : Path) (cwd B : Loc Str) (w : World Tree) (s : Store) : Prop where
  disk : OnDisk base cwd B w.disk s
  map : InMap w.entityIdMap s

/-- Nothing is stored: the base path leads to an empty directory, and the map is empty. -/
structure Fresh (base : Path) (cwd B : Loc Str) (w : World Tree) : Prop where
  base : base.locate w.disk cwd = some B
  dir : w.disk.isDir B = true
  empty : ∀ x l, w.disk.node (B ++ x :: l) = none
  map : w.entityIdMap = ∅

/-- A tree with one directory, and the empty map. -/
theorem fresh_withDir {d : Str} (hne : d ≠ []) (hd : Path.comps ⟨d⟩ = [.name d])
    (hs : d.head? ≠ some '/') : Fresh ⟨d⟩ [] [d] ⟨withDir d, ∅⟩ where
  base := by
    unfold Path.locate Path.start
    rw [if_neg hne, if_neg hs, hd]
    simp [FileTree.locate, Comp.apply]
  dir := by rw [FileTree.isDir_iff, node_withDir, if_pos (Or.inl rfl)]
  empty x l := by rw [node_withDir, if_neg (by simp)]
  map := rfl

theorem Fresh.holds {base : Path} {cwd B : Loc Str} {w : World Tree} (h : Fresh base cwd B w) :
    Holds base cwd B w Store.empty where
  disk := ⟨h.base, h.dir, fun e => h.empty e [], fun e k _ _ => by
    rw [List.append_assoc]; exact h.empty e [intToString k]⟩
  map := ⟨fun e => by rw [h.map]; rfl, fun e ids k hl => by rw [h.map] at hl; simp at hl⟩

/-- Storing what is stored. -/
theorem Store.put_of_content {s : Store} {e b : Str} {k : ObjectId}
    (h : s.content e k.number = some b) : s.put e k b = s := by
  have hm := (s.live e k.number (by simp [h])).1
  ext x j
  · by_cases hx : x = e <;> simp [Store.put, hx, hm]
  · by_cases hx : x = e ∧ j = k.number <;> simp [Store.put, hx, h]

/-- Deleting what is not there. -/
theorem Store.drop_of_none {s : Store} {e : Str} {k : ℤ} (h : s.content e k = none) :
    s.drop e k = s := by
  ext x j
  · rfl
  · by_cases hx : x = e ∧ j = k <;> simp [Store.drop, hx, h]

end Kachow.Api.Objects
