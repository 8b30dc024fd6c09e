import Kachow.Api.StoreStep
import Kachow.Lib.Runs

/-! # The factory of the API, and a restart

When the server starts, the factory builds the map of identifiers from the tree (`scanFS`): a key for
each directory in the root directory, and for it the numbers of the files there. A directory lists its
entries in an order of its own (`DirectoryIterator`), which does not matter (`lookup_scan`).

Started with a missing root directory, the map is at every moment the one that a restart would find
(`restart_rebuilds`). -/

namespace Kachow.Api.Factory

open Kachow.Lib.Text Kachow.Lib.Decimal Kachow.Lib.Sets Kachow.Lib.Files Kachow.Lib.Runs
open Kachow.Boost.Paths Kachow.Http.Messages Kachow.Disk Kachow.Api.Ids Kachow.Api.Handler
open Kachow.Api.Objects Kachow.Api.Crud Kachow.Api.StoreStep

/-- `directory_iterator`: each entry of a directory once, in some order. -/
structure DirectoryIterator where
  entries : Tree → Loc Str → List Str
  nodup : ∀ t d, (entries t d).Nodup
  mem_entries : ∀ t d x, x ∈ entries t d ↔ t.node (d ++ [x]) ≠ none

/-- The names in a directory. -/
def children (t : Tree) (d : Loc Str) : Finset Str :=
  (t.nodes.keys.filter fun l => l ≠ [] ∧ l.dropLast = d).image fun l => l.getLastD []

theorem mem_children {t : Tree} {d : Loc Str} {x : Str} :
    x ∈ children t d ↔ t.node (d ++ [x]) ≠ none := by
  have hnode : t.node (d ++ [x]) ≠ none ↔ d ++ [x] ∈ t.nodes := by
    rw [← Option.isSome_iff_ne_none]
    exact Finmap.lookup_isSome
  rw [hnode]
  simp only [children, Finset.mem_image, Finset.mem_filter, Finmap.mem_keys]
  constructor
  · rintro ⟨l, ⟨hl, hne, rfl⟩, rfl⟩
    have hlast : l.getLastD [] = l.getLast hne := by
      rw [List.getLastD_eq_getLast?, List.getLast?_eq_some_getLast hne]
      rfl
    rwa [hlast, List.dropLast_append_getLast]
  · intro h
    exact ⟨d ++ [x], ⟨h, by simp, by simp⟩, by simp⟩

/-- The entries in the order of their names. -/
def inOrder : DirectoryIterator where
  entries t d := (children t d).sort
  nodup _ _ := Finset.sort_nodup _ _
  mem_entries t d x := by rw [Finset.mem_sort, mem_children]

/-! ### The scan -/

section Scan
variable (it : DirectoryIterator) (t : Tree)

/-- One step of the loop of `Insert_ID`: the number of a file; other names are passed over. -/
def addID (dir : Loc Str) (currIDs : IdSet) (x : Str) : IdSet :=
  if t.isFile (dir ++ [x]) then
    match stoi x with
    | some id => currIDs.insert id
    | none => currIDs
  else currIDs

/-- The numbers `Insert_ID` finds in a directory. -/
def currIDs (dir : Loc Str) : IdSet := (it.entries t dir).foldl (addID t dir) ∅

/-- `Insert_ID`. A key that is there stays as it is. -/
def insertID (root : Loc Str) (m : EntityIdMap) (x : Str) : EntityIdMap :=
  match m.lookup x with
  | some _ => m
  | none => m.insert x (currIDs it t (root ++ [x]))

/-- The loop of `scanFS`. -/
def scan (root : Loc Str) (m : EntityIdMap) : EntityIdMap :=
  (it.entries t root).foldl
    (fun m x => if t.isDir (root ++ [x]) then insertID it t root m x else m) m

/-- The loop of `scanFS` over the directory at the root path; listing anything else throws. -/
def scanDirectory (cwd : Loc Str) (rootpath : Path) : EStateM Fault (World Tree) Bool := fun w =>
  match rootpath.locate w.disk cwd with
  | some root =>
    if w.disk.isDir root then .ok true ⟨w.disk, scan it w.disk root w.entityIdMap⟩
    else .error .filesystemError w
  | none => .error .filesystemError w

/-- `scanFS`: `false` if the root directory was missing and has been made. -/
def scanFS (cwd : Loc Str) (rootpath : Path) : EStateM Fault (World Tree) Bool := do
  let there ← onDisk ((realFileSystem cwd).exists_ rootpath)
  if !there then
    let _ ← onDisk ((realFileSystem cwd).createDirectory rootpath)
    pure false
  else scanDirectory it cwd rootpath

variable {it t}

theorem mem_foldl_addID {dir : Loc Str} {k : ℤ} : ∀ {xs : List Str} {ids : IdSet},
    k ∈ xs.foldl (addID t dir) ids ↔
      k ∈ ids ∨ ∃ x ∈ xs, t.isFile (dir ++ [x]) = true ∧ stoi x = some k
  | [], ids => by simp
  | x :: xs, ids => by
    have hstep : k ∈ addID t dir ids x ↔
        k ∈ ids ∨ t.isFile (dir ++ [x]) = true ∧ stoi x = some k := by
      unfold addID
      split_ifs with hf
      · cases hs : stoi x with
        | none => simp
        | some id => simp [hf, or_comm, eq_comm]
      · simp [hf]
    rw [List.foldl_cons, mem_foldl_addID, hstep, or_assoc]
    simp

/-- The numbers of a directory are those of its files. -/
theorem mem_currIDs {dir : Loc Str} {k : ℤ} :
    k ∈ currIDs it t dir ↔ ∃ x, t.isFile (dir ++ [x]) = true ∧ stoi x = some k := by
  unfold currIDs
  rw [mem_foldl_addID]
  simp only [SortedSet.notMem_empty, false_or]
  refine exists_congr fun x => and_iff_right_of_imp ?_
  rintro ⟨hf, -⟩
  obtain ⟨b, hb⟩ := FileTree.isFile_iff.mp hf
  rw [it.mem_entries, hb]
  simp

theorem lookup_foldl_insertID {root : Loc Str} {y : Str} : ∀ {xs : List Str} {m : EntityIdMap},
    (xs.foldl (fun m x => if t.isDir (root ++ [x]) then insertID it t root m x else m) m).lookup y =
      match m.lookup y with
      | some s => some s
      | none => if y ∈ xs ∧ t.isDir (root ++ [y]) then some (currIDs it t (root ++ [y])) else none
  | [], m => by cases h : m.lookup y <;> simp [h]
  | x :: xs, m => by
    rw [List.foldl_cons, lookup_foldl_insertID]
    by_cases hd : t.isDir (root ++ [x]) = true
    · rw [if_pos hd]
      have hstep : (insertID it t root m x).lookup y =
          if y = x then some ((m.lookup x).getD (currIDs it t (root ++ [x]))) else m.lookup y := by
        unfold insertID
        cases hx : m.lookup x with
        | some s =>
          by_cases hy : y = x
          · rw [if_pos hy, hy, hx]
            rfl
          · rw [if_neg hy]
        | none => simp [lookup_insert]
      rw [hstep]
      by_cases hy : y = x
      · subst hy
        cases m.lookup y <;> simp [hd]
      · simp [hy]
    · rw [if_neg hd]
      by_cases hy : y = x
      · subst hy
        simp [hd]
      · simp [hy]

/-- **What a scan finds** does not depend on the order of the entries: a key for each directory, and
the numbers of its files. -/
theorem lookup_scan {root : Loc Str} (y : Str) : (scan it t root ∅).lookup y =
    if t.isDir (root ++ [y]) then some (currIDs it t (root ++ [y])) else none := by
  unfold scan
  rw [lookup_foldl_insertID]
  simp only [Finmap.lookup_empty]
  by_cases hd : t.isDir (root ++ [y]) = true
  · have hmem : y ∈ it.entries t root := by
      rw [it.mem_entries, FileTree.isDir_iff.mp hd]
      simp
    simp [hd, hmem]
  · simp [hd]

theorem run_scanFS {cwd root : Loc Str} {rootpath : Path} {w : World Tree}
    (hl : rootpath.locate w.disk cwd = some root) (hd : w.disk.isDir root = true) :
    (scanFS it cwd rootpath).run w = .ok true ⟨w.disk, scan it w.disk root w.entityIdMap⟩ := by
  have hex : existsAt cwd w.disk rootpath = true := by
    rw [existsAt_of_locate hl, FileTree.isDir_iff.mp hd]
    rfl
  have hdir : (scanDirectory it cwd rootpath).run w =
      .ok true ⟨w.disk, scan it w.disk root w.entityIdMap⟩ := by
    simp only [scanDirectory, EStateM.run, hl, hd, if_true]
  simp [scanFS, hex, hdir]

end Scan

/-! ### A restart -/

/-- A file in the directory of an entity is an object. -/
def OnlyObjects (B : Loc Str) (t : Tree) : Prop :=
  ∀ e x, t.node (B ++ [e] ++ [x]) ≠ none → ∃ k : ObjectId, x = intToString k.number

theorem OnlyObjects.of_touches {B : Loc Str} {t t' : Tree} {e : Str} (h : OnlyObjects B t)
    (ht : Touches B e t t') : OnlyObjects B t' := by
  intro y x hne
  rcases ht.node (B ++ [y] ++ [x]) with h1 | h1 | ⟨k, h1⟩
  · rw [h1] at hne
    exact h y x hne
  · exact absurd (congrArg List.length h1) (by simp)
  · exact ⟨k, by simpa using (List.append_inj_right' h1 rfl)⟩

/-- The numbers of an entity's directory are those of its objects. -/
theorem mem_currIDs_entity {base : Path} {cwd B : Loc Str} {t : Tree} {s : Store} {it : DirectoryIterator}
    (hd : OnDisk base cwd B t s) (ho : OnlyObjects B t) (e : Str) (k : ℤ) :
    k ∈ currIDs it t (B ++ [e]) ↔ s.content e k ≠ none := by
  rw [mem_currIDs]
  constructor
  · rintro ⟨x, hf, hx⟩
    obtain ⟨b, hb⟩ := FileTree.isFile_iff.mp hf
    obtain ⟨j, rfl⟩ := ho e x (by rw [hb]; simp)
    have hj : j.number = k := by
      rw [stoi_intToString (by have := j.pos; unfold intMin; omega) j.le] at hx
      exact Option.some.inj hx
    rw [hd.object e j.number j.pos j.le] at hb
    rw [← hj]
    intro hnone
    rw [hnone] at hb
    exact absurd hb (by simp)
  · intro hc
    obtain ⟨-, h1, h2⟩ := s.live e k hc
    refine ⟨intToString k, ?_, stoi_intToString (by unfold intMin; omega) h2⟩
    unfold FileTree.isFile
    rw [hd.object e k h1 h2]
    obtain ⟨b, hb⟩ := Option.ne_none_iff_exists'.mp hc
    rw [hb]
    rfl

/-- **A scan finds a map** with the store the tree holds. -/
theorem inMap_scan {base : Path} {cwd B : Loc Str} {t : Tree} {s : Store} (it : DirectoryIterator)
    (hd : OnDisk base cwd B t s) (ho : OnlyObjects B t) : InMap (scan it t B ∅) s where
  key e := by
    rw [lookup_scan, hd.isDir_entity]
    cases s.made e <;> rfl
  mem e ids k hl := by
    rw [lookup_scan] at hl
    split_ifs at hl
    obtain rfl := Option.some.inj hl
    exact mem_currIDs_entity hd ho e k

/-- There is no other one. -/
theorem scan_eq {base : Path} {cwd B : Loc Str} {t : Tree} {m : EntityIdMap} {s : Store}
    (it : DirectoryIterator) (hd : OnDisk base cwd B t s) (hm : InMap m s) (ho : OnlyObjects B t) :
    scan it t B ∅ = m := by
  refine Finmap.ext_lookup fun e => ?_
  have hscan := inMap_scan it hd ho
  have hkey := (hscan.key e).trans (hm.key e).symm
  cases hl : (scan it t B ∅).lookup e with
  | none =>
    rw [hl] at hkey
    exact (Option.isNone_iff_eq_none.mp (Option.isSome_eq_false_iff.mp hkey.symm)).symm
  | some ids =>
    rw [hl] at hkey
    obtain ⟨ids', hl'⟩ := Option.isSome_iff_exists.mp hkey.symm
    rw [hl', Option.some.injEq]
    exact SortedSet.ext fun k => (hscan.mem e ids k hl).trans (hm.mem e ids' k hl').symm

section Restart
variable {h : RequestHandlerAPI} {cwd B : Loc Str} {loc : Str}

/-- A request with the response it is to fill in. -/
def serveObject (h : RequestHandlerAPI) (cwd : Loc Str) (loc : Str) (i : ObjectRequest × Response) :
    EStateM Fault (World Tree) (Bool × Response) :=
  h.getResponse (realFileSystem cwd) (i.1.toRequest loc) i.2

/-- The name of the entity is not taken for a number, and a `POST` finds a number that is free. -/
def PlainRequest (w : World Tree) (i : ObjectRequest × Response) : Prop :=
  stoi i.1.entity = none ∧ (i.1.method = .post → HasRoom w.entityIdMap i.1.entity)

/-- The tree and the map hold the same store, and nothing else is in the tree. -/
def Restartable (h : RequestHandlerAPI) (cwd B : Loc Str) (w : World Tree) : Prop :=
  ∃ s, Holds h.basePath cwd B w s ∧ OnlyObjects B w.disk

theorem Restartable.step (hp : h.prefixLength = loc.length) (hb : TakesNames h.basePath)
    {w : World Tree}
    {i : ObjectRequest × Response} (hw : Restartable h cwd B w) (hi : PlainRequest w i) :
    ∃ o w', (serveObject h cwd loc i).run w = .ok o w' ∧ Restartable h cwd B w' := by
  obtain ⟨s, ⟨hd, hm⟩, ho⟩ := hw
  have hkey : s.made i.1.entity = true → w.entityIdMap.lookup i.1.entity ≠ none := by
    intro hmade
    obtain ⟨ids, hids⟩ := hm.exists_ids hmade
    simp [hids]
  obtain ⟨⟨o, s', m'⟩, hr⟩ := @exists_respond s w.entityIdMap i.1 i.2 hkey
    fun hm _ => hi.2 hm
  obtain ⟨t, hrun, hd', htouch⟩ := run_respond hp hb hd hr
  refine ⟨o, ⟨t, m'⟩, hrun, s', ⟨hd', ?_⟩, ho.of_touches htouch⟩
  exact (change_respond hr).inMap hm (by simp [nameId, hi.1])

/-- Where no name is a level under the base path, nothing is ever stored. -/
theorem run_blocked (hp : h.prefixLength = loc.length) (hb : Blocked h.basePath) {disk : Tree}
    (hd : OnDisk h.basePath cwd B disk Store.empty) {r : ObjectRequest} (hn : stoi r.entity = none)
    (res : Response) : ∃ o, (serveObject h cwd loc (r, res)).run ⟨disk, ∅⟩ = .ok o ⟨disk, ∅⟩ := by
  have hid : nameId r.entity = 0 := by simp [nameId, hn]
  unfold serveObject
  rw [run_toRequest hp]
  cases hr : r.id with
  | none =>
    have hup : (entityPath h.basePath r.entity).parentPath.same h.basePath = false := by
      rw [← Bool.not_eq_true, same_iff, elements_parentPath]
      exact hb.name _ r.isName.ne_nil r.isName.noSlash
    have hex := hd.existsAt_entity r.isName
    have hobj : isObject cwd (parsedObject h.basePath r) ⟨disk, ∅⟩ = false := by
      simp only [isObject, parsedObject, hr]
      rw [hd.isFileAt_entity r.isName, Bool.and_false]
    simp only [parsedObject, hr, hid] at hobj ⊢
    simp only [serve, ObjectRequest.toRequest]
    split <;> simp [run_create, run_retrieve, run_update, run_remove, hup, hex, hobj, Store.empty]
  | some k =>
    have hk : k.number ≠ 0 := by have := k.pos; omega
    obtain ⟨h1, h2⟩ := hb.names _ (intToString k.number) r.isName.ne_nil r.isName.noSlash
      r.isName.notDot (intToString_ne_nil _) (OnDisk.noSlash_intToString _)
    have hup : (objectPath h.basePath r.entity k.number).parentPath.same h.basePath = false := by
      rw [← Bool.not_eq_true, same_iff, elements_parentPath]
      exact h1
    have hup2 : (objectPath h.basePath r.entity k.number).parentPath.parentPath.same h.basePath =
        false := by
      rw [← Bool.not_eq_true, same_iff, elements_parentPath, elements_parentPath]
      exact h2
    have hobj : isObject cwd (parsedObject h.basePath r) ⟨disk, ∅⟩ = false := by
      simp only [isObject, parsedObject, hr]
      exact hd.isFileAt_object k r.isName
    simp only [parsedObject, hr] at hobj ⊢
    simp only [serve, ObjectRequest.toRequest]
    split <;> simp [run_create, run_retrieve, run_update, run_remove, hup, hup2, hobj, hk,
      eraseIfExist]

/-- The factory makes the root directory if it is missing, and changes nothing else. -/
theorem run_scanFS_new (it : DirectoryIterator) {p : Path} {disk : Tree}
    (hl : p.locateNew disk cwd = some B) (hn : disk.node B = none) :
    ∃ t, (scanFS it cwd p).run ⟨disk, ∅⟩ = .ok false ⟨t, ∅⟩ ∧ Fresh p cwd B ⟨t, ∅⟩ ∧
      ∀ l, t.node l = if l = B then some .dir else disk.node l := by
  have hex : existsAt cwd disk p = false := existsAt_of_locateNew hl hn
  have hput := canPut_of_locateNew hl hn
  have hmk : mkdirAt cwd disk p = some (true, disk.put B .dir hput) := by
    rw [mkdirAt_of_locateNew hl, FileTree.mkdir_of_canPut hput hn]
  have hdir : (disk.put B .dir hput).isDir B = true := by
    rw [FileTree.isDir_iff, FileTree.node_put, if_pos rfl]
  have hl' : p.locate (disk.put B .dir hput) cwd = some B :=
    locate_of_locateNew (locateNew_mono (fun _ => isDir_mkdirAt hmk) hl) hdir
  refine ⟨disk.put B .dir hput, ?_, ⟨hl', hdir, fun x l => ?_, rfl⟩, fun l => ?_⟩
  · simp [scanFS, hex, hmk]
  · rw [FileTree.node_put, if_neg (by simp)]
    exact FileTree.node_append_eq_none hn (x :: l)
  · rw [FileTree.node_put]

theorem run_scanFS_missing (it : DirectoryIterator) {disk : Tree}
    (hl : h.basePath.locateNew disk cwd = some B) (hn : disk.node B = none) :
    ∃ t, (scanFS it cwd h.basePath).run ⟨disk, ∅⟩ = .ok false ⟨t, ∅⟩ ∧
      Fresh h.basePath cwd B ⟨t, ∅⟩ := by
  obtain ⟨t, hrun, hfresh, -⟩ := run_scanFS_new it hl hn
  exact ⟨t, hrun, hfresh⟩

/-- **A restart finds the same map.** The root directory is missing, and the factory makes it; then,
whatever the requests, a scan of the tree gives the map as it is. -/
theorem restart_rebuilds (hp : h.prefixLength = loc.length) {disk : Tree}
    (hl : h.basePath.locateNew disk cwd = some B) (hn : disk.node B = none) (it : DirectoryIterator) :
    ∃ w, (scanFS it cwd h.basePath).run ⟨disk, ∅⟩ = .ok false w ∧
      ∀ is : List (ObjectRequest × Response), Along (serveObject h cwd loc) PlainRequest w is →
        ∃ os w', (runAll (serveObject h cwd loc) is).run w = .ok os w' ∧
          ∀ it', (scanFS it' cwd h.basePath).run ⟨w'.disk, ∅⟩ = .ok true w' := by
  obtain ⟨t, hscan, hfresh⟩ := run_scanFS_missing it hl hn
  refine ⟨⟨t, ∅⟩, hscan, fun is hplain => ?_⟩
  have hstart : Restartable h cwd B ⟨t, ∅⟩ := by
    refine ⟨Store.empty, hfresh.holds, fun e x hne => ?_⟩
    rw [List.append_assoc] at hne
    exact absurd (hfresh.empty e [x]) hne
  have hrun : ∃ os w', (runAll (serveObject h cwd loc) is).run ⟨t, ∅⟩ = .ok os w' ∧
      Restartable h cwd B w' := by
    rcases takesNames_or_blocked (locateNew_ne_nil hl) with hb | hb
    · exact run_ok_of_inv (fun _ _ hw hi => hw.step hp hb hi) hstart hplain
    · have hstay : ∀ w i, w = (⟨t, ∅⟩ : World Tree) → PlainRequest w i →
          ∃ o w', (serveObject h cwd loc i).run w = .ok o w' ∧ w' = ⟨t, ∅⟩ := by
        rintro _ i rfl hi
        obtain ⟨o, ho⟩ := run_blocked hp hb hfresh.holds.disk hi.1 i.2
        exact ⟨o, _, ho, rfl⟩
      obtain ⟨os, _, hrun, rfl⟩ := run_ok_of_inv hstay rfl hplain
      exact ⟨os, _, hrun, hstart⟩
  obtain ⟨os, ⟨t', m'⟩, hrun, s, ⟨hd, hm⟩, ho⟩ := hrun
  refine ⟨os, ⟨t', m'⟩, hrun, fun it' => ?_⟩
  have hscan' := @run_scanFS it' cwd B h.basePath ⟨t', ∅⟩ hd.base hd.dir
  rwa [scan_eq it' hd hm ho] at hscan'

end Restart

/-- An object of the entity `shoes` is stored and deleted. -/
def shoeChanges : List (ObjectRequest × Response) :=
  let shoe (method : Verb) : ObjectRequest :=
    ⟨method, "shoes".toList, isName_shoes, some ⟨1, ObjectId.pos_one, ObjectId.one_le⟩, false, 11, [],
      "red".toList⟩
  [(shoe .put, {}), (shoe .delete, {})]

/-- The entity is left with no number, and a restart finds it so. -/
theorem restart_rebuilds_shoes : ∃ w os w',
    (scanFS inOrder [] ⟨"data".toList⟩).run ⟨FileTree.empty, ∅⟩ = .ok false w ∧
    (runAll (serveObject ⟨⟨"data".toList⟩, 4⟩ [] "/api".toList) shoeChanges).run w = .ok os w' ∧
    (scanFS inOrder [] ⟨"data".toList⟩).run ⟨w'.disk, ∅⟩ = .ok true w' := by
  let h : RequestHandlerAPI := ⟨⟨"data".toList⟩, 4⟩
  have hl : h.basePath.locateNew (FileTree.empty : Tree) [] = some ["data".toList] := by
    have hcomps : (parts '/' h.basePath.pathname).map comp = [.name "data".toList] := by decide
    unfold Path.locateNew Path.start
    rw [if_neg (by decide), if_neg (by decide), hcomps]
    simp [FileTree.locate, Comp.apply]
  have hn : (FileTree.empty : Tree).node ["data".toList] = none := by
    rw [FileTree.node_empty, if_neg (by simp)]
  obtain ⟨w, hscan, hrun⟩ :=
    @restart_rebuilds h [] _ "/api".toList rfl _ hl hn inOrder
  have hplain : Along (serveObject ⟨⟨"data".toList⟩, 4⟩ [] "/api".toList) PlainRequest w shoeChanges :=
    ⟨⟨by decide, fun hm => absurd hm (by decide)⟩, fun _ _ _ =>
      ⟨⟨by decide, fun hm => absurd hm (by decide)⟩, fun _ _ _ => trivial⟩⟩
  obtain ⟨os, w', h1, h2⟩ := hrun shoeChanges hplain
  exact ⟨w, os, w', hscan, h1, h2 inOrder⟩

end Kachow.Api.Factory
