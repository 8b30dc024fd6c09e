import Kachow.Api.Factory
import Kachow.Api.Overwrite

/-! # The key of a POST

A `POST` looks up the set of its entity without checking that there is one. It has made the key if it
has made the directory; where the directory was there already, the key has to be there too. So every
name in the base directory needs its key (`BaseKeyed`). The scan at the start gives keys to the directories
alone; a `POST` and a `PUT` give a key to the entity they were *parsed* to, and make what their path
*leads* to. Where these agree, no `POST` of the run misses its key (`post_finds_key`). A `POST` of `/.`
finds the base directory itself, and no key (`post_misses_key`). -/

namespace Kachow.Api.Keys

open Kachow.Lib.Text Kachow.Lib.Decimal Kachow.Lib.Files Kachow.Lib.Runs
open Kachow.Boost.Paths Kachow.Http.Messages Kachow.Disk Kachow.Api.Ids Kachow.Api.Handler
open Kachow.Api.Target Kachow.Api.Objects Kachow.Api.Overwrite Kachow.Api.Factory

/-- A `POST` that comes to `get_next_id` finds the key of its entity. -/
def FindsKey (h : RequestHandlerAPI) (cwd : Loc Str) (w : World Tree) (i : Input) : Prop :=
  i.1.method = .post → ∀ u, h.parseUrlTarget i.1 = .ok u → u.ok = true →
    u.fullPath.parentPath.same h.basePath = true →
    ∀ t m, madeEntity cwd u w = some (t, m) → m.lookup u.entity ≠ none

/-- The iterator of the look-up is not `end`. -/
def NoEnd (h : RequestHandlerAPI) (cwd : Loc Str) (w : World Tree) (i : Input) : Prop :=
  ∀ w', (serveAny h cwd i).run w ≠ .error .endDereference w'

/-! ### The condition -/

section Condition
variable (base : Path) (cwd B : Loc Str) (w : World Tree) (u : ParsedUrl)

/-- What a request makes in the base directory is the directory of the entity it was parsed to. -/
def KeepsKeys : Verb → Prop
  | .post => u.fullPath.parentPath.same base = true → u.fullPath.resolve cwd = B ++ [u.entity]
  | .put => u.id ≠ 0 → u.fullPath.parentPath.parentPath.same base = true →
      (existsAt cwd w.disk u.fullPath.parentPath = false →
        u.fullPath.parentPath.resolve cwd = B ++ [u.entity]) ∧
      ∀ x, u.fullPath.resolve cwd ≠ B ++ [x]
  | _ => True

/-- The condition on a step of a run. -/
def StepKeepsKeys (h : RequestHandlerAPI) (w : World Tree) (i : Input) : Prop :=
  ∀ u, h.parseUrlTarget i.1 = .ok u → u.ok = true → KeepsKeys h.basePath cwd B w u i.1.method

end Condition

/-! ### The invariant -/

/-- Every name in the base directory has its key. -/
structure BaseKeyed (base : Path) (cwd B : Loc Str) (w : World Tree) : Prop where
  base : base.locate w.disk cwd = some B
  key : ∀ x, w.disk.node (B ++ [x]) ≠ none → w.entityIdMap.lookup x ≠ none

section Steps
variable {h : RequestHandlerAPI} {cwd B : Loc Str} {w w' : World Tree} {u : ParsedUrl}
  {req : Request} {res : Response} {o : Bool × Response}

/-- A key that is there stays. -/
def KeepsAllKeys (m m' : EntityIdMap) : Prop := ∀ x, m.lookup x ≠ none → m'.lookup x ≠ none

theorem keepsAllKeys_insertKey (m : EntityIdMap) (e : Str) : KeepsAllKeys m (insertKey m e) :=
  fun _ hx hn => hx (lookup_insertKey_eq_none.mp hn).2

theorem keepsAllKeys_insert (m : EntityIdMap) (e : Str) (s : IdSet) :
    KeepsAllKeys m (m.insert e s) := fun _ hx hn => hx (lookup_insert_eq_none.mp hn).2

theorem keepsAllKeys_insertIfNotexist (m : EntityIdMap) (e : Str) (k : ℤ) :
    KeepsAllKeys m (insertIfNotexist m e k) :=
  fun _ hx hn => hx (lookup_insertIfNotexist_eq_none.mp hn).2

theorem keepsAllKeys_eraseIfExist (m : EntityIdMap) (e : Str) (k : ℤ) :
    KeepsAllKeys m (eraseIfExist m e k) := fun _ hx hn => hx (lookup_eraseIfExist_eq_none.mp hn)

/-- **Once the entity is made**, its key is there, and so are the others. -/
theorem key_madeEntity {t : Tree} {m : EntityIdMap} (hk : BaseKeyed h.basePath cwd B w)
    (hr : u.fullPath.resolve cwd = B ++ [u.entity]) (hm : madeEntity cwd u w = some (t, m)) :
    m.lookup u.entity ≠ none ∧ KeepsAllKeys w.entityIdMap m := by
  unfold madeEntity at hm
  split_ifs at hm with hex
  · obtain ⟨-, rfl⟩ := Prod.mk.inj (Option.some.inj hm)
    obtain ⟨l, hl, hn⟩ := locate_of_existsAt hex
    rw [locate_resolve hl, hr] at hn
    exact ⟨hk.key _ hn, fun _ hx => hx⟩
  · obtain ⟨b, -, hb⟩ := Option.map_eq_some_iff.mp hm
    obtain ⟨-, rfl⟩ := Prod.mk.inj hb
    exact ⟨fun hn => (lookup_insertKey_eq_none.mp hn).1 rfl, keepsAllKeys_insertKey _ _⟩

theorem keyed_create (hk : BaseKeyed h.basePath cwd B w) (hne : u.fullPath.pathname ≠ [])
    (hc : KeepsKeys h.basePath cwd B w u .post)
    (hrun : (create h (realFileSystem cwd) req res u).run w = .ok o w') :
    BaseKeyed h.basePath cwd B w' := by
  obtain ⟨-, -, rfl⟩ | ⟨hs, t, m, IDs, id, hmade, -, -, -, rfl⟩ := create_ok hrun
  · exact hk
  · obtain ⟨hkey, hkeep⟩ := key_madeEntity hk (hc hs) hmade
    refine ⟨locate_writeAt _ (path_locate_mono (madeEntity_some hmade).2.1 hk.base), fun x hx => ?_⟩
    apply keepsAllKeys_insert
    rcases node_create hne (hc hs) hmade id req.body (B ++ [x]) with hw | hw | ⟨hw, -⟩
    · exact hkeep x (hk.key x (hw ▸ hx))
    · exact absurd hw.symm (slot_ne_entity _ _ _)
    · obtain rfl : x = u.entity := by simpa using hw
      exact hkey

theorem keyed_retrieve (hk : BaseKeyed h.basePath cwd B w)
    (hrun : (retrieve (realFileSystem cwd) res u).run w = .ok o w') : BaseKeyed h.basePath cwd B w' := by
  rw [run_retrieve] at hrun
  split_ifs at hrun with hid hex hobj
  · obtain ⟨-, rfl⟩ := EStateM.Result.ok.inj hrun
    exact hk
  · obtain ⟨-, rfl⟩ := EStateM.Result.ok.inj hrun
    exact hk
  · obtain ⟨-, rfl⟩ := EStateM.Result.ok.inj hrun
    exact ⟨hk.base, fun x hx => keepsAllKeys_insertIfNotexist _ _ _ x (hk.key x hx)⟩
  · obtain ⟨-, rfl⟩ := EStateM.Result.ok.inj hrun
    exact ⟨hk.base, fun x hx => keepsAllKeys_eraseIfExist _ _ _ x (hk.key x hx)⟩

theorem keyed_update (hk : BaseKeyed h.basePath cwd B w) (hc : KeepsKeys h.basePath cwd B w u .put)
    (hrun : (update h (realFileSystem cwd) req res u).run w = .ok o w') :
    BaseKeyed h.basePath cwd B w' := by
  obtain ⟨-, rfl⟩ | ⟨hid, hs, t, hmade, -, rfl⟩ := update_ok hrun
  · exact hk
  · obtain ⟨hdir, hfile⟩ := hc hid hs
    refine ⟨locate_writeAt _ (path_locate_mono (madeDir_some hmade).2 hk.base), fun x hx => ?_⟩
    simp only at hx ⊢
    rcases @node_writeAt cwd t u.fullPath req.body (B ++ [x]) with hw | ⟨hl, -, -⟩
    · rw [hw] at hx
      unfold madeDir at hmade
      split_ifs at hmade with hex
      · obtain rfl := Option.some.inj hmade
        exact keepsAllKeys_insertIfNotexist _ _ _ x (hk.key x hx)
      · obtain ⟨b, hb, rfl⟩ := Option.map_eq_some_iff.mp hmade
        rcases node_mkdirAt hb (B ++ [x]) with hm | ⟨hl, -, -⟩
        · exact keepsAllKeys_insertIfNotexist _ _ _ x (hk.key x (hm ▸ hx))
        · have hr := hdir (by simpa using hex)
          rw [← hl] at hr
          obtain rfl : x = u.entity := by simpa using hr
          exact fun hn => (lookup_insertIfNotexist_eq_none.mp hn).1 rfl
    · exact absurd (locate_resolve hl).symm (hfile x)

theorem keyed_remove (hk : BaseKeyed h.basePath cwd B w)
    (hrun : (remove (realFileSystem cwd) res u).run w = .ok o w') : BaseKeyed h.basePath cwd B w' := by
  rw [run_remove] at hrun
  split_ifs at hrun with hobj
  · obtain ⟨l, t, -, -, hrm, hnode, hdir⟩ := removeAt_of_isFileAt (Bool.and_eq_true_iff.mp hobj).2
    rw [hrm] at hrun
    obtain ⟨-, rfl⟩ := EStateM.Result.ok.inj hrun
    refine ⟨path_locate_mono (fun l hd => by rw [hdir]; exact hd) hk.base, fun x hx => ?_⟩
    simp only [hnode] at hx
    split_ifs at hx with hxl
    · exact absurd rfl hx
    · exact keepsAllKeys_eraseIfExist _ _ _ x (hk.key x hx)
  · obtain ⟨-, rfl⟩ := EStateM.Result.ok.inj hrun
    exact hk

theorem pathname_ne_nil {i : Input} (hu : h.parseUrlTarget i.1 = .ok u) (hok : u.ok = true) :
    u.fullPath.pathname ≠ [] := by
  obtain ⟨a, b, -, -, -, hfull, -⟩ := parseUrl_ok (parseUrlTarget_ok hu) hok
  rw [hfull]
  simp

/-- **One request** that meets the condition keeps the keys. -/
theorem keyed_step (i : Input) (hk : BaseKeyed h.basePath cwd B w) (hc : StepKeepsKeys cwd B h w i)
    (hrun : (serveAny h cwd i).run w = .ok o w') : BaseKeyed h.basePath cwd B w' := by
  unfold serveAny at hrun
  rw [run_getResponse] at hrun
  cases hu : h.parseUrlTarget i.1 with
  | error e => simp [hu] at hrun
  | ok u =>
    simp only [hu] at hrun
    split_ifs at hrun with hok
    · have hkeep := hc u hu hok
      unfold serve at hrun
      cases hm : i.1.method <;> rw [hm] at hrun hkeep
      case post => exact keyed_create hk (pathname_ne_nil hu hok) hkeep hrun
      case get => exact keyed_retrieve hk hrun
      case put => exact keyed_update hk hkeep hrun
      case delete => exact keyed_remove hk hrun
      all_goals
        obtain ⟨-, rfl⟩ := EStateM.Result.ok.inj hrun
        exact hk
    · obtain ⟨-, rfl⟩ := EStateM.Result.ok.inj hrun
      exact hk

/-- With the keys of its names the base directory has the key a `POST` needs. -/
theorem findsKey_step (i : Input) (hk : BaseKeyed h.basePath cwd B w) (hc : StepKeepsKeys cwd B h w i) :
    FindsKey h cwd w i := by
  intro hpost u hu hok hs t m hmade
  have hkeep := hc u hu hok
  rw [hpost] at hkeep
  exact (key_madeEntity hk (hkeep hs) hmade).1

theorem getNextId_error {m : EntityIdMap} {e : Str} {f : Fault} (hn : m.lookup e ≠ none)
    (h : getNextId m e = .error f) : f ≠ .endDereference := by
  obtain ⟨s, hs⟩ := Option.ne_none_iff_exists'.mp hn
  unfold getNextId at h
  simp only [hs] at h
  cases hid : nextFree s with
  | none =>
    rw [hid] at h
    obtain rfl := Except.error.inj h
    simp
  | some k => simp [hid] at h

theorem parseUrl_ne_error {base : Path} {url : Str} {f : Fault} (h : parseUrl base url = .error f) :
    f ≠ .endDereference := by
  by_cases hurl : url.head? = some '/' ∧ stripped url ≠ []
  · rw [parseUrl_eq base hurl.1 hurl.2] at h
    simp at h
  · obtain ⟨u, hu, -⟩ := parseUrl_not_ok base hurl
    rw [hu] at h
    simp at h

/-- Where the key is found, the iterator is not `end`. -/
theorem noEnd_of_findsKey {i : Input} (hf : FindsKey h cwd w i) : NoEnd h cwd w i := by
  intro w' hrun
  unfold serveAny at hrun
  rw [run_getResponse] at hrun
  cases hu : h.parseUrlTarget i.1 with
  | error e =>
    simp only [hu, EStateM.Result.error.injEq] at hrun
    obtain ⟨rfl, -⟩ := hrun
    unfold RequestHandlerAPI.parseUrlTarget at hu
    split at hu
    · exact parseUrl_ne_error hu rfl
    · simp at hu
  | ok u =>
    simp only [hu] at hrun
    split_ifs at hrun with hok
    unfold serve at hrun
    cases hm : i.1.method <;> simp only [hm] at hrun
    case post =>
      rw [run_create] at hrun
      split_ifs at hrun with hs
      cases hmade : madeEntity cwd u w with
      | none => simp [hmade] at hrun
      | some tm =>
        obtain ⟨t, m⟩ := tm
        have hkey := hf hm u hu hok hs t m hmade
        cases hid : getNextId m u.entity with
        | ok r => simp [hmade, hid] at hrun
        | error f =>
          simp only [hmade, hid, EStateM.Result.error.injEq] at hrun
          exact getNextId_error hkey hid hrun.1
    case get =>
      rw [run_retrieve] at hrun
      split_ifs at hrun
    case put =>
      rw [run_update] at hrun
      split_ifs at hrun
      cases hmade : madeDir cwd u w <;> simp [hmade] at hrun
    case delete =>
      rw [run_remove] at hrun
      split_ifs at hrun
      cases hrm : removeAt cwd w.disk u.fullPath <;> simp [hrm] at hrun
    all_goals exact absurd hrun (by simp [pure, EStateM.pure, EStateM.run])

/-! ### The start -/

/-- A scan that makes its root directory finds nothing in its place. -/
theorem node_of_scanFS (it : DirectoryIterator) {disk : Tree} {b : Bool}
    (hl : h.basePath.locateNew disk cwd = some B) (hex : ¬ existsAt cwd disk h.basePath = true)
    (hscan : (scanFS it cwd h.basePath).run ⟨disk, ∅⟩ = .ok b w) : disk.node B = none := by
  cases hn : disk.node B with
  | none => rfl
  | some n =>
    exfalso
    cases n with
    | dir =>
      refine hex ?_
      rw [existsAt_of_locate (locate_of_locateNew hl (FileTree.isDir_iff.mpr hn)), hn]
      rfl
    | file body =>
      cases hm : mkdirAt cwd disk h.basePath with
      | none => simp [scanFS, hex, hm] at hscan
      | some r =>
        obtain ⟨l, hl', hmk⟩ := locateNew_of_mkdirAt hm
        obtain rfl := Option.some.inj (hl.symm.trans hl')
        have := FileTree.isFile_of_mkdir hmk
        rw [FileTree.isFile_iff.mpr ⟨body, hn⟩] at this
        exact absurd this (by simp)

/-- **After the scan** every name in the base directory has its key, if no file lies there. -/
theorem keyed_scanFS (it : DirectoryIterator) {disk : Tree} {b : Bool}
    (hl : h.basePath.locateNew disk cwd = some B) (hfiles : ∀ x, disk.isFile (B ++ [x]) = false)
    (hscan : (scanFS it cwd h.basePath).run ⟨disk, ∅⟩ = .ok b w) : BaseKeyed h.basePath cwd B w := by
  by_cases hex : existsAt cwd disk h.basePath = true
  · obtain ⟨k, hk, -⟩ := locate_of_existsAt hex
    obtain rfl := node_of_locateNew hl hk
    have hdir : disk.isDir k = true := by
      by_contra hd
      have hlist : (scanDirectory it cwd h.basePath).run ⟨disk, ∅⟩ =
          .error .filesystemError ⟨disk, ∅⟩ := by
        simp only [scanDirectory, EStateM.run, hk, hd, if_false]
      simp [scanFS, hex, hlist] at hscan
    rw [run_scanFS hk hdir] at hscan
    obtain ⟨-, rfl⟩ := EStateM.Result.ok.inj hscan
    refine ⟨hk, fun x hx => ?_⟩
    simp only at hx ⊢
    have hd : disk.isDir (k ++ [x]) = true := by
      obtain ⟨n, hn⟩ := Option.ne_none_iff_exists'.mp hx
      cases n with
      | dir => exact FileTree.isDir_iff.mpr hn
      | file body => exact absurd (FileTree.isFile_iff.mpr ⟨body, hn⟩) (by simp [hfiles])
    rw [lookup_scan, if_pos hd]
    simp
  · have hn : disk.node B = none := node_of_scanFS it hl hex hscan
    obtain ⟨t, hrun, hfresh⟩ := run_scanFS_missing it hl hn
    rw [hrun] at hscan
    obtain ⟨-, rfl⟩ := EStateM.Result.ok.inj hscan
    exact ⟨hfresh.base, fun x hx => absurd (hfresh.empty x []) (by simpa using hx)⟩

end Steps

/-- **A POST finds its key.** The factory has scanned its root directory and found no file there; then in
a run whose requests make in this directory nothing but the directories of the entities they are parsed
to, every `POST` that comes to `get_next_id` finds the key of its entity. -/
theorem post_finds_key (h : RequestHandlerAPI) {cwd B : Loc Str} {disk : Tree} {w : World Tree}
    {b : Bool} {is : List Input} (it : DirectoryIterator)
    (hl : h.basePath.locateNew disk cwd = some B)
    (hfiles : ∀ x, disk.isFile (B ++ [x]) = false)
    (hscan : (scanFS it cwd h.basePath).run ⟨disk, ∅⟩ = .ok b w)
    (hc : Along (serveAny h cwd) (StepKeepsKeys cwd B h) w is) :
    Along (serveAny h cwd) (fun w i => FindsKey h cwd w i ∧ NoEnd h cwd w i) w is := by
  have hgood : ∀ w i, BaseKeyed h.basePath cwd B w → StepKeepsKeys cwd B h w i →
      FindsKey h cwd w i ∧ NoEnd h cwd w i := by
    intro w i hk hstep
    have hfinds := findsKey_step i hk hstep
    exact ⟨hfinds, noEnd_of_findsKey hfinds⟩
  exact along_of_inv hgood (fun _ i _ _ hk hstep hrun => keyed_step i hk hstep hrun)
    (keyed_scanFS it hl hfiles hscan) hc

/-- An entity is made, an object is put, and another is created. -/
def plainRequests : List Input :=
  [(⟨.post, "/e".toList, 11, [], "one".toList⟩, {}), (⟨.put, "/f/7".toList, 11, [], []⟩, {}),
    (⟨.post, "/f/".toList, 11, [], "two".toList⟩, {})]

/-- A scan of an empty base directory. -/
theorem run_scanFS_fresh {base : Path} {cwd B : Loc Str} {w : World Tree} (it : DirectoryIterator)
    (hw : Fresh base cwd B w) : (scanFS it cwd base).run w = .ok true w := by
  obtain ⟨disk, m⟩ := w
  obtain rfl : m = ∅ := hw.map
  have honly : OnlyObjects B disk := fun e x hne => by
    rw [List.append_assoc] at hne
    exact absurd (hw.empty e [x]) hne
  have := @run_scanFS it cwd B base ⟨disk, ∅⟩ hw.base hw.dir
  rwa [scan_eq it hw.holds.disk hw.holds.map honly] at this

/-- Each `POST` of them finds its key. -/
theorem post_finds_key_plain : ∃ b w, (scanFS inOrder [] ⟨"data".toList⟩).run
      ⟨withDir "data".toList, ∅⟩ = .ok b w ∧
    Along (serveAny ⟨⟨"data".toList⟩, 0⟩ [])
      (fun w i => FindsKey ⟨⟨"data".toList⟩, 0⟩ [] w i ∧ NoEnd ⟨⟨"data".toList⟩, 0⟩ [] w i)
      w plainRequests := by
  have hfresh : Fresh ⟨"data".toList⟩ [] ["data".toList] ⟨withDir "data".toList, ∅⟩ :=
    fresh_withDir (by decide) (by decide) (by decide)
  have hscan := run_scanFS_fresh inOrder hfresh
  have hfiles : ∀ x, (withDir "data".toList).isFile (["data".toList] ++ [x]) = false := fun x => by
    have := hfresh.empty x []
    unfold FileTree.isFile
    rw [show ["data".toList] ++ [x] = ["data".toList] ++ x :: [] from rfl, this]
  refine ⟨true, _, hscan, post_finds_key ⟨⟨"data".toList⟩, 0⟩ inOrder
    (locateNew_of_locate hfresh.base) hfiles hscan
    ⟨?_, fun _ _ _ => ⟨?_, fun _ _ _ => ⟨?_, fun _ _ _ => trivial⟩⟩⟩⟩
  · rintro u hu - -
    obtain rfl := Except.ok.inj hu
    decide
  · rintro u hu - - -
    obtain rfl := Except.ok.inj hu
    refine ⟨fun _ => by decide, fun x hx => absurd (congrArg List.length hx) ?_⟩
    have hlen : (Path.resolve [] ⟨"data/f/7".toList⟩).length = 3 := by decide
    exact fun h => absurd (hlen.symm.trans h) (by simp)
  · rintro u hu - -
    obtain rfl := Except.ok.inj hu
    decide

/-- **A POST may miss its key**: `/.` is the base directory itself. -/
theorem post_misses_key : ¬ ∀ (disk : Tree) (b : Bool) (w : World Tree) (is : List Input),
    (scanFS inOrder [] ⟨"data".toList⟩).run ⟨disk, ∅⟩ = .ok b w →
      Along (serveAny ⟨⟨"data".toList⟩, 0⟩ []) (NoEnd ⟨⟨"data".toList⟩, 0⟩ []) w is := by
  intro hall
  have hfresh : Fresh ⟨"data".toList⟩ [] ["data".toList] ⟨withDir "data".toList, ∅⟩ :=
    fresh_withDir (by decide) (by decide) (by decide)
  have hrun := (hall _ _ _ [(⟨.post, "/.".toList, 11, [], []⟩, {})]
    (run_scanFS_fresh inOrder hfresh)).1
  obtain ⟨e, w, herr, he⟩ := fails_iff.mp (show
    fails (serveAny ⟨⟨"data".toList⟩, 0⟩ [] (⟨.post, "/.".toList, 11, [], []⟩, {}))
      ⟨withDir "data".toList, ∅⟩ (· = .endDereference) = true from by decide +kernel)
  obtain rfl : e = .endDereference := by simpa using he
  exact hrun w herr

end Kachow.Api.Keys
