import Kachow.Api.Objects
import Kachow.Lib.Runs

/-! # When a POST overwrites an object

A `POST` trusts the map alone: it takes the least number that is not in the set of the entity. So it
overwrites nothing as long as the map knows every object there is (`Tied`). The other methods change
the map by the entity and the number they were *parsed* to, and the tree by the place the path
*leads* to. Where the two agree (`AgreesWithPlace`) the map stays complete, and no `POST` of the run destroys
anything (`post_keeps`). Where they do not, it may: after `GET /e/1abc`, which finds no file and is
parsed as object `1` of `e`, the number `1` is given out again (`post_overwrites`). -/

namespace Kachow.Api.Overwrite

open Kachow.Lib.Text Kachow.Lib.Decimal Kachow.Lib.Sets Kachow.Lib.Files Kachow.Lib.Runs
open Kachow.Boost.Paths Kachow.Http.Messages Kachow.Disk Kachow.Api.Ids Kachow.Api.Handler
open Kachow.Api.Target Kachow.Api.Objects

/-- Any request, with the response it is answered into. -/
abbrev Input := Request × Response

/-- The handler on any request. -/
def serveAny (h : RequestHandlerAPI) (cwd : Loc Str) (i : Input) :
    EStateM Fault (World Tree) (Bool × Response) :=
  h.getResponse (realFileSystem cwd) i.1 i.2

/-- The place of an object. -/
def slot (B : Loc Str) (x : Str) (k : ℤ) : Loc Str := B ++ [x] ++ [intToString k]

/-- What a `POST` writes was not there before, and every file that was there still is. -/
def Keeps (h : RequestHandlerAPI) (cwd : Loc Str) (w : World Tree) (i : Input) : Prop :=
  ∀ u b res w' id, h.parseUrlTarget i.1 = .ok u → i.1.method = .post →
    (serveAny h cwd i).run w = .ok (b, res) w' → res.status = 201 → res.body = createdBody id →
    existsAt cwd w.disk (u.fullPath.append (intToString id)) = false ∧
    ∀ l body, w.disk.node l = some (.file body) → w'.disk.node l = some (.file body)

/-! ### The condition -/

section Condition
variable (base : Path) (cwd B : Loc Str) (w : World Tree) (u : ParsedUrl)

/-- What the request was parsed to agrees with the place its path leads to. -/
def AgreesWithPlace : Verb → Prop
  | .post => u.fullPath.parentPath.same base = true → u.fullPath.resolve cwd = B ++ [u.entity]
  | .put => u.id ≠ 0 → u.fullPath.parentPath.parentPath.same base = true → ∀ x k, 1 ≤ k →
      u.fullPath.resolve cwd = slot B x k → u.entity = x ∧ u.id = k
  | .get => 1 ≤ u.id → isObject cwd u w = false → w.disk.node (slot B u.entity u.id) = none
  | .delete => 1 ≤ u.id → isObject cwd u w = true → w.disk.node (slot B u.entity u.id) ≠ none →
      u.fullPath.resolve cwd = slot B u.entity u.id
  | _ => True

/-- The condition on a step of a run. -/
def StepAgrees (h : RequestHandlerAPI) (w : World Tree) (i : Input) : Prop :=
  ∀ u, h.parseUrlTarget i.1 = .ok u → u.ok = true → AgreesWithPlace h.basePath cwd B w u i.1.method

end Condition

/-! ### The invariant -/

/-- The base path leads to `B`, and the map knows every object there. -/
structure Tied (base : Path) (cwd B : Loc Str) (w : World Tree) : Prop where
  base : base.locate w.disk cwd = some B
  known : ∀ x k, 1 ≤ k → w.disk.node (slot B x k) ≠ none → Has w.entityIdMap x k

theorem Fresh.tied {base : Path} {cwd B : Loc Str} {w : World Tree} (h : Fresh base cwd B w) :
    Tied base cwd B w :=
  ⟨h.base, fun x k _ hn => absurd (by rw [slot, List.append_assoc]; exact h.empty x _) hn⟩

theorem slot_inj {B : Loc Str} {x y : Str} {j k : ℤ} (h : slot B x j = slot B y k) :
    x = y ∧ j = k := by
  unfold slot at h
  simp only [List.append_assoc, List.cons_append, List.nil_append, List.append_cancel_left_eq,
    List.cons.injEq, and_true] at h
  exact ⟨h.1, intToString_inj h.2⟩

/-- The path of a new object leads to its slot. -/
theorem resolve_slot {cwd B : Loc Str} {u : ParsedUrl} (hne : u.fullPath.pathname ≠ [])
    (hr : u.fullPath.resolve cwd = B ++ [u.entity]) (k : ℤ) :
    (u.fullPath.append (intToString k)).resolve cwd = slot B u.entity k := by
  rw [OnDisk.resolve_append_number hne, hr]
  rfl

section Steps
variable {h : RequestHandlerAPI} {cwd B : Loc Str} {w w' : World Tree} {u : ParsedUrl}
  {req : Request} {res : Response} {o : Bool × Response}

/-- Making an entity changes no set. -/
theorem has_madeEntity {t : Tree} {m : EntityIdMap} (h : madeEntity cwd u w = some (t, m)) {x : Str}
    {k : ℤ} : Has m x k ↔ Has w.entityIdMap x k := by
  rcases (madeEntity_some h).2.2 with rfl | rfl
  · rfl
  · exact has_insertKey

/-- A number the map gives out is free in the tree. -/
theorem node_of_free {t : Tree} {m : EntityIdMap} {IDs : IdSet} {id : ℤ}
    (ht : Tied h.basePath cwd B w) (hmade : madeEntity cwd u w = some (t, m))
    (hl : m.lookup u.entity = some IDs) (hid : nextFree IDs = some id) :
    w.disk.node (slot B u.entity id) = none := by
  by_contra hn
  obtain ⟨h1, -, hfree, -⟩ := nextFree_eq_some.mp hid
  have hhas := (has_madeEntity hmade).mpr (ht.known _ _ h1 hn)
  exact hfree ((has_of_lookup hl id).mp hhas)

/-- What a `POST` that agrees changes: the directory of its entity and the slot of its object. -/
theorem node_create {t : Tree} {m : EntityIdMap} (hne : u.fullPath.pathname ≠ [])
    (hr : u.fullPath.resolve cwd = B ++ [u.entity]) (hmade : madeEntity cwd u w = some (t, m))
    (id : ℤ) (body : Str) (l : Loc Str) :
    (writeAt cwd t (u.fullPath.append (intToString id)) body).node l = w.disk.node l ∨
      l = slot B u.entity id ∨
      l = B ++ [u.entity] ∧ w.disk.isFile l = false := by
  rcases node_writeAt body l with hw | ⟨hl, -, -⟩
  · rw [hw]
    rcases (madeEntity_some hmade).1 l with hm | ⟨hl, -, hf⟩
    · exact Or.inl hm
    · exact Or.inr (Or.inr ⟨by rw [hl, hr], hf⟩)
  · exact Or.inr (Or.inl (by rw [locate_resolve hl, resolve_slot hne hr]))

theorem slot_ne_entity (x y : Str) (k : ℤ) : slot B x k ≠ B ++ [y] := by
  intro h
  simpa [slot] using congrArg List.length h

/-! ### One step keeps the invariant -/

theorem tied_create (ht : Tied h.basePath cwd B w) (hne : u.fullPath.pathname ≠ [])
    (hc : AgreesWithPlace h.basePath cwd B w u .post)
    (hrun : (create h (realFileSystem cwd) req res u).run w = .ok o w') :
    Tied h.basePath cwd B w' := by
  obtain ⟨-, -, rfl⟩ | ⟨hs, t, m, IDs, id, hmade, hl, hid, -, rfl⟩ := create_ok hrun
  · exact ht
  · refine ⟨locate_writeAt _ (path_locate_mono (madeEntity_some hmade).2.1 ht.base), ?_⟩
    intro x k hk hn
    simp only at hn ⊢
    rw [has_insert hl, has_madeEntity hmade]
    rcases node_create hne (hc hs) hmade id req.body (slot B x k) with hw | hw | hw
    · exact Or.inr (ht.known x k hk (hw ▸ hn))
    · exact Or.inl (slot_inj hw)
    · exact absurd hw.1 (slot_ne_entity _ _ _)

theorem tied_retrieve (ht : Tied h.basePath cwd B w) (hc : AgreesWithPlace h.basePath cwd B w u .get)
    (hrun : (retrieve (realFileSystem cwd) res u).run w = .ok o w') :
    Tied h.basePath cwd B w' := by
  rw [run_retrieve] at hrun
  split_ifs at hrun with hid hex hobj
  · obtain ⟨-, rfl⟩ := EStateM.Result.ok.inj hrun
    exact ht
  · obtain ⟨-, rfl⟩ := EStateM.Result.ok.inj hrun
    exact ht
  · obtain ⟨-, rfl⟩ := EStateM.Result.ok.inj hrun
    exact ⟨ht.base, fun x k hk hn => has_insertIfNotexist.mpr (Or.inr (ht.known x k hk hn))⟩
  · obtain ⟨-, rfl⟩ := EStateM.Result.ok.inj hrun
    refine ⟨ht.base, fun x k hk hn => has_eraseIfExist.mpr ⟨ht.known x k hk hn, ?_⟩⟩
    rintro ⟨rfl, rfl⟩
    exact hn (hc hk (by simpa using hobj))

theorem tied_update (ht : Tied h.basePath cwd B w) (hc : AgreesWithPlace h.basePath cwd B w u .put)
    (hrun : (update h (realFileSystem cwd) req res u).run w = .ok o w') :
    Tied h.basePath cwd B w' := by
  obtain ⟨-, rfl⟩ | ⟨hid, hs, t, hmade, -, rfl⟩ := update_ok hrun
  · exact ht
  · obtain ⟨hnode, hdir⟩ := madeDir_some hmade
    refine ⟨locate_writeAt _ (path_locate_mono hdir ht.base), fun x k hk hn => ?_⟩
    simp only at hn ⊢
    rw [has_insertIfNotexist]
    rcases @node_writeAt cwd t u.fullPath req.body (slot B x k) with hw | ⟨hl, -, -⟩
    · rw [hw] at hn
      rcases hnode (slot B x k) with hm | ⟨hl, -⟩
      · exact Or.inr (ht.known x k hk (hm ▸ hn))
      · -- the directory a `PUT` makes lies too high to be a slot
        have hlen := @length_resolve_le cwd u.fullPath.parentPath h.basePath
          (locate_ne_nil ht.base) (same_iff.mp hs)
        rw [← hl, ← locate_resolve ht.base] at hlen
        simp [slot] at hlen
    · obtain ⟨rfl, rfl⟩ := hc hid hs x k hk (locate_resolve hl).symm
      exact Or.inl ⟨rfl, rfl⟩

theorem tied_remove (ht : Tied h.basePath cwd B w) (hc : AgreesWithPlace h.basePath cwd B w u .delete)
    (hrun : (remove (realFileSystem cwd) res u).run w = .ok o w') : Tied h.basePath cwd B w' := by
  rw [run_remove] at hrun
  split_ifs at hrun with hobj
  · obtain ⟨l, t, hl, -, hrm, hnode, hdir⟩ := removeAt_of_isFileAt (Bool.and_eq_true_iff.mp hobj).2
    rw [hrm] at hrun
    obtain ⟨-, rfl⟩ := EStateM.Result.ok.inj hrun
    refine ⟨path_locate_mono (fun l hd => by rw [hdir]; exact hd) ht.base, fun x k hk hn => ?_⟩
    simp only at hn ⊢
    rw [hnode] at hn
    by_cases hxl : slot B x k = l
    · exact absurd (if_pos hxl) hn
    · rw [if_neg hxl] at hn
      refine has_eraseIfExist.mpr ⟨ht.known x k hk hn, ?_⟩
      rintro ⟨rfl, rfl⟩
      exact hxl (by rw [locate_resolve hl, hc hk hobj hn])
  · obtain ⟨-, rfl⟩ := EStateM.Result.ok.inj hrun
    exact ht

/-- **One request** that agrees keeps the map complete. -/
theorem tied_step (i : Input) (ht : Tied h.basePath cwd B w) (hc : StepAgrees cwd B h w i)
    (hrun : (serveAny h cwd i).run w = .ok o w') : Tied h.basePath cwd B w' := by
  unfold serveAny at hrun
  rw [run_getResponse] at hrun
  cases hu : h.parseUrlTarget i.1 with
  | error e => simp [hu] at hrun
  | ok u =>
    simp only [hu] at hrun
    split_ifs at hrun with hok
    · have hagree := hc u hu hok
      have hne : u.fullPath.pathname ≠ [] := by
        obtain ⟨a, b, -, -, -, hfull, -⟩ := parseUrl_ok (parseUrlTarget_ok hu) hok
        rw [hfull]
        simp
      unfold serve at hrun
      cases hm : i.1.method <;> rw [hm] at hrun hagree
      case post => exact tied_create ht hne hagree hrun
      case get => exact tied_retrieve ht hagree hrun
      case put => exact tied_update ht hagree hrun
      case delete => exact tied_remove ht hagree hrun
      all_goals
        obtain ⟨-, rfl⟩ := EStateM.Result.ok.inj hrun
        exact ht
    · obtain ⟨-, rfl⟩ := EStateM.Result.ok.inj hrun
      exact ht

/-- A `POST` that agrees destroys nothing. -/
theorem keeps_step (i : Input) (ht : Tied h.basePath cwd B w) (hc : StepAgrees cwd B h w i) :
    Keeps h cwd w i := by
  intro u b res w' id hu hm hrun hst hbody
  unfold serveAny at hrun
  rw [run_getResponse, hu] at hrun
  simp only at hrun
  split_ifs at hrun with hok
  · have hagree := hc u hu hok
    have hne : u.fullPath.pathname ≠ [] := by
      obtain ⟨a, b, -, -, -, hfull, -⟩ := parseUrl_ok (parseUrlTarget_ok hu) hok
      rw [hfull]
      simp
    unfold serve at hrun
    rw [hm] at hrun hagree
    obtain ⟨-, ho, rfl⟩ | ⟨hs, t, m, IDs, id', hmade, hl, hid, ho, rfl⟩ := create_ok hrun
    · obtain ⟨-, rfl⟩ := Prod.mk.inj ho
      exact absurd hst (by simp [setBadRequest, Response.fill, Response.preparePayload])
    · obtain ⟨-, rfl⟩ := Prod.mk.inj ho
      obtain rfl : id' = id := createdBody_inj hbody
      have hfree := node_of_free ht hmade hl hid
      have hr := hagree hs
      refine ⟨?_, fun l body hfile => ?_⟩
      · by_contra hex
        obtain ⟨l, hloc, hn⟩ := locate_of_existsAt (by simpa using hex)
        rw [locate_resolve hloc, resolve_slot hne hr] at hn
        exact hn hfree
      · rcases node_create hne hr hmade id' i.1.body l with hw | rfl | ⟨-, hf⟩
        · rw [hw, hfile]
        · rw [hfree] at hfile
          exact absurd hfile (by simp)
        · rw [FileTree.isFile_iff.mpr ⟨body, hfile⟩] at hf
          exact absurd hf (by simp)
  · obtain ⟨hbr, rfl⟩ := EStateM.Result.ok.inj hrun
    obtain ⟨-, rfl⟩ := Prod.mk.inj hbr
    exact absurd hst (by simp [setNotfoundRequest, Response.fill, Response.preparePayload])

end Steps

/-- **A POST destroys nothing** in a run whose requests all agree. -/
theorem post_keeps (h : RequestHandlerAPI) {cwd B : Loc Str} {w : World Tree} {is : List Input}
    (hw : Fresh h.basePath cwd B w) (hc : Along (serveAny h cwd) (StepAgrees cwd B h) w is) :
    Along (serveAny h cwd) (Keeps h cwd) w is := by
  have hgood : ∀ w i, Tied h.basePath cwd B w → StepAgrees cwd B h w i → Keeps h cwd w i :=
    fun _ i ht hc => keeps_step i ht hc
  exact along_of_inv hgood (fun _ i _ _ ht hc hrun => tied_step i ht hc hrun) (Fresh.tied hw) hc

/-- `GET /e/1abc` makes the map forget object `1` of `e`. -/
def forgetful : List Input :=
  [(⟨.post, "/e".toList, 11, [], "old".toList⟩, {}), (⟨.get, "/e/1abc".toList, 11, [], []⟩, {})]

/-- A `POST` to the entity `e`. -/
def postAgain : Input := (⟨.post, "/e".toList, 11, [], "new".toList⟩, {})

/-- **A POST may overwrite an object.** -/
theorem post_overwrites : ¬ ∀ is, Along (serveAny ⟨⟨"data".toList⟩, 0⟩ [])
    (Keeps ⟨⟨"data".toList⟩, 0⟩ []) ⟨withDir "data".toList, ∅⟩ is := by
  intro hall
  obtain ⟨os, w, hrun, hw⟩ := after_iff.mp (show after
    (runAll (serveAny ⟨⟨"data".toList⟩, 0⟩ []) forgetful) ⟨withDir "data".toList, ∅⟩
      (fun _ w => existsAt [] w.disk ⟨"data/e/1".toList⟩ &&
        after (serveAny ⟨⟨"data".toList⟩, 0⟩ [] postAgain) w
          fun o _ => o.2.status = 201 && o.2.body = createdBody 1) = true from by decide +kernel)
  obtain ⟨hex, hpost⟩ := Bool.and_eq_true_iff.mp hw
  obtain ⟨⟨b, res⟩, w', hstep, hres⟩ := after_iff.mp hpost
  simp only [Bool.and_eq_true, decide_eq_true_eq] at hres
  have hkeeps := (hall (forgetful ++ [postAgain])).next hrun
  have hfree := (hkeeps ⟨true, ⟨"data/e".toList⟩, 0, "e".toList⟩ b res w' 1 (by decide) rfl hstep
    hres.1 hres.2).1
  have hpath : Path.append ⟨"data/e".toList⟩ (intToString 1) = ⟨"data/e/1".toList⟩ := by decide
  rw [hpath, hex] at hfree
  exact absurd hfree (by simp)

/-- An object is created, one is put, and another is created. -/
theorem post_keeps_three : Along (serveAny ⟨⟨"data".toList⟩, 0⟩ [])
    (Keeps ⟨⟨"data".toList⟩, 0⟩ []) ⟨withDir "data".toList, ∅⟩
      [(⟨.post, "/e".toList, 11, [], "one".toList⟩, {}), (⟨.put, "/e/7".toList, 11, [], []⟩, {}),
        (⟨.post, "/e/".toList, 11, [], "two".toList⟩, {})] := by
  have hfresh : Fresh ⟨"data".toList⟩ [] ["data".toList] ⟨withDir "data".toList, ∅⟩ :=
    fresh_withDir (by decide) (by decide) (by decide)
  have hslot : Path.resolve [] ⟨"data/e/7".toList⟩ = slot ["data".toList] "e".toList 7 := by decide
  refine post_keeps ⟨⟨"data".toList⟩, 0⟩ hfresh ⟨?_, fun _ _ _ => ⟨?_, fun _ _ _ => ⟨?_, fun _ _ _ =>
    trivial⟩⟩⟩
  · rintro u hu - -
    obtain rfl := Except.ok.inj hu
    decide
  · rintro u hu - - - x k - hx
    obtain rfl := Except.ok.inj hu
    exact slot_inj (hslot.symm.trans hx)
  · rintro u hu - -
    obtain rfl := Except.ok.inj hu
    decide

end Kachow.Api.Overwrite
