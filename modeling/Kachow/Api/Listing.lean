import Kachow.Api.Crud
import Kachow.Lib.Arrays

/-! # Listing an entity

A `GET` of an entity is to answer with the array of the numbers of its objects. The handler lists the
set the map has: each number with a comma behind it, and then it cuts the last character off. In every
run of canonical requests the set is the numbers of the object files, so the array is right
(`listing_iff`), unless the entity has no object any more: then the last character is the opening
bracket, and the body is `]` (`emptied_bracket`).

A run ends if no `POST` finds all numbers of its entity taken; otherwise the search for a free one
leaves the range of `int`. So the store says of every sequence of requests what a list answers. -/

namespace Kachow.Api.Listing

open Kachow.Lib.Text Kachow.Lib.Decimal Kachow.Lib.Sets Kachow.Lib.Runs Kachow.Lib.Arrays
open Kachow.Lib.Files Kachow.Boost.Paths Kachow.Http.Messages Kachow.Http.Mime Kachow.Disk
open Kachow.Api.Ids Kachow.Api.Handler Kachow.Api.Target Kachow.Api.Objects Kachow.Api.Crud

/-! ### Which entities there are -/

/-- The request creates the entity, unless it is there. -/
def Creates (e : Str) (r : CrudRequest) : Prop :=
  r.entity.name = e ∧ (r.method = .post ∧ r.id = none ∨ r.method = .put ∧ r.id ≠ none)

/-- **What a request does to the store**: it stores an object if it creates its entity, and otherwise it
deletes one at most. -/
theorem step_cases {s s' : Store} {r : CrudRequest} {a : Answer} (h : step s r = some (a, s')) :
    (Creates r.entity.name r ∧ ∃ k, s' = s.put r.entity.name k r.body) ∨
      (¬ Creates r.entity.name r ∧ (s' = s ∨ ∃ k, s' = s.drop r.entity.name k)) := by
  obtain ⟨m, e, id, slash, version, fields, body⟩ := r
  have hsame : ∀ {b : Answer}, some (b, s) = some (a, s') → s' = s := fun hb =>
    (Prod.mk.inj (Option.some.inj hb)).2.symm
  rcases m with _ | _ | _ | _ <;> rcases id with _ | k
  · obtain ⟨j, -, hj⟩ := Option.map_eq_some_iff.mp h
    exact Or.inl ⟨⟨rfl, Or.inl ⟨rfl, rfl⟩⟩, j, (Prod.mk.inj hj).2.symm⟩
  · exact Or.inr ⟨by simp [Creates], Or.inl (hsame h)⟩
  · exact Or.inr ⟨by simp [Creates], Or.inl (hsame h)⟩
  · refine Or.inr ⟨by simp [Creates], Or.inl ?_⟩
    cases hc : s.content e.name k.number <;> simp only [step, hc] at h <;> exact hsame h
  · exact Or.inr ⟨by simp [Creates], Or.inl (hsame h)⟩
  · exact Or.inl ⟨⟨rfl, Or.inr ⟨rfl, by simp⟩⟩, k, (Prod.mk.inj (Option.some.inj h)).2.symm⟩
  · exact Or.inr ⟨by simp [Creates], Or.inl (hsame h)⟩
  · refine Or.inr ⟨by simp [Creates], ?_⟩
    cases hc : s.content e.name k.number with
    | none =>
      simp only [step, hc] at h
      exact Or.inl (hsame h)
    | some b =>
      simp only [step, hc, Option.some.injEq, Prod.mk.injEq] at h
      exact Or.inr ⟨k.number, h.2.symm⟩

/-- The store has no step for a `POST` that finds all numbers taken, and only for this. -/
theorem step_eq_none {s : Store} {r : CrudRequest} (h : step s r = none) :
    r.method = .post ∧ r.id = none ∧ s.nextId r.entity.name = none := by
  obtain ⟨m, e, id, slash, version, fields, body⟩ := r
  rcases m with _ | _ | _ | _ <;> rcases id with _ | k
  · exact ⟨rfl, rfl, Option.map_eq_none_iff.mp h⟩
  · simp [step] at h
  · simp [step] at h
  · cases hc : s.content e.name k.number <;> simp [step, hc] at h
  · simp [step] at h
  · simp [step] at h
  · simp [step] at h
  · cases hc : s.content e.name k.number <;> simp [step, hc] at h

/-- An entity is there from the first request on that creates it. -/
theorem made_step {e : Str} {s s' : Store} {r : CrudRequest} {a : Answer}
    (h : step s r = some (a, s')) : s'.made e = true ↔ s.made e = true ∨ Creates e r := by
  have hname : Creates e r ↔ r.entity.name = e ∧ Creates r.entity.name r := by
    simp [Creates]
  rw [hname]
  rcases step_cases h with ⟨hc, k, rfl⟩ | ⟨hc, rfl | ⟨k, rfl⟩⟩
  · simp [Store.put, hc, @eq_comm _ e, or_comm]
  · simp [hc]
  · simp [hc, Store.drop]

/-- After a run there are the entities that a request of it creates. -/
theorem made_run {e : Str} {rs : List CrudRequest} {answers : List Answer} {s : Store}
    (h : runAbs step Store.empty rs = some (answers, s)) :
    s.made e = true ↔ ∃ r ∈ rs, Creates e r := by
  have hrun : s.made e = true ↔ Store.empty.made e = true ∨ ∃ r ∈ rs, Creates e r :=
    runAbs_iff (P := fun s => s.made e = true) (fun _ _ _ _ => made_step) h
  simpa [Store.empty] using hrun

/-! ### A request that the store has no step for -/

section Full
variable {h : RequestHandlerAPI} {cwd B : Loc Str} {loc : Str} {w : World Tree} {s : Store}

/-- If all numbers are taken in the store, the search in the map finds none. -/
theorem nextFree_none {m : EntityIdMap} {e : Str} {ids : IdSet} (hm : InMap m s)
    (hl : m.lookup e = some ids) (hn : s.nextId e = none) : nextFree ids = none := by
  by_contra hc
  obtain ⟨k, hk⟩ := Option.ne_none_iff_exists'.mp hc
  obtain ⟨h1, h2, h3, h4⟩ := nextFree_eq_some.mp hk
  have hfree : s.content e k = none := by
    by_contra hck
    exact h3 ((hm.mem e ids k hl).mpr hck)
  have hnext : s.IsNext e ⟨k, h1, h2⟩ :=
    ⟨hfree, fun j hj hjk => (hm.mem e ids j hl).mp (h4 j hj hjk)⟩
  rw [Store.nextId_eq hnext] at hn
  simp at hn

/-- A request fails where the store has no step. -/
theorem fails_of_step_none (hp : h.prefixLength = loc.length) (hb : TakesNames h.basePath)
    (hw : Holds h.basePath cwd B w s) {r : CrudRequest} (hs : step s r = none) :
    ∃ e w', (serveCrud h cwd loc r).run w = .error e w' := by
  obtain ⟨hpost, hid, hn⟩ := step_eq_none hs
  obtain ⟨m, e, id, slash, version, fields, body⟩ := r
  obtain rfl : m = .post := hpost
  obtain rfl : id = none := hid
  obtain ⟨t, m, hmade, ht, hi⟩ := holds_madeEntity hw
    (u := ⟨true, entityPath h.basePath e.name, 0, e.name⟩) rfl rfl
  obtain ⟨ids, hids⟩ := hi.exists_ids (e := e.name) (by simp [Store.make])
  have hfull : getNextId m e.name = .error .intOverflow := by
    have hnone : nextFree ids = none := nextFree_none hi hids hn
    unfold getNextId
    rw [hids]
    simp only [hnone]
  rw [run_serveCrud hp]
  simp only [serve, CrudRequest.toRequest, Method.verb, run_create, parsedCrud]
  rw [(named_entity hb e.isName).2.2, if_pos rfl, hmade]
  simp only [hfull]
  exact ⟨_, _, rfl⟩

end Full

/-! ### What a list answers -/

/-- A number as JSON spells it. -/
def parseInt (s : Str) : Option ℤ := (stoi s).filter fun k => intToString k = s

theorem parseInt_intToString {k : ℤ} (h1 : 1 ≤ k) (h2 : k ≤ intMax) :
    parseInt (intToString k) = some k := by
  have hmin : intMin ≤ k := by unfold intMin; omega
  unfold parseInt
  rw [stoi_intToString hmin h2]
  simp

/-- The numbers of the object files of an entity, in increasing order. -/
structure ObjectFiles (base : Path) (cwd : Loc Str) (t : Tree) (e : Str) (ids : List ℤ) : Prop where
  sorted : ids.Pairwise (· < ·)
  mem : ∀ k, k ∈ ids ↔ 1 ≤ k ∧ k ≤ intMax ∧ isFileAt cwd t (objectPath base e k) = true

/-- After the requests, the list answers with the array of the numbers of the object files. -/
def ListsArray (h : RequestHandlerAPI) (cwd : Loc Str) (loc : Str) (w : World Tree)
    (rs : List CrudRequest) (r : CrudRequest) : Prop :=
  ∃ os t o w' ids, (runAll (serveCrud h cwd loc) rs).run w = .ok os t ∧
    (serveCrud h cwd loc r).run t = .ok o w' ∧ ObjectFiles h.basePath cwd t.disk r.entity.name ids ∧
    o.2.status = 200 ∧ o.2.body = arrayText intToString ids ∧ decodeArray parseInt o.2.body = some ids

/-- No `POST` finds all numbers of its entity taken, and the requests leave an object of the entity. -/
def LeavesObject (rs : List CrudRequest) (e : Str) : Prop :=
  ∃ answers s k, runAbs step Store.empty rs = some (answers, s) ∧ s.content e k ≠ none

section Lists
variable {h : RequestHandlerAPI} {cwd B : Loc Str} {loc : Str} {w : World Tree} {s : Store}

/-- The set the map has is the numbers of the object files. -/
theorem objectFiles {e : Str} {ids : IdSet} (hw : Holds h.basePath cwd B w s) (he : IsName e)
    (hl : w.entityIdMap.lookup e = some ids) :
    ObjectFiles h.basePath cwd w.disk e ids.toList := by
  refine ⟨ids.sorted, fun k => ?_⟩
  rw [SortedSet.mem_toList, hw.map.mem e ids k hl]
  constructor
  · intro hk
    obtain ⟨-, h1, h2⟩ := s.live e k hk
    have hobj := hw.disk.isFileAt_object ⟨k, h1, h2⟩ he
    rw [Option.isSome_iff_ne_none.mpr hk, Bool.and_eq_true] at hobj
    exact ⟨h1, h2, hobj.2⟩
  · rintro ⟨h1, h2, hf⟩
    have hobj := hw.disk.isFileAt_object ⟨k, h1, h2⟩ he
    rw [existsAt_of_isFileAt hf, hf] at hobj
    exact Option.isSome_iff_ne_none.mp hobj.symm

theorem run_list (hp : h.prefixLength = loc.length) (hw : Holds h.basePath cwd B w s)
    {r : CrudRequest} (hget : r.method = .get) (hid : r.id = none) {ids : IdSet}
    (hm : s.made r.entity.name = true) (hl : w.entityIdMap.lookup r.entity.name = some ids) :
    (serveCrud h cwd loc r).run w =
      .ok (true, Response.fill {} 200 textPlain (trimmedText intToString ids.toList)) w := by
  have hpar : parsedCrud h.basePath r = ⟨true, entityPath h.basePath r.entity.name, 0, r.entity.name⟩ := by
    unfold parsedCrud
    rw [hid]
  have hex : existsAt cwd w.disk (entityPath h.basePath r.entity.name) = true := by
    rw [hw.disk.existsAt_entity r.entity.isName, hm]
  rw [run_serveCrud hp, hpar]
  simp only [serve, CrudRequest.toRequest, hget, Method.verb, run_retrieve, if_true, hex, hl]
  rfl

/-- A request that ends is a step of the store. -/
theorem step_of_ok (hp : h.prefixLength = loc.length) (hb : TakesNames h.basePath)
    (hw : Holds h.basePath cwd B w s) {r : CrudRequest} {o : Bool × Response} {w' : World Tree}
    (hrun : (serveCrud h cwd loc r).run w = .ok o w') :
    ∃ a s', step s r = some (a, s') ∧ Holds h.basePath cwd B w' s' := by
  cases hs : step s r with
  | none =>
    obtain ⟨e, u, herr⟩ := fails_of_step_none hp hb hw hs
    rw [hrun] at herr
    cases herr
  | some p =>
    obtain ⟨o', u, hok, -, hu⟩ := matches_step hp hb hw r (show step s r = some (p.1, p.2) from hs)
    rw [hrun] at hok
    cases hok
    exact ⟨p.1, p.2, rfl, hu⟩

/-- The list of a store with objects is their array. -/
theorem lists_of_holds (hp : h.prefixLength = loc.length) (hw : Holds h.basePath cwd B w s)
    {r : CrudRequest} (hget : r.method = .get) (hid : r.id = none) {k : ℤ}
    (hk : s.content r.entity.name k ≠ none) : ∃ o ids, (serveCrud h cwd loc r).run w = .ok o w ∧
      ObjectFiles h.basePath cwd w.disk r.entity.name ids ∧ o.2.status = 200 ∧
      o.2.body = arrayText intToString ids ∧ decodeArray parseInt o.2.body = some ids := by
  have hm := (s.live _ k hk).1
  obtain ⟨ids, hl⟩ := hw.map.exists_ids hm
  have hfiles := objectFiles hw r.entity.isName hl
  have hne : ids.toList ≠ [] := List.ne_nil_of_mem ((hw.map.mem _ ids k hl).mpr hk)
  have hbody : (Response.fill {} 200 textPlain (trimmedText intToString ids.toList)).body =
      arrayText intToString ids.toList := trimmedText_eq_iff.mpr hne
  have hdec : decodeArray parseInt (arrayText intToString ids.toList) = some ids.toList := by
    refine decodeArray_arrayText intToString_ne_nil (notMem_intToString (by decide) (by decide)) ?_
    intro j hj
    obtain ⟨h1, h2, -⟩ := (hfiles.mem j).mp hj
    exact parseInt_intToString h1 h2
  refine ⟨_, ids.toList, run_list hp hw hget hid hm hl, hfiles, rfl, hbody, ?_⟩
  rw [hbody, hdec]

end Lists

/-- **A list is the array of the objects** exactly if there is one. -/
theorem listing_iff (h : RequestHandlerAPI) (loc : Str) {cwd B : Loc Str} {w : World Tree}
    (hp : h.prefixLength = loc.length) (hb : Named h.basePath) (hw : Fresh h.basePath cwd B w)
    {rs : List CrudRequest} {r : CrudRequest} (hget : r.method = .get) (hid : r.id = none)
    (hc : ∃ q ∈ rs, Creates r.entity.name q) :
    ListsArray h cwd loc w rs r ↔ LeavesObject rs r.entity.name := by
  constructor
  · rintro ⟨os, t, o, w', ids, hrun, hlist, -, -, hbody, -⟩
    have hback : ∀ w s q o w', Holds h.basePath cwd B w s → (serveCrud h cwd loc q).run w = .ok o w' →
        ∃ a s', step s q = some (a, s') ∧ Holds h.basePath cwd B w' s' :=
      fun _ _ _ _ _ hs hstep => step_of_ok hp hb.takesNames hs hstep
    obtain ⟨answers, s, habs, hs⟩ := simulation_back hback hw.holds hrun
    have hm : s.made r.entity.name = true := (made_run habs).mpr hc
    obtain ⟨IDs, hl⟩ := hs.map.exists_ids hm
    rw [run_list hp hs hget hid hm hl] at hlist
    cases hlist
    -- the empty set is listed as `]`, which begins no array
    have hne : IDs.toList ≠ [] := by
      intro hnil
      rw [hnil] at hbody
      exact arrayText_ne (by decide) [] ids hbody.symm
    obtain ⟨k, hk⟩ := List.exists_mem_of_ne_nil _ hne
    exact ⟨answers, s, k, habs, (hs.map.mem _ IDs k hl).mp hk⟩
  · rintro ⟨answers, s, k, habs, hk⟩
    have hforth : ∀ w s q a s', Holds h.basePath cwd B w s → step s q = some (a, s') →
        Matches h cwd B loc w q a s' := fun _ _ q _ _ hs hstep => matches_step hp hb.takesNames hs q hstep
    obtain ⟨os, t, hrun, -, hs⟩ := simulation hforth hw.holds habs
    obtain ⟨o, ids, hlist, hfiles, hrest⟩ := lists_of_holds hp hs hget hid hk
    exact ⟨os, t, o, t, ids, hrun, hlist, hfiles, hrest⟩

/-- An entity. -/
def hats : EntityName :=
  ⟨"hats".toList, by decide, by decide, by decide, by decide, by decide⟩

/-- A list of it. -/
def listHats : CrudRequest := ⟨.get, hats, none, false, 11, [], []⟩

/-- Two objects are created, and the second is deleted. -/
def oneLeft : List CrudRequest :=
  [⟨.post, hats, none, false, 11, [], "red".toList⟩,
    ⟨.put, hats, some ⟨12, by decide, by decide⟩, false, 11, [], "blue".toList⟩,
    ⟨.delete, hats, some ⟨12, by decide, by decide⟩, true, 11, [], []⟩]

theorem listing_oneLeft :
    ListsArray ⟨⟨"data".toList⟩, 4⟩ [] "/api".toList ⟨withDir "data".toList, ∅⟩ oneLeft listHats := by
  have hfresh : Fresh ⟨"data".toList⟩ [] ["data".toList] ⟨withDir "data".toList, ∅⟩ :=
    fresh_withDir (by decide) (by decide) (by decide)
  have hnext : Store.empty.nextId "hats".toList = some ⟨1, by decide, by decide⟩ :=
    Store.nextId_eq ⟨rfl, fun j h1 h2 => by simp only at h2; omega⟩
  have hpost : Creates hats.name ⟨.post, hats, none, false, 11, [], "red".toList⟩ :=
    ⟨rfl, Or.inl ⟨rfl, rfl⟩⟩
  refine (listing_iff ⟨⟨"data".toList⟩, 4⟩ "/api".toList rfl ⟨by decide, by decide⟩ hfresh rfl rfl
    ⟨_, List.mem_cons_self, hpost⟩).mpr ?_
  have hrun : runAbs step Store.empty oneLeft = some
      ([⟨201, some (createdBody 1)⟩, ⟨200, none⟩, ⟨200, none⟩],
        ((Store.empty.put "hats".toList ⟨1, by decide, by decide⟩ "red".toList).put "hats".toList
          ⟨12, by decide, by decide⟩ "blue".toList).drop "hats".toList 12) := by
    simp only [oneLeft, hats, runAbs, step, hnext]
    rfl
  exact ⟨_, _, 1, hrun, by simp [Store.put, Store.drop, listHats, hats]⟩

/-- An object is created, and deleted. -/
def emptied : List CrudRequest :=
  [⟨.put, hats, some ⟨12, by decide, by decide⟩, false, 11, [], "red".toList⟩,
    ⟨.delete, hats, some ⟨12, by decide, by decide⟩, false, 11, [], []⟩]

/-- **The list of an emptied entity is no array.** Its body is a single bracket. -/
theorem emptied_bracket : (∃ q ∈ emptied, Creates hats.name q) ∧
    ¬ ListsArray ⟨⟨"data".toList⟩, 4⟩ [] "/api".toList ⟨withDir "data".toList, ∅⟩ emptied listHats := by
  refine ⟨⟨_, List.mem_cons_self, rfl, Or.inr ⟨rfl, Option.some_ne_none _⟩⟩, ?_⟩
  rintro ⟨os, t, o, w', ids, hrun, hlist, -, -, hbody, -⟩
  obtain ⟨os', t', hrun', hres⟩ := after_iff.mp (show after
    (runAll (serveCrud ⟨⟨"data".toList⟩, 4⟩ [] "/api".toList) emptied) ⟨withDir "data".toList, ∅⟩
      (fun _ t => after (serveCrud ⟨⟨"data".toList⟩, 4⟩ [] "/api".toList listHats) t
        fun o _ => o.2.body = [']']) = true from by decide +kernel)
  rw [hrun] at hrun'
  cases hrun'
  obtain ⟨o', w'', hlist', hbracket⟩ := after_iff.mp hres
  rw [hlist] at hlist'
  cases hlist'
  rw [of_decide_eq_true hbracket] at hbody
  exact arrayText_ne (by decide) [] ids hbody.symm

end Kachow.Api.Listing
