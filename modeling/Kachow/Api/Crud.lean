import Kachow.Api.Objects
import Kachow.Lib.Runs

/-! # The API implements the store

A request with a canonical target names an entity, or an object of it (`CrudRequest`). Whatever the
sequence of such requests, the handler answers as the store does (`Store.step`), as long as no entity
runs out of numbers: started on an empty directory and an empty map, the tree and the map hold the
store after every request (`crud_refines`). -/

namespace Kachow.Api.Crud

open Kachow.Lib.Text Kachow.Lib.Decimal Kachow.Lib.Files Kachow.Lib.Runs Kachow.Boost.Paths
open Kachow.Http.Messages Kachow.Disk Kachow.Api.Ids Kachow.Api.Handler Kachow.Api.Target
open Kachow.Api.Objects

/-! ### Canonical requests -/

/-- The four methods of the API. -/
inductive Method where
  | post
  | get
  | put
  | delete
  deriving DecidableEq, Repr

/-- As a method of HTTP. -/
def Method.verb : Method → Verb
  | .post => .post
  | .get => .get
  | .put => .put
  | .delete => .delete

/-- A request for an entity or for one of its objects. -/
structure CrudRequest where
  method : Method
  entity : EntityName
  id : Option ObjectId
  slash : Bool
  version : ℕ
  fields : List (Str × Str)
  body : Str

/-- What follows the entity in the target. -/
def idPart : Option ObjectId → Str
  | none => []
  | some k => '/' :: intToString k.number

/-- The canonical target behind the location, and the request with it. -/
def CrudRequest.toRequest (loc : Str) (r : CrudRequest) : Request where
  method := r.method.verb
  target := loc ++ ('/' :: r.entity.name ++ idPart r.id ++ slashIf r.slash)
  version := r.version
  fields := r.fields
  body := r.body

/-! ### The store -/

/-- An answer: the status, and the body where it says something about the store. -/
structure Answer where
  status : ℕ
  body : Option Str
  deriving DecidableEq, Repr

/-- The page that says what went wrong. -/
def page (status : ℕ) : Str :=
  if status = 404 then "<html><h1>404 Not Found</h1></html>".toList
  else "<html><h1>400 Bad Request</h1></html>".toList

/-- What the store does with a request, and how it answers; nothing if a `POST` finds no free
number. -/
noncomputable def step (s : Store) (r : CrudRequest) : Option (Answer × Store) :=
  match r.method, r.id with
  | .post, none => (s.nextId r.entity.name).map fun k =>
      (⟨201, some (createdBody k.number)⟩, s.put r.entity.name k r.body)
  | .post, some _ => some (⟨400, some (page 400)⟩, s)
  | .get, none => some (⟨if s.made r.entity.name then 200 else 404, none⟩, s)
  | .get, some k =>
    match s.content r.entity.name k.number with
    | some b => some (⟨200, some b⟩, s)
    | none => some (⟨404, some (page 404)⟩, s)
  | .put, none => some (⟨400, none⟩, s)
  | .put, some k => some (⟨200, none⟩, s.put r.entity.name k r.body)
  | .delete, none => some (⟨404, none⟩, s)
  | .delete, some k =>
    match s.content r.entity.name k.number with
    | some _ => some (⟨200, none⟩, s.drop r.entity.name k.number)
    | none => some (⟨404, none⟩, s)

/-- The body of the answer says something about the store. -/
def CrudRequest.showsBody (r : CrudRequest) : Bool :=
  r.method = .post || r.method = .get && r.id.isSome

/-- What is seen of a response. -/
def observe (r : CrudRequest) (o : Bool × Response) : Answer :=
  ⟨o.2.status, if r.showsBody then some o.2.body else none⟩

/-! ### One request -/

/-- The handler on a canonical request and a fresh response. -/
def serveCrud (h : RequestHandlerAPI) (cwd : Loc Str) (loc : Str) (r : CrudRequest) :
    EStateM Fault (World Tree) (Bool × Response) :=
  h.getResponse (realFileSystem cwd) (r.toRequest loc) {}

/-- What a canonical request is parsed to. -/
def parsedCrud (base : Path) (r : CrudRequest) : ParsedUrl :=
  match r.id with
  | none => ⟨true, entityPath base r.entity.name, 0, r.entity.name⟩
  | some k => ⟨true, objectPath base r.entity.name k.number, k.number, r.entity.name⟩

section Step
variable {h : RequestHandlerAPI} {cwd B : Loc Str} {loc : Str} {w : World Tree} {s : Store}

theorem run_serveCrud (hp : h.prefixLength = loc.length) (r : CrudRequest) :
    (serveCrud h cwd loc r).run w =
      (serve h (realFileSystem cwd) (r.toRequest loc) {} (parsedCrud h.basePath r)).run w := by
  have hparse : h.parseUrlTarget (r.toRequest loc) = .ok (parsedCrud h.basePath r) := by
    rw [parseUrlTarget_append hp rfl]
    unfold parsedCrud idPart
    cases r.id with
    | none =>
      rw [List.append_nil]
      exact parse_entity _ r.entity.ne_nil r.entity.noSlash r.entity.notNumber r.slash
    | some k =>
      exact parse_object _ (by have := k.pos; unfold intMin; omega) k.le r.slash
  have hok : (parsedCrud h.basePath r).ok = true := by unfold parsedCrud; cases r.id <;> rfl
  unfold serveCrud
  rw [run_getResponse, hparse]
  simp only [hok, if_true]

variable (hp : h.prefixLength = loc.length) (hb : TakesNames h.basePath)
  (hw : Holds h.basePath cwd B w s) (r : CrudRequest)

include hw

/-- Once a `POST` has made its entity, the store has it. -/
theorem holds_madeEntity {u : ParsedUrl} {e : EntityName} (hu : u.fullPath = entityPath h.basePath e.name)
    (he : u.entity = e.name) : ∃ t m, madeEntity cwd u w = some (t, m) ∧
      Holds h.basePath cwd B ⟨t, m⟩ (s.make e.name) := by
  unfold madeEntity
  rw [hu, he, hw.disk.existsAt_entity e.isName]
  cases hm : s.made e.name with
  | true => exact ⟨_, _, rfl, by rw [Store.make_of_made hm]; exact hw⟩
  | false =>
    obtain ⟨t, ht, hd⟩ := hw.disk.make e.isName hm
    rw [ht]
    exact ⟨_, _, rfl, hd, hw.map.insertKey e.name⟩

/-- Once a `PUT` has made the directory of its entity, the tree has it. -/
theorem holds_madeDir {u : ParsedUrl} {e : EntityName}
    (hu : u.fullPath.parentPath = entityPath h.basePath e.name) :
    ∃ t, madeDir cwd u w = some t ∧ OnDisk h.basePath cwd B t (s.make e.name) := by
  unfold madeDir
  rw [hu, hw.disk.existsAt_entity e.isName]
  cases hm : s.made e.name with
  | true => exact ⟨_, rfl, by rw [Store.make_of_made hm]; exact hw.disk⟩
  | false =>
    obtain ⟨t, ht, hd⟩ := hw.disk.make e.isName hm
    rw [ht]
    exact ⟨_, rfl, hd⟩

theorem isObject_parsed {e : EntityName} {k : ObjectId} (u : ParsedUrl)
    (hu : u.fullPath = objectPath h.basePath e.name k.number) :
    isObject cwd u w = (s.content e.name k.number).isSome := by
  unfold isObject
  rw [hu]
  exact hw.disk.isFileAt_object k e.isName

omit hw

/-- The request is answered as the store answers it, and the store is held afterwards. -/
def Matches (h : RequestHandlerAPI) (cwd B : Loc Str) (loc : Str) (w : World Tree) (r : CrudRequest)
    (a : Answer) (s' : Store) : Prop :=
  ∃ o w', (serveCrud h cwd loc r).run w = .ok o w' ∧ observe r o = a ∧ Holds h.basePath cwd B w' s'

include hp hb hw

theorem matches_post (hm : r.method = .post) {a : Answer} {s' : Store} (hs : step s r = some (a, s')) :
    Matches h cwd B loc w r a s' := by
  obtain ⟨m, e, id, slash, version, fields, body⟩ := r
  obtain rfl : m = .post := hm
  unfold Matches
  rw [run_serveCrud hp]
  simp only [serve, CrudRequest.toRequest, Method.verb, run_create, parsedCrud]
  cases id with
  | some k =>
    obtain ⟨rfl, rfl⟩ := Prod.mk.inj (Option.some.inj hs)
    simp only
    rw [(named_object hb e.isName k.number).2, not_same_entity hb e.isName, if_neg (by simp)]
    exact ⟨_, _, rfl, rfl, hw⟩
  | none =>
    obtain ⟨k, hk, hks⟩ := Option.map_eq_some_iff.mp hs
    obtain ⟨rfl, rfl⟩ := Prod.mk.inj hks
    obtain ⟨t, m, hmade, ht, hi⟩ := holds_madeEntity hw
      (u := ⟨true, entityPath h.basePath e.name, 0, e.name⟩) rfl rfl
    have hmk : (s.make e.name).made e.name = true := by simp [Store.make]
    obtain ⟨ids, hids⟩ := hi.exists_ids hmk
    have hnext : getNextId m e.name = .ok (k.number, m.insert e.name (ids.insert k.number)) :=
      getNextId_eq hids (hi.nextFree_eq hids hk)
    simp only
    rw [(named_entity hb e.isName).2.2, if_pos rfl, hmade]
    simp only [hnext]
    rw [append_entity hb e.isName]
    refine ⟨_, _, rfl, rfl, ?_⟩
    rw [← Store.make_put]
    exact ⟨ht.put k e.isName hmk body, hi.insert hids k body⟩

omit hb in
theorem matches_get (hm : r.method = .get) {a : Answer} {s' : Store} (hs : step s r = some (a, s')) :
    Matches h cwd B loc w r a s' := by
  obtain ⟨m, e, id, slash, version, fields, body⟩ := r
  obtain rfl : m = .get := hm
  unfold Matches
  rw [run_serveCrud hp]
  simp only [serve, CrudRequest.toRequest, Method.verb, run_retrieve, parsedCrud]
  cases id with
  | none =>
    obtain ⟨rfl, rfl⟩ := Prod.mk.inj (Option.some.inj hs)
    simp only [if_true]
    rw [hw.disk.existsAt_entity e.isName]
    cases s.made e.name <;> exact ⟨_, _, rfl, rfl, hw⟩
  | some k =>
    have hk : k.number ≠ 0 := by have := k.pos; omega
    have hobj := isObject_parsed hw (e := e) (k := k)
      ⟨true, objectPath h.basePath e.name k.number, k.number, e.name⟩ rfl
    simp only
    rw [if_neg hk, hobj]
    simp only [step] at hs
    cases hc : s.content e.name k.number with
    | some b =>
      simp only [hc, Option.some.injEq, Prod.mk.injEq] at hs
      obtain ⟨rfl, rfl⟩ := hs
      simp only [Option.isSome_some, if_true]
      refine ⟨_, _, rfl, ?_, hw.disk, ?_⟩
      · rw [hw.disk.readAt_object k e.isName hc]; rfl
      · have := hw.map.insertIfNotexist e.name k b
        rwa [Store.put_of_content hc] at this
    | none =>
      simp only [hc, Option.some.injEq, Prod.mk.injEq] at hs
      obtain ⟨rfl, rfl⟩ := hs
      simp only [Option.isSome_none, Bool.false_eq_true, if_false]
      refine ⟨_, _, rfl, rfl, hw.disk, ?_⟩
      have := hw.map.eraseIfExist e.name k.number
      rwa [Store.drop_of_none hc] at this

theorem matches_put (hm : r.method = .put) {a : Answer} {s' : Store} (hs : step s r = some (a, s')) :
    Matches h cwd B loc w r a s' := by
  obtain ⟨m, e, id, slash, version, fields, body⟩ := r
  obtain rfl : m = .put := hm
  unfold Matches
  rw [run_serveCrud hp]
  simp only [serve, CrudRequest.toRequest, Method.verb, run_update, parsedCrud]
  cases id with
  | none =>
    obtain ⟨rfl, rfl⟩ := Prod.mk.inj (Option.some.inj hs)
    simp only
    rw [if_neg (by simp)]
    exact ⟨_, _, rfl, rfl, hw⟩
  | some k =>
    obtain ⟨rfl, rfl⟩ := Prod.mk.inj (Option.some.inj hs)
    have hk : k.number ≠ 0 := by have := k.pos; omega
    obtain ⟨t, hmade, ht⟩ := holds_madeDir hw (e := e)
      (u := ⟨true, objectPath h.basePath e.name k.number, k.number, e.name⟩) (named_object hb e.isName k.number).2
    simp only
    rw [(named_object hb e.isName k.number).2, (named_entity hb e.isName).2.2, if_pos ⟨hk, rfl⟩,
      hmade]
    refine ⟨_, _, rfl, rfl, ?_, hw.map.insertIfNotexist e.name k body⟩
    rw [← Store.make_put]
    exact ht.put k e.isName (by simp [Store.make]) body

omit hb in
theorem matches_delete (hm : r.method = .delete) {a : Answer} {s' : Store}
    (hs : step s r = some (a, s')) : Matches h cwd B loc w r a s' := by
  obtain ⟨m, e, id, slash, version, fields, body⟩ := r
  obtain rfl : m = .delete := hm
  unfold Matches
  rw [run_serveCrud hp]
  simp only [serve, CrudRequest.toRequest, Method.verb, run_remove, parsedCrud]
  cases id with
  | none =>
    obtain ⟨rfl, rfl⟩ := Prod.mk.inj (Option.some.inj hs)
    have hobj : isObject cwd ⟨true, entityPath h.basePath e.name, 0, e.name⟩ w = false := by
      unfold isObject
      rw [hw.disk.isFileAt_entity e.isName, Bool.and_false]
    simp only
    rw [hobj, if_neg (by simp)]
    exact ⟨_, _, rfl, rfl, hw⟩
  | some k =>
    have hobj := isObject_parsed hw (e := e) (k := k)
      ⟨true, objectPath h.basePath e.name k.number, k.number, e.name⟩ rfl
    simp only
    rw [hobj]
    simp only [step] at hs
    cases hc : s.content e.name k.number with
    | some b =>
      simp only [hc, Option.some.injEq, Prod.mk.injEq] at hs
      obtain ⟨rfl, rfl⟩ := hs
      obtain ⟨t, hrm, ht⟩ := hw.disk.drop k e.isName (by simp [hc])
      simp only [Option.isSome_some, if_true, hrm]
      exact ⟨_, _, rfl, rfl, ht, hw.map.eraseIfExist e.name k.number⟩
    | none =>
      simp only [hc, Option.some.injEq, Prod.mk.injEq] at hs
      obtain ⟨rfl, rfl⟩ := hs
      simp only [Option.isSome_none, Bool.false_eq_true, if_false]
      exact ⟨_, _, rfl, rfl, hw⟩

/-- **One request** is answered as the store answers it. -/
theorem matches_step {a : Answer} {s' : Store} (hs : step s r = some (a, s')) :
    Matches h cwd B loc w r a s' := by
  cases hm : r.method with
  | post => exact matches_post hp hb hw r hm hs
  | get => exact matches_get hp hw r hm hs
  | put => exact matches_put hp hb hw r hm hs
  | delete => exact matches_delete hp hw r hm hs

end Step

/-- **The API implements the store.** On an empty directory and an empty map every sequence of canonical
requests that exhausts no entity is answered as the store answers it. -/
theorem crud_refines (h : RequestHandlerAPI) (loc : Str) {cwd B : Loc Str} {w : World Tree}
    (hp : h.prefixLength = loc.length) (hb : Named h.basePath) (hw : Fresh h.basePath cwd B w)
    {rs : List CrudRequest} {answers : List Answer} {s' : Store}
    (hrun : runAbs step Store.empty rs = some (answers, s')) :
    ∃ os w', (runAll (serveCrud h cwd loc) rs).run w = .ok os w' ∧
      List.zipWith observe rs os = answers ∧ Holds h.basePath cwd B w' s' :=
  simulation (R := Holds h.basePath cwd B)
    (fun _ _ r _ _ hs hstep => matches_step hp hb.takesNames hs r hstep) hw.holds hrun

/-- An object of the entity `shoes` is created, and read. -/
def shoeRequests : List CrudRequest :=
  let shoes : EntityName :=
    ⟨"shoes".toList, by decide, by decide, by decide, by decide, by decide⟩
  [⟨.post, shoes, none, false, 11, [], "red".toList⟩,
    ⟨.get, shoes, some ⟨1, by decide, by decide⟩, true, 11, [], []⟩]

theorem crud_refines_shoes : ∃ os w',
    (runAll (serveCrud ⟨⟨"data".toList⟩, 4⟩ [] "/api".toList) shoeRequests).run
      ⟨withDir "data".toList, ∅⟩ = .ok os w' ∧
    List.zipWith observe shoeRequests os =
      [⟨201, some "\x7b\"id\": 1\x7d".toList⟩, ⟨200, some "red".toList⟩] := by
  have hnext : Store.empty.nextId "shoes".toList = some ⟨1, by decide, by decide⟩ :=
    Store.nextId_eq ⟨rfl, fun j h1 h2 => by simp only at h2; omega⟩
  have hfresh : Fresh ⟨"data".toList⟩ [] ["data".toList] ⟨withDir "data".toList, ∅⟩ :=
    fresh_withDir (by decide) (by decide) (by decide)
  have hrun : runAbs step Store.empty shoeRequests = some
      ([⟨201, some "\x7b\"id\": 1\x7d".toList⟩, ⟨200, some "red".toList⟩],
        Store.empty.put "shoes".toList ⟨1, by decide, by decide⟩ "red".toList) := by
    simp only [shoeRequests, runAbs, step, hnext]
    rfl
  obtain ⟨os, w', h1, h2, -⟩ := crud_refines ⟨⟨"data".toList⟩, 4⟩ "/api".toList rfl
    ⟨by decide, by decide⟩ hfresh hrun
  exact ⟨os, w', h1, h2⟩

end Kachow.Api.Crud
