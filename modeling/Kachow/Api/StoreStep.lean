import Kachow.Api.Crud

/-! # One request, as a step of a store and a map

A request whose target is a name, or a name and a number (`ObjectRequest`), does to the tree what
`respond` does to the store the tree holds, whatever the map of identifiers has in it; and `respond`
says what becomes of the map and what the answer is (`run_respond`). The name may begin with digits, as
it does where a user's name is put in front: a request for the entity alone is then taken for one of an
object.

Of the tree the request touches the directory of the entity and the files of its objects (`Touches`). -/

namespace Kachow.Api.StoreStep

open Kachow.Lib.Text Kachow.Lib.Decimal Kachow.Lib.Sets Kachow.Lib.Files Kachow.Boost.Paths
open Kachow.Http.Messages Kachow.Http.Mime Kachow.Disk Kachow.Api.Ids Kachow.Api.Handler
open Kachow.Api.Target Kachow.Api.Objects Kachow.Api.Crud

/-- A request for an entity or for one of its objects, with any method. -/
structure ObjectRequest where
  method : Verb
  entity : Str
  isName : IsName entity
  id : Option ObjectId
  slash : Bool
  version : ℕ
  fields : List (Str × Str)
  body : Str

/-- The request with its target behind the location. -/
def ObjectRequest.toRequest (loc : Str) (r : ObjectRequest) : Request where
  method := r.method
  target := loc ++ ('/' :: r.entity ++ idPart r.id ++ slashIf r.slash)
  version := r.version
  fields := r.fields
  body := r.body

/-- The object is stored, if its number can be one. -/
def Store.write (s : Store) (e : Str) (k : ℤ) (b : Str) : Store :=
  if h : 1 ≤ k ∧ k ≤ intMax then s.put e ⟨k, h.1, h.2⟩ b else s

/-- The content type of an object: its file name has no extension. -/
def objectType : Str := extensionToMIME []

/-- The number at the end of a name, which the handler takes for an identifier. -/
def nameId (e : Str) : ℤ := (stoi e).getD 0

/-- **The step**: the answer, the store and the map after a request. -/
def respond (s : Store) (m : EntityIdMap) (r : ObjectRequest) (res : Response) :
    Except Fault ((Bool × Response) × Store × EntityIdMap) :=
  match r.method, r.id with
  | .post, none =>
    match getNextId (if s.made r.entity then m else insertKey m r.entity) r.entity with
    | .ok (id, m') =>
      .ok ((true, setCreated res id), Store.write (s.make r.entity) r.entity id r.body, m')
    | .error f => .error f
  | .post, some _ => .ok ((false, setBadRequest res), s, m)
  | .get, none =>
    if nameId r.entity = 0 then
      if s.made r.entity then
        .ok ((true, res.fill 200 textPlain (listResponse r.entity (m.lookup r.entity))), s, m)
      else .ok ((false, setNotfoundRequest res), s, m)
    else .ok ((false, setNotfoundRequest res), s, eraseIfExist m r.entity (nameId r.entity))
  | .get, some k =>
    match s.content r.entity k.number with
    | some b => .ok ((true, res.fill 200 objectType b), s, insertIfNotexist m r.entity k.number)
    | none => .ok ((false, setNotfoundRequest res), s, eraseIfExist m r.entity k.number)
  | .put, none => .ok ((false, setBadRequest res), s, m)
  | .put, some k =>
    .ok ((true, setOk res), s.put r.entity k r.body, insertIfNotexist m r.entity k.number)
  | .delete, none => .ok ((false, setNotfoundRequest res), s, m)
  | .delete, some k =>
    match s.content r.entity k.number with
    | some _ => .ok ((true, setOk res), s.drop r.entity k.number, eraseIfExist m r.entity k.number)
    | none => .ok ((false, setNotfoundRequest res), s, m)
  | .other _, _ => .ok ((false, setBadRequest res), s, m)
  | _, _ => .ok ((false, setNotAllowed res), s, m)

/-! ### The step on its own -/

/-- There is a number left for the next object. -/
def HasRoom (m : EntityIdMap) (e : Str) : Prop := nextFree ((m.lookup e).getD ∅) ≠ none

section Step
variable {s : Store} {m : EntityIdMap} {r : ObjectRequest} {res : Response}

/-- The set a `POST` takes its number from. -/
theorem lookup_made {e : Str} (hkey : s.made e = true → m.lookup e ≠ none) :
    (if s.made e then m else insertKey m e).lookup e = some ((m.lookup e).getD ∅) := by
  cases hm : s.made e with
  | false => simp
  | true =>
    obtain ⟨ids, hids⟩ := Option.ne_none_iff_exists'.mp (hkey hm)
    simp [hids]

/-- **Every request is answered**, where an entity that is made has its key, and room. -/
theorem exists_respond (hkey : s.made r.entity = true → m.lookup r.entity ≠ none)
    (hroom : r.method = .post → r.id = none → HasRoom m r.entity) :
    ∃ x, respond s m r res = .ok x := by
  by_cases hm : r.method = .post ∧ r.id = none
  · obtain ⟨k, hk⟩ := Option.ne_none_iff_exists'.mp (hroom hm.1 hm.2)
    unfold respond
    rw [hm.1, hm.2]
    simp only [getNextId_eq (lookup_made hkey) hk]
    exact ⟨_, rfl⟩
  · unfold respond
    split <;> first | exact ⟨_, rfl⟩ | skip
    · next h1 h2 => exact absurd ⟨h1, h2⟩ hm
    · split_ifs <;> exact ⟨_, rfl⟩
    · split <;> exact ⟨_, rfl⟩
    · split <;> exact ⟨_, rfl⟩

/-- What a request does to the store and the map. -/
inductive Change (s : Store) (m : EntityIdMap) (r : ObjectRequest) : Store → EntityIdMap → Prop
  | same : Change s m r s m
  | created {IDs : IdSet} {k : ObjectId}
      (hl : (if s.made r.entity then m else insertKey m r.entity).lookup r.entity = some IDs)
      (hk : nextFree IDs = some k.number) :
      Change s m r (s.put r.entity k r.body)
        ((if s.made r.entity then m else insertKey m r.entity).insert r.entity (IDs.insert k.number))
  | named (hk : nameId r.entity ≠ 0) : Change s m r s (eraseIfExist m r.entity (nameId r.entity))
  | missing {k : ObjectId} (hc : s.content r.entity k.number = none) :
      Change s m r s (eraseIfExist m r.entity k.number)
  | found {k : ObjectId} {b : Str} (hc : s.content r.entity k.number = some b) :
      Change s m r s (insertIfNotexist m r.entity k.number)
  | stored (k : ObjectId) :
      Change s m r (s.put r.entity k r.body) (insertIfNotexist m r.entity k.number)
  | deleted {k : ObjectId} (hc : s.content r.entity k.number ≠ none) :
      Change s m r (s.drop r.entity k.number) (eraseIfExist m r.entity k.number)

theorem change_respond {o : Bool × Response} {s' : Store} {m' : EntityIdMap}
    (hr : respond s m r res = .ok (o, s', m')) : Change s m r s' m' := by
  unfold respond at hr
  split at hr
  · cases hid : getNextId (if s.made r.entity then m else insertKey m r.entity) r.entity with
    | error f => simp [hid] at hr
    | ok q =>
      obtain ⟨id, m''⟩ := q
      simp only [hid] at hr
      obtain ⟨rfl, rfl, rfl⟩ := Except.ok.inj hr
      obtain ⟨IDs, hl, hfree, rfl⟩ := getNextId_ok hid
      obtain ⟨h1, h2, -, -⟩ := nextFree_eq_some.mp hfree
      rw [Store.write, dif_pos ⟨h1, h2⟩, Store.make_put]
      exact .created (k := ⟨id, h1, h2⟩) hl hfree
  · obtain ⟨rfl, rfl, rfl⟩ := Except.ok.inj hr
    exact .same
  · split_ifs at hr with hn
    · obtain ⟨rfl, rfl, rfl⟩ := Except.ok.inj hr
      exact .same
    · obtain ⟨rfl, rfl, rfl⟩ := Except.ok.inj hr
      exact .same
    · obtain ⟨rfl, rfl, rfl⟩ := Except.ok.inj hr
      exact .named hn
  · split at hr
    · next hb =>
      obtain ⟨rfl, rfl, rfl⟩ := Except.ok.inj hr
      exact .found hb
    · next hb =>
      obtain ⟨rfl, rfl, rfl⟩ := Except.ok.inj hr
      exact .missing hb
  · obtain ⟨rfl, rfl, rfl⟩ := Except.ok.inj hr
    exact .same
  · obtain ⟨rfl, rfl, rfl⟩ := Except.ok.inj hr
    exact .stored _
  · obtain ⟨rfl, rfl, rfl⟩ := Except.ok.inj hr
    exact .same
  · split at hr
    · next hb =>
      obtain ⟨rfl, rfl, rfl⟩ := Except.ok.inj hr
      exact .deleted (by simp [hb])
    · obtain ⟨rfl, rfl, rfl⟩ := Except.ok.inj hr
      exact .same
  all_goals
    obtain ⟨rfl, rfl, rfl⟩ := Except.ok.inj hr
    exact .same

/-- The map goes on to have the numbers of the objects, unless a name is taken for a number. -/
theorem Change.inMap {s' : Store} {m' : EntityIdMap} (hc : Change s m r s' m') (h : InMap m s)
    (hn : nameId r.entity = 0) : InMap m' s' := by
  cases hc with
  | same => exact h
  | @created IDs k hl hk =>
    have hmade : InMap (if s.made r.entity then m else insertKey m r.entity) (s.make r.entity) := by
      split_ifs with hm
      · rw [Store.make_of_made hm]
        exact h
      · exact h.insertKey r.entity
    rw [← Store.make_put]
    exact hmade.insert hl k r.body
  | named hk => exact absurd hn hk
  | @missing k hc =>
    have hdrop := h.eraseIfExist r.entity k.number
    rwa [Store.drop_of_none hc] at hdrop
  | @found k b hc =>
    have hput := h.insertIfNotexist r.entity k b
    rwa [Store.put_of_content hc] at hput
  | stored k => exact h.insertIfNotexist r.entity k r.body
  | @deleted k hc => exact h.eraseIfExist r.entity k.number

/-- A key stays. -/
theorem Change.key {s' : Store} {m' : EntityIdMap} (hc : Change s m r s' m') {x : Str}
    (h : m.lookup x ≠ none) : m'.lookup x ≠ none := by
  intro hnone
  apply h
  cases hc with
  | same => exact hnone
  | @created IDs k hl hk =>
    have hx := (lookup_insert_eq_none.mp hnone).2
    split_ifs at hx with hm
    · exact hx
    · exact (lookup_insertKey_eq_none.mp hx).2
  | named hk => exact lookup_eraseIfExist_eq_none.mp hnone
  | missing hc => exact lookup_eraseIfExist_eq_none.mp hnone
  | found hc => exact (lookup_insertIfNotexist_eq_none.mp hnone).2
  | stored k => exact (lookup_insertIfNotexist_eq_none.mp hnone).2
  | deleted hc => exact lookup_eraseIfExist_eq_none.mp hnone

/-- An entity that is made gets its key. -/
theorem Change.key_of_made {s' : Store} {m' : EntityIdMap} (hc : Change s m r s' m')
    (h : ∀ x, s.made x = true → m.lookup x ≠ none) {x : Str} (hx : s'.made x = true) :
    m'.lookup x ≠ none := by
  have hkeep : s.made x = true → m'.lookup x ≠ none := fun hm => hc.key (h x hm)
  have hput : ∀ k : ObjectId, (s.put r.entity k r.body).made x = true →
      x = r.entity ∨ s.made x = true := fun k hk => by simpa [Store.put] using hk
  cases hc with
  | same => exact hkeep hx
  | @created IDs k hl hk =>
    rcases hput k hx with rfl | hm
    · rw [lookup_insert, if_pos rfl]
      simp
    · exact hkeep hm
  | named hk => exact hkeep hx
  | missing hc => exact hkeep hx
  | found hc => exact hkeep hx
  | stored k =>
    rcases hput k hx with rfl | hm
    · rw [lookup_insertIfNotexist, if_pos rfl]
      simp
    · exact hkeep hm
  | deleted hc => exact hkeep hx

end Step

/-! ### What a request touches -/

/-- At most the directory of `e` and the files of its objects are changed, and no directory is
removed. -/
structure Touches (B : Loc Str) (e : Str) (t t' : Tree) : Prop where
  node : ∀ l, t'.node l = t.node l ∨ l = B ++ [e] ∨
    ∃ k : ObjectId, l = B ++ [e] ++ [intToString k.number]
  dirs : ∀ l, t.isDir l = true → t'.isDir l = true

theorem Touches.rfl {B : Loc Str} {e : Str} {t : Tree} : Touches B e t t :=
  ⟨fun _ => Or.inl (Eq.refl _), fun _ h => h⟩

theorem Touches.trans {B : Loc Str} {e : Str} {t t' t'' : Tree} (h : Touches B e t t')
    (h' : Touches B e t' t'') : Touches B e t t'' := by
  refine ⟨fun l => ?_, fun l hl => h'.dirs l (h.dirs l hl)⟩
  rcases h'.node l with h1 | h1
  · rw [h1]
    exact h.node l
  · exact Or.inr h1

/-- A store under another directory is left alone. -/
theorem OnDisk.of_touches {base : Path} {cwd B B' : Loc Str} {t t' : Tree} {s : Store} {e : Str}
    (h : OnDisk base cwd B' t s) (ht : Touches B e t t') (hB : ∀ l, ¬ (B' <+: l ∧ B <+: l)) :
    OnDisk base cwd B' t' s := by
  have hsame : ∀ r, t'.node (B' ++ r) = t.node (B' ++ r) := by
    intro r
    rcases ht.node (B' ++ r) with h1 | h1 | ⟨k, h1⟩
    · exact h1
    · exact absurd ⟨List.prefix_append _ _, h1 ▸ List.prefix_append _ _⟩ (hB (B' ++ r))
    · refine absurd ⟨List.prefix_append _ _, ?_⟩ (hB (B' ++ r))
      rw [h1, List.append_assoc]
      exact List.prefix_append _ _
  refine ⟨path_locate_mono ht.dirs h.base, ht.dirs _ h.dir, fun x => ?_, fun x k h1 h2 => ?_⟩
  · rw [hsame]
    exact h.entity x
  · rw [List.append_assoc, hsame, ← List.append_assoc]
    exact h.object x k h1 h2

/-! ### On the tree -/

section Run
variable {h : RequestHandlerAPI} {cwd B : Loc Str} {loc : Str} {w : World Tree} {s : Store}
  {e : Str}

/-- What a target is parsed to. -/
def parsedObject (base : Path) (r : ObjectRequest) : ParsedUrl :=
  match r.id with
  | none => ⟨true, entityPath base r.entity, nameId r.entity, r.entity⟩
  | some k => ⟨true, objectPath base r.entity k.number, k.number, r.entity⟩

theorem parse_name (base : Path) (he : IsName e) (slash : Bool) :
    parseUrl base ('/' :: e ++ slashIf slash) = .ok ⟨true, entityPath base e, nameId e, e⟩ := by
  have hs := stripped_slashIf (a := []) he.noSlash he.ne_nil slash
  rw [List.nil_append] at hs
  rw [parseUrl_append (a := []) (by simp) hs he.noSlash]
  simp [entityPath, nameId]

theorem parseUrlTarget_toRequest (hp : h.prefixLength = loc.length) (r : ObjectRequest) :
    h.parseUrlTarget (r.toRequest loc) = .ok (parsedObject h.basePath r) := by
  rw [parseUrlTarget_append hp rfl]
  unfold parsedObject idPart
  cases r.id with
  | none =>
    rw [List.append_nil]
    exact parse_name _ r.isName r.slash
  | some k =>
    exact parse_object _ (by have := k.pos; unfold intMin; omega) k.le r.slash

theorem parsedObject_ok (base : Path) (r : ObjectRequest) : (parsedObject base r).ok = true := by
  unfold parsedObject
  cases r.id <;> rfl

theorem run_toRequest (hp : h.prefixLength = loc.length) (r : ObjectRequest) (res : Response) :
    (h.getResponse (realFileSystem cwd) (r.toRequest loc) res).run w =
      (serve h (realFileSystem cwd) (r.toRequest loc) res (parsedObject h.basePath r)).run w := by
  rw [run_getResponse, parseUrlTarget_toRequest hp]
  simp only [parsedObject_ok, if_true]

theorem extension_object {base : Path} (hb : TakesNames base) (he : IsName e) (k : ℤ) :
    (objectPath base e k).extension = [] := by
  have hdot : '.' ∉ intToString k := notMem_intToString (by decide) (by decide) k
  have hname : (objectPath base e k).filename = intToString k := by
    unfold Path.filename
    rw [(named_object hb he k).1, List.getLastD_concat]
  unfold Path.extension
  rw [hname, findLastOf_of_notMem hdot, if_neg]
  rintro (h | h) <;> rw [h] at hdot <;> simp at hdot

section OnDisk
variable (hd : OnDisk h.basePath cwd B w.disk s) (he : IsName e)
include hd he

/-- A `POST` finds the directory of its entity, or makes it. -/
theorem exists_madeEntity {u : ParsedUrl} (hu : u.fullPath = entityPath h.basePath e)
    (hent : u.entity = e) : ∃ t, madeEntity cwd u w =
      some (t, if s.made e then w.entityIdMap else insertKey w.entityIdMap e) ∧
      OnDisk h.basePath cwd B t (s.make e) ∧ Touches B e w.disk t := by
  have hloc := hd.locate_entity he
  unfold madeEntity
  rw [hu, hent, hd.existsAt_entity he]
  cases hm : s.made e with
  | true => exact ⟨_, rfl, by rw [Store.make_of_made hm]; exact hd, .rfl⟩
  | false =>
    obtain ⟨t, ht, hd'⟩ := hd.make he hm
    rw [ht]
    refine ⟨_, rfl, hd', fun l => ?_, fun l => isDir_mkdirAt ht⟩
    rcases node_mkdirAt ht l with h1 | ⟨h1, -⟩
    · exact Or.inl h1
    · rw [← locate_resolve hloc] at h1
      exact Or.inr (Or.inl h1)

omit hd he in
theorem madeDir_eq (u : ParsedUrl) : madeDir cwd u w =
    (madeEntity cwd ⟨true, u.fullPath.parentPath, 0, e⟩ w).map Prod.fst := by
  unfold madeDir madeEntity
  simp only
  split_ifs
  · rfl
  · rw [Option.map_map]
    rfl

/-- A `PUT` finds the directory of its entity, or makes it. -/
theorem exists_madeDir {u : ParsedUrl} (hu : u.fullPath.parentPath = entityPath h.basePath e) :
    ∃ t, madeDir cwd u w = some t ∧ OnDisk h.basePath cwd B t (s.make e) ∧
      Touches B e w.disk t := by
  obtain ⟨t, ht, hd', htouch⟩ :=
    exists_madeEntity hd he (u := ⟨true, entityPath h.basePath e, 0, e⟩) rfl rfl
  refine ⟨t, ?_, hd', htouch⟩
  rw [madeDir_eq (e := e), hu, ht]
  rfl

omit hd in
/-- Writing the file of an object touches it only. -/
theorem touches_writeAt {t : Tree} {s : Store} (hd : OnDisk h.basePath cwd B t s)
    (hm : s.made e = true) (k : ObjectId) (b : Str) :
    Touches B e t (writeAt cwd t (objectPath h.basePath e k.number) b) := by
  have hloc := hd.locate_object he k.number
  rw [if_pos hm] at hloc
  refine ⟨fun l => ?_, fun l hl => by rw [isDir_writeAt]; exact hl⟩
  rcases node_writeAt b l with h1 | ⟨h1, -⟩
  · exact Or.inl h1
  · rw [hloc, Option.some.injEq] at h1
    exact Or.inr (Or.inr ⟨k, h1.symm⟩)

theorem touches_removeAt (k : ObjectId) {t : Tree} {b : Bool}
    (hc : s.content e k.number ≠ none)
    (hrm : removeAt cwd w.disk (objectPath h.basePath e k.number) = some (b, t)) :
    Touches B e w.disk t := by
  have hf := hd.isFileAt_object k he
  rw [Option.isSome_iff_ne_none.mpr hc, Bool.and_eq_true] at hf
  obtain ⟨l, t', hl, -, hrm', hnode, hdir⟩ := removeAt_of_isFileAt hf.2
  rw [hrm', Option.some.injEq, Prod.mk.injEq] at hrm
  obtain ⟨-, rfl⟩ := hrm
  have hloc := hd.locate_object he k.number
  rw [if_pos (s.live _ _ hc).1, hl, Option.some.injEq] at hloc
  refine ⟨fun l' => ?_, fun l' h' => by rw [hdir]; exact h'⟩
  rw [hnode]
  split_ifs with hl'
  · exact Or.inr (Or.inr ⟨k, hl'.trans hloc⟩)
  · exact Or.inl rfl

end OnDisk

variable (hp : h.prefixLength = loc.length) (hb : TakesNames h.basePath)
  (hd : OnDisk h.basePath cwd B w.disk s) {r : ObjectRequest} {res : Response}
  {o : Bool × Response} {s' : Store} {m' : EntityIdMap}

/-- The request is answered with `o`, and leaves the store `s'` in the tree and the map `m'`. -/
def Leaves (h : RequestHandlerAPI) (cwd B : Loc Str) (loc : Str) (w : World Tree)
    (r : ObjectRequest) (res : Response) (o : Bool × Response) (s' : Store) (m' : EntityIdMap) :
    Prop :=
  ∃ t, (h.getResponse (realFileSystem cwd) (r.toRequest loc) res).run w = .ok o ⟨t, m'⟩ ∧
    OnDisk h.basePath cwd B t s' ∧ Touches B r.entity w.disk t

include hp hb hd

theorem leaves_post (hm : r.method = .post)
    (hr : respond s w.entityIdMap r res = .ok (o, s', m')) : Leaves h cwd B loc w r res o s' m' := by
  obtain ⟨m, e, he, id, slash, version, fields, body⟩ := r
  obtain rfl : m = .post := hm
  unfold Leaves
  rw [run_toRequest hp]
  simp only [serve, ObjectRequest.toRequest, run_create, parsedObject]
  cases id with
  | some k =>
    obtain ⟨rfl, rfl, rfl⟩ := Except.ok.inj hr
    simp only
    rw [(named_object hb he k.number).2, not_same_entity hb he, if_neg (by simp)]
    exact ⟨_, rfl, hd, .rfl⟩
  | none =>
    obtain ⟨t, hmade, ht, htouch⟩ :=
      exists_madeEntity hd he (u := ⟨true, entityPath h.basePath e, nameId e, e⟩) rfl rfl
    simp only [respond] at hr
    cases hid : getNextId (if s.made e then w.entityIdMap else insertKey w.entityIdMap e) e with
    | error f => simp [hid] at hr
    | ok q =>
      obtain ⟨id, m''⟩ := q
      simp only [hid, Except.ok.injEq, Prod.mk.injEq] at hr
      obtain ⟨rfl, rfl, rfl⟩ := hr
      obtain ⟨IDs, -, hfree, -⟩ := getNextId_ok hid
      obtain ⟨h1, h2, -, -⟩ := nextFree_eq_some.mp hfree
      have hmk : (s.make e).made e = true := by simp [Store.make]
      simp only
      rw [(named_entity hb he).2.2, if_pos rfl, hmade]
      simp only [hid]
      rw [append_entity hb he]
      refine ⟨_, rfl, ?_, htouch.trans (touches_writeAt he ht hmk ⟨id, h1, h2⟩ body)⟩
      rw [Store.write, dif_pos ⟨h1, h2⟩]
      exact ht.put ⟨id, h1, h2⟩ he hmk body

theorem leaves_get (hm : r.method = .get)
    (hr : respond s w.entityIdMap r res = .ok (o, s', m')) : Leaves h cwd B loc w r res o s' m' := by
  obtain ⟨m, e, he, id, slash, version, fields, body⟩ := r
  obtain rfl : m = .get := hm
  unfold Leaves
  rw [run_toRequest hp]
  simp only [serve, ObjectRequest.toRequest, run_retrieve, parsedObject]
  cases id with
  | none =>
    have hobj : isObject cwd ⟨true, entityPath h.basePath e, nameId e, e⟩ w = false := by
      unfold isObject
      rw [hd.isFileAt_entity he, Bool.and_false]
    simp only [respond] at hr
    simp only [hd.existsAt_entity he, hobj, Bool.false_eq_true, if_false]
    split_ifs at hr ⊢
    all_goals
      obtain ⟨rfl, rfl, rfl⟩ := Except.ok.inj hr
      exact ⟨_, rfl, hd, .rfl⟩
  | some k =>
    have hk : k.number ≠ 0 := by have := k.pos; omega
    have hobj : isObject cwd ⟨true, objectPath h.basePath e k.number, k.number, e⟩ w =
        (s.content e k.number).isSome := hd.isFileAt_object k he
    simp only [respond] at hr
    simp only
    rw [if_neg hk, hobj, extension_object hb he]
    cases hc : s.content e k.number with
    | some b =>
      simp only [hc] at hr
      obtain ⟨rfl, rfl, rfl⟩ := Except.ok.inj hr
      rw [hd.readAt_object k he hc]
      exact ⟨_, rfl, hd, .rfl⟩
    | none =>
      simp only [hc] at hr
      obtain ⟨rfl, rfl, rfl⟩ := Except.ok.inj hr
      exact ⟨_, rfl, hd, .rfl⟩

theorem leaves_put (hm : r.method = .put)
    (hr : respond s w.entityIdMap r res = .ok (o, s', m')) : Leaves h cwd B loc w r res o s' m' := by
  obtain ⟨m, e, he, id, slash, version, fields, body⟩ := r
  obtain rfl : m = .put := hm
  unfold Leaves
  rw [run_toRequest hp]
  simp only [serve, ObjectRequest.toRequest, run_update, parsedObject]
  cases id with
  | none =>
    -- the path above the path of an entity is the base path, and the path above that is not
    have hup : (entityPath h.basePath e).parentPath.parentPath.same h.basePath = false := by
      rw [← Bool.not_eq_true, same_iff, elements_parentPath,
        same_iff.mp (named_entity hb he).2.2]
      intro heq
      have hne := elements_ne_nil hb.ne_nil
      have hlen := congrArg List.length heq
      have hpos := List.length_pos_iff.mpr hne
      rw [List.length_dropLast] at hlen
      omega
    obtain ⟨rfl, rfl, rfl⟩ := Except.ok.inj hr
    simp only [hup]
    rw [if_neg (by simp)]
    exact ⟨_, rfl, hd, .rfl⟩
  | some k =>
    obtain ⟨rfl, rfl, rfl⟩ := Except.ok.inj hr
    have hk : k.number ≠ 0 := by have := k.pos; omega
    have hmk : (s.make e).made e = true := by simp [Store.make]
    obtain ⟨t, hmade, ht, htouch⟩ := exists_madeDir hd he
      (u := ⟨true, objectPath h.basePath e k.number, k.number, e⟩) (named_object hb he k.number).2
    simp only
    rw [(named_object hb he k.number).2, (named_entity hb he).2.2, if_pos ⟨hk, rfl⟩, hmade]
    refine ⟨_, rfl, ?_, htouch.trans (touches_writeAt he ht hmk k body)⟩
    rw [← Store.make_put]
    exact ht.put k he hmk body

omit hb in
theorem leaves_delete (hm : r.method = .delete)
    (hr : respond s w.entityIdMap r res = .ok (o, s', m')) : Leaves h cwd B loc w r res o s' m' := by
  obtain ⟨m, e, he, id, slash, version, fields, body⟩ := r
  obtain rfl : m = .delete := hm
  unfold Leaves
  rw [run_toRequest hp]
  simp only [serve, ObjectRequest.toRequest, run_remove, parsedObject]
  cases id with
  | none =>
    have hobj : isObject cwd ⟨true, entityPath h.basePath e, nameId e, e⟩ w = false := by
      unfold isObject
      rw [hd.isFileAt_entity he, Bool.and_false]
    obtain ⟨rfl, rfl, rfl⟩ := Except.ok.inj hr
    simp only
    rw [hobj, if_neg (by simp)]
    exact ⟨_, rfl, hd, .rfl⟩
  | some k =>
    have hobj : isObject cwd ⟨true, objectPath h.basePath e k.number, k.number, e⟩ w =
        (s.content e k.number).isSome := hd.isFileAt_object k he
    simp only [respond] at hr
    simp only
    rw [hobj]
    cases hc : s.content e k.number with
    | some b =>
      simp only [hc] at hr
      obtain ⟨rfl, rfl, rfl⟩ := Except.ok.inj hr
      have hne : s.content e k.number ≠ none := by simp [hc]
      obtain ⟨t, hrm, ht⟩ := hd.drop k he hne
      simp only [Option.isSome_some, if_true, hrm]
      exact ⟨_, rfl, ht, touches_removeAt hd he k hne hrm⟩
    | none =>
      simp only [hc] at hr
      obtain ⟨rfl, rfl, rfl⟩ := Except.ok.inj hr
      simp only [Option.isSome_none, Bool.false_eq_true, if_false]
      exact ⟨_, rfl, hd, .rfl⟩

/-- **One request** does to the tree what the step does to the store. -/
theorem run_respond (hr : respond s w.entityIdMap r res = .ok (o, s', m')) :
    Leaves h cwd B loc w r res o s' m' := by
  cases hm : r.method with
  | post => exact leaves_post hp hb hd hm hr
  | get => exact leaves_get hp hb hd hm hr
  | put => exact leaves_put hp hb hd hm hr
  | delete => exact leaves_delete hp hd hm hr
  | _ =>
    unfold Leaves
    rw [run_toRequest hp]
    simp only [serve, ObjectRequest.toRequest, hm]
    simp only [respond, hm] at hr
    obtain ⟨rfl, rfl, rfl⟩ := Except.ok.inj hr
    exact ⟨_, rfl, hd, .rfl⟩

end Run

end Kachow.Api.StoreStep
