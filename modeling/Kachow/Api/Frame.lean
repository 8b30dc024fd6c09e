import Kachow.Api.StoreStep

/-! # What a request depends on

A request depends on what is kept under one name only: whether the entity has been made, what its
objects hold, and which numbers the map has for it (`Alike`). Where this is the same, under one name or
under two, the step gives the same answer and keeps it the same (`respond_alike`); what is kept under
other names it leaves alone (`alike_of_change`). So the state of the server is a family of independent
cells, one for each name, and a request reads and writes one of them. -/

namespace Kachow.Api.Frame

open Kachow.Lib.Text Kachow.Lib.Sets Kachow.Lib.Files Kachow.Boost.Paths Kachow.Http.Messages
open Kachow.Disk Kachow.Api.Ids Kachow.Api.Handler Kachow.Api.Objects Kachow.Api.StoreStep

/-- The result of a step. -/
abbrev Result := Except Fault ((Bool × Response) × Store × EntityIdMap)

/-- What is kept under `e'` in one state is what is kept under `e` in the other. -/
structure Alike (s : Store) (m : EntityIdMap) (e : Str) (s' : Store) (m' : EntityIdMap) (e' : Str) :
    Prop where
  made : s'.made e' = s.made e
  content : ∀ k, s'.content e' k = s.content e k
  lookup : m'.lookup e' = m.lookup e

/-- Two steps with the same answer, which leave the states alike, or with the same fault. -/
inductive AlikeResults (e e' : Str) : Result → Result → Prop
  | ok {o : Bool × Response} {s s' : Store} {m m' : EntityIdMap} (h : Alike s m e s' m' e') :
      AlikeResults e e' (.ok (o, s, m)) (.ok (o, s', m'))
  | error (f : Fault) : AlikeResults e e' (.error f) (.error f)

namespace Alike

variable {s s' s'' : Store} {m m' m'' : EntityIdMap} {e e' e'' : Str}

theorem symm (h : Alike s m e s' m' e') : Alike s' m' e' s m e :=
  ⟨h.made.symm, fun k => (h.content k).symm, h.lookup.symm⟩

theorem trans (h : Alike s m e s' m' e') (h' : Alike s' m' e' s'' m'' e'') :
    Alike s m e s'' m'' e'' :=
  ⟨h'.made.trans h.made, fun k => (h'.content k).trans (h.content k), h'.lookup.trans h.lookup⟩

theorem make (h : Alike s m e s' m' e') : Alike (s.make e) m e (s'.make e') m' e' where
  made := by simp [Store.make]
  content := h.content
  lookup := h.lookup

theorem put (h : Alike s m e s' m' e') (k : ObjectId) (b : Str) :
    Alike (s.put e k b) m e (s'.put e' k b) m' e' where
  made := by simp [Store.put]
  content j := by simp [Store.put, h.content]
  lookup := h.lookup

theorem drop (h : Alike s m e s' m' e') (k : ℤ) : Alike (s.drop e k) m e (s'.drop e' k) m' e' where
  made := h.made
  content j := by simp [Store.drop, h.content]
  lookup := h.lookup

theorem write (h : Alike s m e s' m' e') (k : ℤ) (b : Str) :
    Alike (Store.write s e k b) m e (Store.write s' e' k b) m' e' := by
  unfold Store.write
  split_ifs
  · exact h.put _ b
  · exact h

theorem insertKey (h : Alike s m e s' m' e') : Alike s (insertKey m e) e s' (insertKey m' e') e' where
  made := h.made
  content := h.content
  lookup := by simp [h.lookup]

theorem insertIfNotexist (h : Alike s m e s' m' e') (k : ℤ) :
    Alike s (insertIfNotexist m e k) e s' (insertIfNotexist m' e' k) e' where
  made := h.made
  content := h.content
  lookup := by simp [h.lookup]

theorem eraseIfExist (h : Alike s m e s' m' e') (k : ℤ) :
    Alike s (eraseIfExist m e k) e s' (eraseIfExist m' e' k) e' where
  made := h.made
  content := h.content
  lookup := by simp [h.lookup]

theorem insert (h : Alike s m e s' m' e') (IDs : IdSet) :
    Alike s (m.insert e IDs) e s' (m'.insert e' IDs) e' where
  made := h.made
  content := h.content
  lookup := by rw [lookup_insert, lookup_insert, if_pos rfl, if_pos rfl]

/-- The next identifier is taken from the same set. -/
theorem getNextId (h : Alike s m e s' m' e') :
    (∃ f, getNextId m e = .error f ∧ getNextId m' e' = .error f) ∨
    ∃ id IDs, getNextId m e = .ok (id, m.insert e IDs) ∧
      getNextId m' e' = .ok (id, m'.insert e' IDs) := by
  unfold Ids.getNextId
  rw [h.lookup]
  cases hl : m.lookup e with
  | none => exact Or.inl ⟨_, rfl, rfl⟩
  | some IDs =>
    cases hid : nextFree IDs with
    | none => exact Or.inl ⟨.intOverflow, by simp [hid], by simp [hid]⟩
    | some id => exact Or.inr ⟨id, IDs.insert id, by simp [hid], by simp [hid]⟩

/-- The set a `POST` takes its number from, once it has made its entity. -/
theorem made_or_insertKey (h : Alike s m e s' m' e') :
    Alike s (if s.made e then m else Ids.insertKey m e) e
      s' (if s'.made e' then m' else Ids.insertKey m' e') e' := by
  rw [h.made]
  split_ifs
  · exact h
  · exact h.insertKey

end Alike

section Step
variable {s s' : Store} {m m' : EntityIdMap} {r r' : ObjectRequest} {res : Response}

/-- A list shows the name of an entity only where the map has no key for it. -/
theorem listResponse_alike {e e' : Str} {l : Option IdSet} (h : e' = e ∨ l ≠ none) :
    listResponse e' l = listResponse e l := by
  rcases h with rfl | h
  · rfl
  · obtain ⟨IDs, rfl⟩ := Option.ne_none_iff_exists'.mp h
    rfl

/-- **One request.** In states that are alike a request is answered alike, and leaves them alike. -/
theorem respond_alike (hm : r'.method = r.method) (hid : r'.id = r.id) (hbody : r'.body = r.body)
    (hn : r.method = .get → r.id = none → nameId r'.entity = nameId r.entity)
    (hname : r'.entity = r.entity ∨ (s.made r.entity = true → m.lookup r.entity ≠ none))
    (h : Alike s m r.entity s' m' r'.entity) :
    AlikeResults r.entity r'.entity (respond s m r res) (respond s' m' r' res) := by
  obtain ⟨method, e, he, id, slash, version, fields, body⟩ := r
  obtain ⟨method', e', he', id', slash', version', fields', body'⟩ := r'
  obtain rfl : method' = method := hm
  obtain rfl : id' = id := hid
  obtain rfl : body' = body := hbody
  simp only at hn hname h
  unfold respond
  simp only
  cases method' with
  | post =>
    cases id' with
    | some k => exact .ok h
    | none =>
      simp only
      have hmap := h.made_or_insertKey
      rcases hmap.getNextId with ⟨f, h1, h2⟩ | ⟨id, IDs, h1, h2⟩
      · rw [h1, h2]
        exact .error f
      · rw [h1, h2]
        exact .ok ((hmap.insert IDs).make.write id body')
  | get =>
    cases id' with
    | none =>
      simp only
      rw [hn rfl rfl, h.made, h.lookup]
      split_ifs with h0 hmade
      · have hlist : listResponse e' (m.lookup e) = listResponse e (m.lookup e) :=
          listResponse_alike (hname.imp_right fun hkey => hkey hmade)
        rw [hlist]
        exact .ok h
      · exact .ok h
      · exact .ok (h.eraseIfExist _)
    | some k =>
      simp only
      rw [h.content]
      cases s.content e k.number with
      | none => exact .ok (h.eraseIfExist k.number)
      | some b => exact .ok (h.insertIfNotexist k.number)
  | put =>
    cases id' with
    | none => exact .ok h
    | some k => exact .ok ((h.insertIfNotexist k.number).put k body')
  | delete =>
    cases id' with
    | none => exact .ok h
    | some k =>
      simp only
      rw [h.content]
      cases s.content e k.number with
      | none => exact .ok h
      | some b => exact .ok ((h.eraseIfExist k.number).drop k.number)
  | _ => exact .ok h

/-- The name of a method Beast does not know makes no difference. -/
theorem respond_known : respond s m { r with method := r.method.known } res = respond s m r res := by
  obtain ⟨method, e, he, id, slash, version, fields, body⟩ := r
  cases method <;> rfl

/-! ### What a request leaves alone -/

/-- **Frame.** What is kept under other names stays. -/
theorem alike_of_change (hc : Change s m r s' m') {x : Str} (hx : x ≠ r.entity) :
    Alike s m x s' m' x := by
  cases hc with
  | same => exact ⟨rfl, fun _ => rfl, rfl⟩
  | created hl hk =>
    refine ⟨by simp [Store.put, hx], fun j => by simp [Store.put, hx], ?_⟩
    rw [lookup_insert, if_neg hx]
    split_ifs
    · rfl
    · rw [lookup_insertKey, if_neg hx]
  | named hk => exact ⟨rfl, fun _ => rfl, by rw [lookup_eraseIfExist, if_neg hx]⟩
  | missing hc => exact ⟨rfl, fun _ => rfl, by rw [lookup_eraseIfExist, if_neg hx]⟩
  | found hc => exact ⟨rfl, fun _ => rfl, by rw [lookup_insertIfNotexist, if_neg hx]⟩
  | stored k =>
    refine ⟨by simp [Store.put, hx], fun j => by simp [Store.put, hx], ?_⟩
    rw [lookup_insertIfNotexist, if_neg hx]
  | deleted hc =>
    refine ⟨rfl, fun j => by simp [Store.drop, hx], ?_⟩
    rw [lookup_eraseIfExist, if_neg hx]

/-- The request looks at what is kept under its name, or changes it. -/
def UsesName (r : ObjectRequest) : Prop :=
  r.method = .post ∧ r.id = none ∨ r.method = .get ∨ (r.method = .put ∨ r.method = .delete) ∧ r.id ≠ none

instance (r : ObjectRequest) : Decidable (UsesName r) :=
  have : Decidable (r.id = none) := decidable_of_iff (r.id.isNone = true) Option.isNone_iff_eq_none
  by unfold UsesName; infer_instance

/-- Any other request is refused, whatever is kept. -/
theorem respond_of_not_usesName (h : ¬ UsesName r) (res : Response) :
    ∃ o, ∀ s m, respond s m r res = .ok (o, s, m) := by
  obtain ⟨method, e, he, id, slash, version, fields, body⟩ := r
  unfold UsesName at h
  cases method <;> cases id <;> first | exact ⟨_, fun _ _ => rfl⟩ | simp at h

end Step

/-! ### On the tree -/

/-- **A fault of the step** is one of the handler: the search of a `POST` for a number. -/
theorem run_respond_error {h : RequestHandlerAPI} {cwd B : Loc Str} {loc : Str} {w : World Tree}
    {s : Store} {r : ObjectRequest} {res : Response} {f : Fault} (hp : h.prefixLength = loc.length)
    (hb : TakesNames h.basePath) (hd : OnDisk h.basePath cwd B w.disk s)
    (hr : respond s w.entityIdMap r res = .error f) :
    ∃ w', (h.getResponse (realFileSystem cwd) (r.toRequest loc) res).run w = .error f w' := by
  rw [run_toRequest hp]
  obtain ⟨method, e, he, id, slash, version, fields, body⟩ := r
  unfold respond at hr
  split at hr
  · next hm hid =>
    obtain rfl : method = .post := hm
    obtain rfl : id = none := hid
    obtain ⟨t, hmade, -, -⟩ :=
      exists_madeEntity hd he (u := ⟨true, entityPath h.basePath e, nameId e, e⟩) rfl rfl
    simp only [serve, ObjectRequest.toRequest, run_create, parsedObject]
    rw [(named_entity hb he).2.2, if_pos rfl, hmade]
    cases hnext : getNextId (if s.made e then w.entityIdMap else insertKey w.entityIdMap e) e with
    | ok q => simp [hnext] at hr
    | error f' =>
      simp only [hnext, Except.error.injEq] at hr
      subst hr
      simp only [hnext]
      exact ⟨_, rfl⟩
  · cases hr
  · split_ifs at hr
  · split at hr <;> cases hr
  · cases hr
  · cases hr
  · cases hr
  · split at hr <;> cases hr
  all_goals cases hr

end Kachow.Api.Frame
