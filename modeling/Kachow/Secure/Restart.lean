import Kachow.Api.Factory
import Kachow.Secure.Interference

/-! # A restart of a location with users

The factory of a location with users rebuilds the map of identifiers with the scan of the plain API, on the
data path. There it finds the two directories `priv` and `pub`, and no entity: so after a restart the map
has these two names as its keys, and nothing for what the users have stored (`Kept.restart`).

A `POST` for an entity that is there looks for its set without checking that there is one. Which of them
find none is told by the requests alone: those for an entity that was made before the last restart, as
long as no request since then has put its key into the map again (`post_misses_key_iff`). Where it does
find a set, this has only the numbers of the requests since then, so that the number a `POST` takes from it may be that
of an object (`post_after_restart`). -/

namespace Kachow.Secure.Restart

open Kachow.Lib.Text Kachow.Lib.Decimal Kachow.Lib.Sets Kachow.Lib.Files Kachow.Lib.Runs Kachow.Boost.Paths
open Kachow.Http.Messages Kachow.Disk
open Kachow.Api.Ids Kachow.Api.Handler Kachow.Api.Objects Kachow.Api.StoreStep Kachow.Api.Factory
open Kachow.Api.Frame
open Kachow.Secure.Handler Kachow.Secure.Stores Kachow.Secure.Interference

variable {authorizer : Auth} {loc : Str}

/-! ### Runs with restarts -/

/-- What happens to the location. -/
inductive Doing (authorizer : Auth) (loc : Str) where
  | request (i : SecureRequest authorizer loc × Response)
  | restart

/-- The answer to a request; a restart builds the factory, with a map of its own, on the tree it finds. -/
def live (it : DirectoryIterator) (dataPath : Str) (cwd : Loc Str) :
    Doing authorizer loc → EStateM Fault (World Tree) (Option (Bool × Response))
  | .request i => do
    let o ← serveVault dataPath authorizer cwd loc i
    pure (some o)
  | .restart => do
    modify fun w => ⟨w.disk, ∅⟩
    let _ ← scanFS it cwd ⟨dataPath⟩
    pure none

/-- A request that makes the entity `x` in the area `a`, if it is answered. -/
def Makes (i : SecureRequest authorizer loc) (a : Area) (x : Str) : Prop :=
  ∃ r, i.inner = some (a, r) ∧ r.entity = x ∧
    (r.method = .post ∧ r.id = none ∨ r.method = .put ∧ r.id ≠ none)

/-- A request that puts the key `x` into the map, if it is answered with `o`. -/
def Names (i : SecureRequest authorizer loc) (o : Bool × Response) (x : Str) : Prop :=
  ∃ a r, i.inner = some (a, r) ∧ r.entity = x ∧
    (r.method = .post ∧ r.id = none ∨ r.method = .put ∧ r.id ≠ none ∨
      r.method = .get ∧ r.id ≠ none ∧ o.2.status = 200)

/-- What the map learns from a request for its entity that is answered with this status. -/
def learned (r : ObjectRequest) (status : ℕ) (IDs : IdSet) : IdSet :=
  match r.method, r.id with
  | .post, none => (nextFree IDs).elim IDs IDs.insert
  | .get, none => if nameId r.entity = 0 then IDs else IDs.erase (nameId r.entity)
  | .get, some k => if status = 200 then IDs.insert k.number else IDs.erase k.number
  | .put, some k => IDs.insert k.number
  | .delete, some k => if status = 200 then IDs.erase k.number else IDs
  | _, _ => IDs

/-- What it learns of the numbers of `x` from a request of any sender. -/
def learn (x : Str) (IDs : IdSet) (y : (SecureRequest authorizer loc × Response) × (Bool × Response)) :
    IdSet :=
  match y.1.1.inner with
  | some (_, r) => if r.entity = x then learned r y.2.2.status IDs else IDs
  | none => IDs

/-! ### One step -/

section Respond
variable {s s' : Store} {m m' : EntityIdMap} {r : ObjectRequest} {res : Response} {o : Bool × Response}

/-- What a `POST` that is answered does: the number is the least free one. -/
theorem respond_post (hm : r.method = .post) (hid : r.id = none)
    (hr : respond s m r res = .ok (o, s', m')) :
    ∃ k : ObjectId, nextFree ((m.lookup r.entity).getD ∅) = some k.number ∧
      o = (true, setCreated res k.number) ∧ s' = s.put r.entity k r.body ∧
      m' = (if s.made r.entity then m else insertKey m r.entity).insert r.entity
        (((m.lookup r.entity).getD ∅).insert k.number) := by
  unfold respond at hr
  simp only [hm, hid] at hr
  split at hr
  · next id m₁ hnext =>
    obtain ⟨rfl, rfl, rfl⟩ := Except.ok.inj hr
    obtain ⟨IDs, hl, hfree, rfl⟩ := getNextId_ok hnext
    obtain ⟨h1, h2, -, -⟩ := nextFree_eq_some.mp hfree
    have hIDs : (m.lookup r.entity).getD ∅ = IDs := by
      split_ifs at hl
      · rw [hl]
        rfl
      · rw [lookup_insertKey, if_pos rfl] at hl
        exact Option.some.inj hl
    rw [Store.write, dif_pos ⟨h1, h2⟩, Store.make_put, hIDs]
    exact ⟨⟨id, h1, h2⟩, hfree, rfl, rfl, rfl⟩
  · cases hr

/-- What a request that is answered with this status leaves of the entities, the keys and the numbers of
its entity. -/
structure Records (s s' : Store) (m m' : EntityIdMap) (r : ObjectRequest) (status : ℕ) : Prop where
  made : ∀ x, s'.made x = true ↔ s.made x = true ∨
    x = r.entity ∧ (r.method = .post ∧ r.id = none ∨ r.method = .put ∧ r.id ≠ none)
  keys : ∀ x, m'.lookup x ≠ none ↔ m.lookup x ≠ none ∨
    x = r.entity ∧ (r.method = .post ∧ r.id = none ∨ r.method = .put ∧ r.id ≠ none ∨
      r.method = .get ∧ r.id ≠ none ∧ status = 200)
  numbers : (m'.lookup r.entity).getD ∅ = learned r status ((m.lookup r.entity).getD ∅)

theorem made_put (e : Str) (k : ObjectId) (b x : Str) :
    (s.put e k b).made x = true ↔ s.made x = true ∨ x = e := by
  simp [Store.put, or_comm]

theorem numbers_erase (m : EntityIdMap) (e : Str) (k : ℤ) :
    ((eraseIfExist m e k).lookup e).getD ∅ = ((m.lookup e).getD ∅).erase k := by
  rw [lookup_eraseIfExist, if_pos rfl]
  cases m.lookup e <;> rfl

theorem numbers_insert (m : EntityIdMap) (e : Str) (k : ℤ) :
    ((insertIfNotexist m e k).lookup e).getD ∅ = ((m.lookup e).getD ∅).insert k := by
  rw [lookup_insertIfNotexist, if_pos rfl]
  rfl

/-- A `POST` without a number makes its entity, with its key. -/
theorem records_post (hm : r.method = .post) (hid : r.id = none)
    (hr : respond s m r res = .ok (o, s', m')) : Records s s' m m' r o.2.status := by
  obtain ⟨k, hfree, -, rfl, rfl⟩ := respond_post hm hid hr
  refine ⟨fun x => by simp [made_put, hm, hid], fun x => ?_, ?_⟩
  · rw [Ne, lookup_insert_eq_none]
    split_ifs
    · tauto
    · rw [lookup_insertKey_eq_none]
      tauto
  · rw [lookup_insert, if_pos rfl]
    unfold learned
    simp only [hm, hid, hfree]
    rfl

/-- A `GET` of an object puts its number into the map where the file is there, and takes it out where it is
not. An entity whose name is taken for a number is asked for as an object. -/
theorem records_get (hm : r.method = .get) (hr : respond s m r res = .ok (o, s', m')) :
    Records s s' m m' r o.2.status := by
  obtain ⟨method, e, he, id, slash, version, fields, body⟩ := r
  obtain rfl : method = .get := hm
  unfold respond at hr
  cases id with
  | none =>
    simp only at hr
    split_ifs at hr with hn
    · obtain ⟨rfl, rfl, rfl⟩ := Except.ok.inj hr
      exact ⟨by simp, by simp, by simp [learned, hn]⟩
    · obtain ⟨rfl, rfl, rfl⟩ := Except.ok.inj hr
      exact ⟨by simp, by simp, by simp [learned, hn]⟩
    · obtain ⟨rfl, rfl, rfl⟩ := Except.ok.inj hr
      refine ⟨by simp, fun x => by simp [-lookup_eraseIfExist, lookup_eraseIfExist_eq_none], ?_⟩
      simp only [learned, if_neg hn]
      exact numbers_erase m e _
  | some k =>
    simp only at hr
    split at hr
    · next b hb =>
      obtain ⟨rfl, rfl, rfl⟩ := Except.ok.inj hr
      have hstatus : (res.fill 200 objectType b).status = 200 := rfl
      refine ⟨by simp, fun x => ?_, numbers_insert m e k.number⟩
      rw [Ne, lookup_insertIfNotexist_eq_none]
      simp only [hstatus]
      tauto
    · obtain ⟨rfl, rfl, rfl⟩ := Except.ok.inj hr
      have hstatus : (setNotfoundRequest res).status = 404 := rfl
      refine ⟨by simp, fun x => ?_, numbers_erase m e k.number⟩
      simp [-lookup_eraseIfExist, lookup_eraseIfExist_eq_none, hstatus]

/-- A `PUT` of an object makes its entity, with its key. -/
theorem records_put (hm : r.method = .put) (hr : respond s m r res = .ok (o, s', m')) :
    Records s s' m m' r o.2.status := by
  obtain ⟨method, e, he, id, slash, version, fields, body⟩ := r
  obtain rfl : method = .put := hm
  unfold respond at hr
  cases id with
  | none =>
    obtain ⟨rfl, rfl, rfl⟩ := Except.ok.inj hr
    exact ⟨by simp, by simp, rfl⟩
  | some k =>
    obtain ⟨rfl, rfl, rfl⟩ := Except.ok.inj hr
    refine ⟨by simp [made_put], fun x => ?_, numbers_insert m e k.number⟩
    rw [Ne, lookup_insertIfNotexist_eq_none]
    simp
    tauto

/-- A `DELETE` takes a number out of the map, with its file. -/
theorem records_delete (hm : r.method = .delete) (hr : respond s m r res = .ok (o, s', m')) :
    Records s s' m m' r o.2.status := by
  obtain ⟨method, e, he, id, slash, version, fields, body⟩ := r
  obtain rfl : method = .delete := hm
  unfold respond at hr
  cases id with
  | none =>
    obtain ⟨rfl, rfl, rfl⟩ := Except.ok.inj hr
    exact ⟨by simp, by simp, rfl⟩
  | some k =>
    simp only at hr
    split at hr
    · obtain ⟨rfl, rfl, rfl⟩ := Except.ok.inj hr
      refine ⟨by simp [Store.drop], fun x => ?_, numbers_erase m e k.number⟩
      simp [-lookup_eraseIfExist, lookup_eraseIfExist_eq_none]
    · obtain ⟨rfl, rfl, rfl⟩ := Except.ok.inj hr
      exact ⟨by simp, by simp, rfl⟩

/-- **The effect of a request** that is answered. -/
theorem records_respond (hr : respond s m r res = .ok (o, s', m')) : Records s s' m m' r o.2.status := by
  cases hm : r.method with
  | post =>
    cases hid : r.id with
    | none => exact records_post hm hid hr
    | some k =>
      simp only [respond, hm, hid] at hr
      obtain ⟨rfl, rfl, rfl⟩ := Except.ok.inj hr
      exact ⟨by simp [hm, hid], by simp [hm, hid], by simp [learned, hm, hid]⟩
  | get => exact records_get hm hr
  | put => exact records_put hm hr
  | delete => exact records_delete hm hr
  | _ =>
    -- the other requests change nothing
    simp only [respond, hm] at hr
    obtain ⟨rfl, rfl, rfl⟩ := Except.ok.inj hr
    exact ⟨by simp [hm], by simp [hm], by simp [learned, hm]⟩

end Respond

section Step
variable {v v' : Vault} {i : SecureRequest authorizer loc} {res : Response} {o : Bool × Response}

/-- **One request** makes the entity it is for, and puts its key into the map, or does neither. -/
theorem names_step (h : vaultStep v i res = .ok (o, v')) :
    (∀ a x, (v'.store a).made x = true ↔ (v.store a).made x = true ∨ Makes i a x) ∧
    ∀ x, v'.ids.lookup x ≠ none ↔ v.ids.lookup x ≠ none ∨ Names i o x := by
  rcases vaultStep_ok h with ⟨hi, -, rfl⟩ | ⟨a, r, s, m, hi, hr, rfl⟩
  · refine ⟨fun a x => ⟨Or.inl, ?_⟩, fun x => ⟨Or.inl, ?_⟩⟩
    · rintro (hm | ⟨r, hr, -⟩)
      · exact hm
      · rw [hi] at hr
        cases hr
    · rintro (hk | ⟨a, r, hr, -⟩)
      · exact hk
      · rw [hi] at hr
        cases hr
  · obtain ⟨hmade, hkeys, -⟩ := records_respond hr
    refine ⟨fun b x => ?_, fun x => ?_⟩
    · unfold Makes
      by_cases hb : b = a
      · subst hb
        simp only [Vault.set, if_true, hmade x, hi, Option.some.injEq, Prod.mk.injEq, true_and,
          exists_eq_left', eq_comm]
      · have hother : ∀ r', i.inner ≠ some (b, r') := by
          intro r' hr'
          rw [hi] at hr'
          exact hb (Prod.mk.inj (Option.some.inj hr')).1.symm
        simp [Vault.set, hb, hother]
    · unfold Names
      simp only [Vault.set, hkeys x, hi, Option.some.injEq, Prod.mk.injEq]
      constructor
      · rintro (hk | ⟨rfl, hcase⟩)
        · exact Or.inl hk
        · exact Or.inr ⟨a, r, ⟨rfl, rfl⟩, rfl, hcase⟩
      · rintro (hk | ⟨_, _, ⟨rfl, rfl⟩, rfl, hcase⟩)
        · exact Or.inl hk
        · exact Or.inr ⟨rfl, hcase⟩

/-- **One request** teaches the map what its answer says. -/
theorem learn_step (h : vaultStep v i res = .ok (o, v')) (x : Str) :
    (v'.ids.lookup x).getD ∅ = learn x ((v.ids.lookup x).getD ∅) ((i, res), o) := by
  unfold learn
  rcases vaultStep_ok h with ⟨hi, -, rfl⟩ | ⟨a, r, s, m, hi, hr, rfl⟩
  · simp only [hi]
  · simp only [hi, Vault.set]
    split_ifs with hx
    · subst hx
      exact (records_respond hr).numbers
    · rw [(alike_of_change (change_respond hr) (Ne.symm hx)).lookup]

/-- What makes an entity puts its key into the map. -/
theorem names_of_makes {a : Area} {x : Str} (h : Makes i a x) (o : Bool × Response) : Names i o x := by
  obtain ⟨r, hi, hx, hpost | hput⟩ := h
  · exact ⟨a, r, hi, hx, Or.inl hpost⟩
  · exact ⟨a, r, hi, hx, Or.inr (Or.inl hput)⟩

/-- A `POST` that is answered takes the least free number, and stores the object under it. -/
theorem post_step {a : Area} {r : ObjectRequest} (hi : i.inner = some (a, r)) (hm : r.method = .post)
    (hid : r.id = none) (h : vaultStep v i res = .ok (o, v')) :
    ∃ k : ObjectId, nextFree ((v.ids.lookup r.entity).getD ∅) = some k.number ∧
      o = (true, setCreated res k.number) ∧ (v'.store a).content r.entity k.number = some r.body := by
  rcases vaultStep_ok h with ⟨hnone, -⟩ | ⟨b, r', s, m, hi', hr, rfl⟩
  · rw [hi] at hnone
    cases hnone
  · rw [hi] at hi'
    cases hi'
    obtain ⟨k, hfree, rfl, rfl, -⟩ := respond_post hm hid hr
    exact ⟨k, hfree, rfl, by simp [Vault.set, Store.put]⟩

/-- A `POST` misses its key if and only if the entity is there and its key is not. -/
theorem vaultStep_misses {a : Area} {r : ObjectRequest} (hi : i.inner = some (a, r)) (hm : r.method = .post)
    (hid : r.id = none) : vaultStep v i res = .error .endDereference ↔
      (v.store a).made r.entity = true ∧ v.ids.lookup r.entity = none := by
  have hnext : ∀ m : EntityIdMap, getNextId m r.entity = .error .endDereference ↔
      m.lookup r.entity = none := by
    intro m
    unfold getNextId
    cases hl : m.lookup r.entity with
    | none => simp
    | some IDs => cases hn : nextFree IDs <;> simp [hn]
  have hkey : (if (v.store a).made r.entity then v.ids else insertKey v.ids r.entity).lookup r.entity =
      none ↔ (v.store a).made r.entity = true ∧ v.ids.lookup r.entity = none := by
    split_ifs with hmade
    · simp [hmade]
    · simp [hmade]
  rw [← hkey, ← hnext]
  unfold vaultStep respond
  simp only [hi, hm, hid]
  cases getNextId (if (v.store a).made r.entity then v.ids else insertKey v.ids r.entity) r.entity with
  | ok x => simp
  | error f => simp

end Step

/-! ### On the tree -/

section Tree
variable {it : DirectoryIterator} {dataPath : Str} {cwd D : Loc Str} {w w' : World Tree} {v : Vault}

/-- The tree holds the vault, whatever keys the map has. There is nothing else in the directory, and once
something is stored both directories are there. -/
structure Kept (dataPath : Str) (cwd D : Loc Str) (w : World Tree) (v : Vault) : Prop where
  onTree : OnTree dataPath cwd D w v
  only : ∀ x l, w.disk.node (D ++ x :: l) ≠ none → ∃ a : Area, x = a.name
  both : ∀ a x, (v.store a).made x = true → ∀ b : Area, w.disk.isDir (D ++ [b.name]) = true

theorem kept_fresh (h : FreshVault dataPath cwd D w) : Kept dataPath cwd D w Vault.empty where
  onTree := h.holds.onTree
  only x l hx := by
    obtain ⟨-, a, ha, -⟩ := h.areas x l hx
    exact ⟨a, ha⟩
  both a x hx := by simp [Vault.empty, Store.empty] at hx

/-- What a request may change lies in one of the areas. -/
theorem area_of_inVault {x : Str} {l : Loc Str} (h : InVault D (D ++ x :: l)) : ∃ a : Area, x = a.name := by
  obtain ⟨a, h | ⟨e, h | ⟨k, h⟩⟩⟩ := h
  · exact ⟨a, (List.cons.inj (List.append_cancel_left h)).1⟩
  · rw [List.append_assoc] at h
    exact ⟨a, (List.cons.inj (List.append_cancel_left h)).1⟩
  · rw [List.append_assoc, List.append_assoc] at h
    exact ⟨a, (List.cons.inj (List.append_cancel_left h)).1⟩

/-- **A request** that is answered is a step of the vault. -/
theorem Kept.request (hdp : dataPath ≠ ['/']) (h : Kept dataPath cwd D w v)
    {i : SecureRequest authorizer loc × Response} {o : Bool × Response}
    (hrun : (serveVault dataPath authorizer cwd loc i).run w = .ok o w') :
    ∃ v', vaultStep v i.1 i.2 = .ok (o, v') ∧ Kept dataPath cwd D w' v' := by
  cases hstep : vaultStep v i.1 i.2 with
  | error f =>
    obtain ⟨w₂, hfail⟩ := run_onTree_error hdp h.onTree i hstep
    rw [hrun] at hfail
    cases hfail
  | ok x =>
    obtain ⟨p, v'⟩ := x
    obtain ⟨w₂, hrun', hv, hdirs, hnode⟩ := run_onTree hdp h.onTree i hstep
    rw [hrun] at hrun'
    cases hrun'
    refine ⟨v', rfl, hv, fun x l hx => ?_, fun _ _ _ => hdirs⟩
    rcases hnode (D ++ x :: l) with hsame | hin
    · rw [hsame] at hx
      exact h.only x l hx
    · exact area_of_inVault hin

/-- In the directory of an area there are directories only. -/
theorem Kept.isFile_area (h : Kept dataPath cwd D w v) (a : Area) (x : Str) :
    w.disk.isFile (D ++ [a.name] ++ [x]) = false := by
  unfold FileTree.isFile
  rcases h.onTree.area a with hd | ⟨hn, -⟩
  · rw [hd.entity]
    cases (v.store a).made x <;> rfl
  · rw [FileTree.node_append_eq_none hn [x]]

/-- The scan reads the directory of the data path. -/
theorem Kept.run_restart (h : Kept dataPath cwd D w v) :
    (live it dataPath cwd (.restart : Doing authorizer loc)).run w =
      .ok none ⟨w.disk, scan it w.disk D ∅⟩ := by
  have hscan : (scanFS it cwd ⟨dataPath⟩).run ⟨w.disk, ∅⟩ = .ok true ⟨w.disk, scan it w.disk D ∅⟩ :=
    @run_scanFS it cwd D ⟨dataPath⟩ ⟨w.disk, ∅⟩ h.onTree.base h.onTree.dir
  unfold live
  simp only [EStateM.run_bind, EStateM.run_modify, hscan, EStateM.run_pure]

/-- **A restart** leaves the tree as it is, and keys for the two directories only, without any number. -/
theorem Kept.restart (h : Kept dataPath cwd D w v) {o : Option (Bool × Response)}
    (hrun : (live it dataPath cwd (.restart : Doing authorizer loc)).run w = .ok o w') :
    Kept dataPath cwd D w' ⟨v.store, w'.entityIdMap⟩ ∧
      (∀ x, w'.entityIdMap.lookup x ≠ none ↔
        ∃ a : Area, x = a.name ∧ w.disk.isDir (D ++ [a.name]) = true) ∧
      ∀ x, (w'.entityIdMap.lookup x).getD ∅ = ∅ := by
  rw [h.run_restart] at hrun
  cases hrun
  have harea : ∀ x, w.disk.isDir (D ++ [x]) = true → ∃ a : Area, x = a.name := fun x hdir =>
    h.only x [] (by rw [FileTree.isDir_iff.mp hdir]; simp)
  refine ⟨⟨⟨h.onTree.base, h.onTree.dir, h.onTree.area, rfl⟩, h.only, h.both⟩, fun x => ?_, fun x => ?_⟩
  · simp only [lookup_scan]
    constructor
    · intro hx
      have hdir : w.disk.isDir (D ++ [x]) = true := by
        by_contra hc
        exact hx (if_neg hc)
      obtain ⟨a, rfl⟩ := harea x hdir
      exact ⟨a, rfl, hdir⟩
    · rintro ⟨a, rfl, hdir⟩
      rw [if_pos hdir]
      simp
  · simp only [lookup_scan]
    split_ifs with hdir
    · obtain ⟨a, rfl⟩ := harea x hdir
      refine SortedSet.ext fun k => iff_of_false ?_ (SortedSet.notMem_empty k)
      rw [Option.getD_some, mem_currIDs]
      rintro ⟨y, hf, -⟩
      rw [h.isFile_area a y] at hf
      cases hf
    · rfl

/-! ### Runs -/

/-- Along a run of requests every key goes back to one that was there or to a request that put it there, so
does every entity, and the numbers are what the map has learned. -/
theorem Kept.requests (hdp : dataPath ≠ ['/']) :
    ∀ {js : List (SecureRequest authorizer loc × Response)} {w w' : World Tree} {v : Vault}
      {qs : List (Bool × Response)}, Kept dataPath cwd D w v →
      (runAll (serveVault dataPath authorizer cwd loc) js).run w = .ok qs w' →
      ∃ v', Kept dataPath cwd D w' v' ∧
        (∀ a x, (v'.store a).made x = true ↔ (v.store a).made x = true ∨ ∃ j ∈ js, Makes j.1 a x) ∧
        (∀ x, v'.ids.lookup x ≠ none ↔ v.ids.lookup x ≠ none ∨ ∃ y ∈ js.zip qs, Names y.1.1 y.2 x) ∧
        ∀ x, (v'.ids.lookup x).getD ∅ = (js.zip qs).foldl (learn x) ((v.ids.lookup x).getD ∅)
  | [], w, w', v, qs, h, hrun => by
    rw [runAll_nil] at hrun
    cases hrun
    exact ⟨v, h, by simp, by simp, fun _ => rfl⟩
  | j :: js, w, w', v, qs, h, hrun => by
    obtain ⟨o, w₁, qs', h1, h2, rfl⟩ := runAll_cons_ok hrun
    obtain ⟨v₁, hstep, hkept⟩ := h.request hdp h1
    obtain ⟨v', hkept', hmade, hkeys, hlearned⟩ := hkept.requests hdp h2
    obtain ⟨hmade₁, hkeys₁⟩ := names_step hstep
    refine ⟨v', hkept', fun a x => ?_, fun x => ?_, fun x => ?_⟩
    · rw [hmade, hmade₁, List.exists_mem_cons_iff, or_assoc]
    · rw [hkeys, hkeys₁, List.zip_cons_cons, List.exists_mem_cons_iff, or_assoc]
    · rw [hlearned, learn_step hstep, List.zip_cons_cons, List.foldl_cons]

/-- Along a run with restarts the entities are those of the requests. -/
theorem Kept.doings (hdp : dataPath ≠ ['/']) :
    ∀ {ds : List (Doing authorizer loc)} {w w' : World Tree} {v : Vault}
      {os : List (Option (Bool × Response))}, Kept dataPath cwd D w v →
      (runAll (live it dataPath cwd) ds).run w = .ok os w' →
      ∃ v', Kept dataPath cwd D w' v' ∧ ∀ a x, (v'.store a).made x = true ↔
        (v.store a).made x = true ∨ ∃ i, Doing.request i ∈ ds ∧ Makes i.1 a x
  | [], w, w', v, os, h, hrun => by
    rw [runAll_nil] at hrun
    cases hrun
    exact ⟨v, h, by simp⟩
  | .request i :: ds, w, w', v, os, h, hrun => by
    obtain ⟨o, w₁, os', h1, h2, rfl⟩ := runAll_cons_ok hrun
    obtain ⟨q, w₂, hserve, hpure⟩ := run_bind_ok h1
    cases hpure
    obtain ⟨v₁, hstep, hkept⟩ := h.request hdp hserve
    obtain ⟨v', hkept', hmade⟩ := hkept.doings hdp h2
    refine ⟨v', hkept', fun a x => ?_⟩
    rw [hmade, (names_step hstep).1, or_assoc]
    refine or_congr_right ⟨?_, ?_⟩
    · rintro (hi | ⟨j, hj, hm⟩)
      · exact ⟨i, List.mem_cons_self, hi⟩
      · exact ⟨j, List.mem_cons_of_mem _ hj, hm⟩
    · rintro ⟨j, hj, hm⟩
      rcases List.mem_cons.mp hj with heq | hj
      · cases heq
        exact Or.inl hm
      · exact Or.inr ⟨j, hj, hm⟩
  | .restart :: ds, w, w', v, os, h, hrun => by
    obtain ⟨o, w₁, os', h1, h2, rfl⟩ := runAll_cons_ok hrun
    obtain ⟨hkept, -⟩ := h.restart h1
    obtain ⟨v', hkept', hmade⟩ := hkept.doings hdp h2
    refine ⟨v', hkept', fun a x => ?_⟩
    rw [hmade]
    simp

/-- A fault of a request is one of the step. -/
theorem Kept.error_iff (hdp : dataPath ≠ ['/']) (h : Kept dataPath cwd D w v)
    {i : SecureRequest authorizer loc × Response} {f : Fault} :
    (∃ w', (serveVault dataPath authorizer cwd loc i).run w = .error f w') ↔
      vaultStep v i.1 i.2 = .error f := by
  refine ⟨?_, run_onTree_error hdp h.onTree i⟩
  rintro ⟨w', hrun⟩
  cases hstep : vaultStep v i.1 i.2 with
  | ok x =>
    obtain ⟨w₂, hok, -⟩ := run_onTree hdp h.onTree i hstep
    rw [hrun] at hok
    cases hok
  | error f' =>
    obtain ⟨w₂, hfail⟩ := run_onTree_error hdp h.onTree i hstep
    rw [hrun] at hfail
    cases hfail
    rfl

/-- **Which `POST` misses its key.** A location with users starts on a directory with nothing in it, and
has been through any run of requests and restarts, a last restart, and further requests. A `POST`
dereferences `end()` if and only if its entity was made before the last restart, is not called like one of
the two directories, and no answered request since has put its key into the map: no other `POST`, no `PUT` of
an object and no `GET` that has found one. -/
theorem post_misses_key_iff (hdp : dataPath ≠ ['/']) (hfresh : FreshVault dataPath cwd D w)
    {ds : List (Doing authorizer loc)} {os : List (Option (Bool × Response))} {w₁ w₂ w₃ : World Tree}
    {o : Option (Bool × Response)} (hds : (runAll (live it dataPath cwd) ds).run w = .ok os w₁)
    (hrestart : (live it dataPath cwd (.restart : Doing authorizer loc)).run w₁ = .ok o w₂)
    {js : List (SecureRequest authorizer loc × Response)} {qs : List (Bool × Response)}
    (hjs : (runAll (serveVault dataPath authorizer cwd loc) js).run w₂ = .ok qs w₃)
    {i : SecureRequest authorizer loc × Response} {a : Area} {r : ObjectRequest}
    (hi : i.1.inner = some (a, r)) (hm : r.method = .post) (hid : r.id = none) :
    (∃ w₄, (serveVault dataPath authorizer cwd loc i).run w₃ = .error .endDereference w₄) ↔
      (∃ j, Doing.request j ∈ ds ∧ Makes j.1 a r.entity) ∧ (∀ b : Area, r.entity ≠ b.name) ∧
        ∀ y ∈ js.zip qs, ¬ Names y.1.1 y.2 r.entity := by
  obtain ⟨v₁, hkept₁, hmade₁⟩ := (kept_fresh hfresh).doings hdp hds
  obtain ⟨hkept₂, hkeys₂, -⟩ := hkept₁.restart hrestart
  obtain ⟨v₃, hkept₃, hmade₃, hkeys₃, -⟩ := hkept₂.requests hdp hjs
  have hbefore : (v₁.store a).made r.entity = true ↔ ∃ j, Doing.request j ∈ ds ∧ Makes j.1 a r.entity := by
    rw [hmade₁]
    simp [Vault.empty, Store.empty]
  -- a request since then that has made the entity has put its key into the map
  have hsince : (∃ j ∈ js, Makes j.1 a r.entity) → ∃ y ∈ js.zip qs, Names y.1.1 y.2 r.entity := by
    rintro ⟨j, hj, hmakes⟩
    obtain ⟨n, hn, rfl⟩ := List.getElem_of_mem hj
    have hq : n < qs.length := by rw [length_of_runAll hjs]; exact hn
    have hy : n < (js.zip qs).length := by rw [List.length_zip]; omega
    refine ⟨(js[n], qs[n]), ?_, names_of_makes hmakes _⟩
    rw [← List.getElem_zip (h := hy)]
    exact List.getElem_mem hy
  have hkey : v₃.ids.lookup r.entity = none ↔
      (∀ b : Area, r.entity = b.name → ¬ w₁.disk.isDir (D ++ [b.name]) = true) ∧
        ∀ y ∈ js.zip qs, ¬ Names y.1.1 y.2 r.entity := by
    have hnone := not_congr ((hkeys₃ r.entity).trans (or_congr_left (hkeys₂ r.entity)))
    rw [not_not] at hnone
    simp only [hnone, not_or, not_exists, not_and]
  rw [hkept₃.error_iff hdp, vaultStep_misses hi hm hid, hmade₃, hkey, ← hbefore]
  constructor
  · rintro ⟨hmade | hmakes, hdirs, hno⟩
    · exact ⟨hmade, fun b hb => hdirs b hb (hkept₁.both a _ hmade b), hno⟩
    · obtain ⟨y, hy, hnames⟩ := hsince hmakes
      exact absurd hnames (hno y hy)
  · rintro ⟨hmade, hname, hno⟩
    exact ⟨Or.inl hmade, fun b hb => absurd hb (hname b), hno⟩

/-- **The number a `POST` takes.** After any run of requests and restarts, a last restart, and further
requests, a `POST` that is answered takes the least number the map has not learned from the requests since
then; and the file of this number has the new body, whatever has been stored there. -/
theorem post_after_restart (hdp : dataPath ≠ ['/']) (hfresh : FreshVault dataPath cwd D w)
    {ds : List (Doing authorizer loc)} {os : List (Option (Bool × Response))} {w₁ w₂ w₃ w₄ : World Tree}
    {o : Option (Bool × Response)} (hds : (runAll (live it dataPath cwd) ds).run w = .ok os w₁)
    (hrestart : (live it dataPath cwd (.restart : Doing authorizer loc)).run w₁ = .ok o w₂)
    {js : List (SecureRequest authorizer loc × Response)} {qs : List (Bool × Response)}
    (hjs : (runAll (serveVault dataPath authorizer cwd loc) js).run w₂ = .ok qs w₃)
    {i : SecureRequest authorizer loc × Response} {a : Area} {r : ObjectRequest} {p : Bool × Response}
    (hi : i.1.inner = some (a, r)) (hm : r.method = .post) (hid : r.id = none)
    (hrun : (serveVault dataPath authorizer cwd loc i).run w₃ = .ok p w₄) :
    ∃ k : ObjectId, k.number ∉ (js.zip qs).foldl (learn r.entity) ∅ ∧
      (∀ j, 1 ≤ j → j < k.number → j ∈ (js.zip qs).foldl (learn r.entity) ∅) ∧
      p = (true, setCreated i.2 k.number) ∧
      w₄.disk.node (D ++ [a.name] ++ [r.entity] ++ [intToString k.number]) = some (.file r.body) := by
  obtain ⟨v₁, hkept₁, -⟩ := (kept_fresh hfresh).doings hdp hds
  obtain ⟨hkept₂, -, hnone⟩ := hkept₁.restart hrestart
  obtain ⟨v₃, hkept₃, -, -, hlearned⟩ := hkept₂.requests hdp hjs
  obtain ⟨v₄, hstep, hkept₄⟩ := hkept₃.request hdp hrun
  have hIDs := hlearned r.entity
  simp only [hnone] at hIDs
  obtain ⟨k, hfree, hp, hcontent⟩ := post_step hi hm hid hstep
  obtain ⟨-, -, hnot, hall⟩ := nextFree_eq_some.mp hfree
  rw [hIDs] at hnot hall
  refine ⟨k, hnot, hall, hp, ?_⟩
  rcases hkept₄.onTree.area a with hd | ⟨-, hempty⟩
  · rw [hd.object _ _ k.pos k.le, hcontent]
    rfl
  · rw [hempty] at hcontent
    cases hcontent

end Tree

/-! ### A shoe of a public user -/

/-- A request of a public user for shoes. -/
def shoes (method : Verb) (id : Option ObjectId) : SecureRequest FakeAuth.getAuth "/api".toList × Response :=
  (⟨⟨method, "shoes".toList, isName_shoes, id, false, 11,
    [("Authorization".toList, "Bearer PUBAUTH1".toList)], "red".toList⟩, .publicUser,
    (principalOf_congr rfl).trans principal_pub1⟩, {})

/-- The location, on its directory. -/
def shoeLocation (i : SecureRequest FakeAuth.getAuth "/api".toList × Response) :
    EStateM Fault (World Tree) (Bool × Response) :=
  serveVault "data".toList FakeAuth.getAuth [] "/api".toList i

/-- The location with its restarts. -/
def shoeLife : Doing FakeAuth.getAuth "/api".toList → EStateM Fault (World Tree) (Option (Bool × Response)) :=
  live inOrder "data".toList []

theorem fresh_shoes : FreshVault "data".toList [] ["data".toList] ⟨withDir "data".toList, ∅⟩ :=
  freshVault_withDir (by decide) (by decide) (by decide)

theorem dataPath_ne : "data".toList ≠ ['/'] := by decide

/-- The first shoe. -/
def firstShoe : ObjectId := ⟨1, ObjectId.pos_one, ObjectId.one_le⟩

/-- A shoe is stored, and the server is started again. -/
theorem stored_restarted : ∃ q w₁ w₂ v, (runAll shoeLife [.request (shoes .put (some firstShoe))]).run
      ⟨withDir "data".toList, ∅⟩ = .ok [some q] w₁ ∧ (shoeLife .restart).run w₁ = .ok none w₂ ∧
    Kept "data".toList [] ["data".toList] w₂ v ∧ (v.ids.lookup "shoes".toList).getD ∅ = ∅ := by
  have hroom : Room ⟨withDir "data".toList, ∅⟩ (shoes .put (some firstShoe)) := by
    intro a r hi hm
    cases hi
    cases hm
  obtain ⟨q, v₁, hstep⟩ := exists_vaultStep fresh_shoes.holds hroom
  obtain ⟨w₁, hrun, -⟩ := run_onTree dataPath_ne fresh_shoes.holds.onTree _ hstep
  obtain ⟨v₁', -, hkept⟩ := (kept_fresh fresh_shoes).request dataPath_ne hrun
  have hlive : (runAll shoeLife [.request (shoes .put (some firstShoe))]).run
      ⟨withDir "data".toList, ∅⟩ = .ok [some q] w₁ := by
    unfold shoeLife
    simp only [runAll, live, EStateM.run_bind, hrun, EStateM.run_pure]
  have hrestart : (shoeLife .restart).run w₁ = .ok none _ := hkept.run_restart
  obtain ⟨hkept', -, hnone⟩ := hkept.restart hrestart
  exact ⟨q, w₁, _, _, hlive, hrestart, hkept', hnone _⟩

/-- The next `POST` for shoes dereferences `end()`. -/
theorem post_misses_key_shoes : ∃ q w₁ w₂ w₄,
    (runAll shoeLife [.request (shoes .put (some firstShoe))]).run ⟨withDir "data".toList, ∅⟩ =
      .ok [some q] w₁ ∧ (shoeLife .restart).run w₁ = .ok none w₂ ∧
    (shoeLocation (shoes .post none)).run w₂ = .error .endDereference w₄ := by
  obtain ⟨q, w₁, w₂, v, hds, hrestart, -, -⟩ := stored_restarted
  have hmakes : Makes (shoes .put (some firstShoe)).1 .pub "shoes".toList :=
    ⟨_, rfl, rfl, Or.inr ⟨rfl, by simp [shoes]⟩⟩
  have hname : ∀ b : Area, "shoes".toList ≠ b.name := by
    intro b
    cases b <;> decide
  obtain ⟨w₄, hfail⟩ := (post_misses_key_iff dataPath_ne fresh_shoes hds hrestart
    (runAll_nil _ w₂) (i := shoes .post none) rfl rfl rfl).mpr
      ⟨⟨_, List.mem_singleton_self _, hmakes⟩, hname, by simp⟩
  exact ⟨q, w₁, w₂, w₄, hds, hrestart, hfail⟩

theorem two_le : 2 ≤ intMax := by decide

theorem one_le_two : (1 : ℤ) ≤ 2 := by norm_num

/-- The second shoe. -/
def secondShoe : ObjectId := ⟨2, one_le_two, two_le⟩

/-- A second shoe is stored after the restart. The next `POST` takes the number of the first one. -/
theorem post_after_restart_shoes : ∃ q w₁ w₂ q' w₃ p w₄,
    (runAll shoeLife [.request (shoes .put (some firstShoe))]).run ⟨withDir "data".toList, ∅⟩ =
      .ok [some q] w₁ ∧ (shoeLife .restart).run w₁ = .ok none w₂ ∧
    (runAll shoeLocation [shoes .put (some secondShoe)]).run w₂ = .ok [q'] w₃ ∧
    (shoeLocation (shoes .post none)).run w₃ = .ok p w₄ ∧ p = (true, setCreated {} 1) := by
  obtain ⟨q, w₁, w₂, v₂, hds, hrestart, hkept₂, hnone⟩ := stored_restarted
  have hput : vaultStep v₂ (shoes .put (some secondShoe)).1 {} = .ok ((true, setOk {}),
      v₂.set .pub ((v₂.store .pub).put "shoes".toList secondShoe "red".toList)
        (insertIfNotexist v₂.ids "shoes".toList 2)) := rfl
  obtain ⟨w₃, hrun₃, hv₃, -⟩ := run_onTree dataPath_ne hkept₂.onTree (shoes .put (some secondShoe)) hput
  have hjs : (runAll shoeLocation [shoes .put (some secondShoe)]).run w₂ = .ok [(true, setOk {})] w₃ :=
    runAll_cons hrun₃ (runAll_nil _ w₃)
  -- the set has the number `2` only
  have hlookup : (insertIfNotexist v₂.ids "shoes".toList 2).lookup "shoes".toList =
      some ((∅ : IdSet).insert 2) := by
    rw [lookup_insertIfNotexist, if_pos rfl, hnone]
  have hroom : HasRoom (insertIfNotexist v₂.ids "shoes".toList 2) "shoes".toList := by
    unfold HasRoom
    rw [hlookup, Option.getD_some, Ne, nextFree_eq_none]
    exact fun hall => absurd (hall 1 le_rfl ObjectId.one_le) (by simp)
  obtain ⟨p, v₄, hpost⟩ := @exists_step _ _ (v₂.set .pub ((v₂.store .pub).put "shoes".toList secondShoe
    "red".toList) (insertIfNotexist v₂.ids "shoes".toList 2)) (shoes .post none).1 {}
    (fun a r hi _ hn => by cases hi; exact absurd (hlookup.symm.trans hn) (by simp))
    fun a r hi _ _ => by cases hi; exact hroom
  obtain ⟨w₄, hrun₄, -⟩ := run_onTree dataPath_ne hv₃ (shoes .post none) hpost
  obtain ⟨k, hnot, hall, hp, -⟩ := post_after_restart dataPath_ne fresh_shoes hds hrestart hjs
    (i := shoes .post none) rfl rfl rfl hrun₄
  have hlearned : (([shoes .put (some secondShoe)].zip [(true, setOk {})]).foldl
      (learn (shoes .post none).1.request.entity) ∅) = (∅ : IdSet).insert 2 := rfl
  have hone : k.number = 1 := by
    by_contra hne
    have hmem := hall 1 le_rfl (by have := k.pos; omega)
    rw [hlearned] at hmem
    simp at hmem
  rw [hone] at hp
  exact ⟨q, w₁, w₂, _, w₃, p, w₄, hds, hrestart, hjs, hrun₄, hp⟩

end Kachow.Secure.Restart
