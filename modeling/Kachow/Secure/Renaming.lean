import Kachow.Api.Factory
import Kachow.Secure.Stores

/-! # A private user sees a plain API

The handler with users passes the request of a private user on under another name: `owned u e` for `e`.
What is kept under the new names is what the plain handler, on its own directory, keeps under the old
ones (`Renames`), and a request is answered alike by both. There is one exception. The handler takes a
name that begins with digits for the number of an object; so if the user's name does, a list of the
entity is taken for a read of an object, and is not found. The answers are the same exactly as long as
no such list is asked for where the entity is there (`renamed_answers_iff`). -/

namespace Kachow.Secure.Renaming

open Kachow.Lib.Text Kachow.Lib.Decimal Kachow.Lib.Files Kachow.Lib.Runs Kachow.Boost.Paths
open Kachow.Http.Messages Kachow.Disk Kachow.Api.Ids Kachow.Api.Handler Kachow.Api.Objects
open Kachow.Api.StoreStep Kachow.Api.Frame Kachow.Api.Factory Kachow.Secure.Handler
open Kachow.Secure.Stores

/-- A request of the private user `u`, for an entity whose name is not taken for a number. -/
structure UserRequest (authorizer : Auth) (loc : Str) (u : UserId) where
  request : ObjectRequest
  notNumber : stoi request.entity = none
  sent : principalOf authorizer (request.toRequest loc) = .user u.name

section Requests
variable {authorizer : Auth} {loc : Str} {u : UserId}

/-- As a request to the location with users. -/
def UserRequest.secure (i : UserRequest authorizer loc u) : SecureRequest authorizer loc :=
  ⟨i.request, .user u, i.sent⟩

/-- The plain handler, and the one with users. -/
def servePlain (h : RequestHandlerAPI) (cwd : Loc Str) (i : UserRequest authorizer loc u × Response) :
    EStateM Fault (World Tree) (Bool × Response) :=
  serveObject h cwd loc (i.1.request, i.2)

def serveUser (dataPath : Str) (cwd : Loc Str) (i : UserRequest authorizer loc u × Response) :
    EStateM Fault (World Tree) (Bool × Response) :=
  serveVault dataPath authorizer cwd loc (i.1.secure, i.2)

/-- What is seen of an answer: the status and the body. -/
def seen (o : Bool × Response) : ℕ × Str := (o.2.status, o.2.body)

/-- **The condition.** If the user's name begins with a number, no list of an entity that is there is
asked for. -/
def ListsNoneThere (h : RequestHandlerAPI) (cwd : Loc Str) (w : World Tree)
    (i : UserRequest authorizer loc u × Response) : Prop :=
  nameId u.name ≠ 0 → i.1.request.method = .get → i.1.request.id = none →
    existsAt cwd w.disk (entityPath h.basePath i.1.request.entity) = false

/-- The name of the user decides which number a name with it is taken for. -/
theorem nameId_owned (u : UserId) (e : Str) : nameId (owned u e) = nameId u.name := by
  unfold nameId owned
  rw [stoi_append_cons (by decide) (by decide) (by decide) (by decide)]

theorem owned_inj {u : UserId} {e e' : Str} (h : owned u e = owned u e') : e = e' := by
  unfold owned at h
  exact (List.cons.inj (List.append_cancel_left h)).2

/-- What the renaming changes in a request but the name of its method. -/
def renamedOnly (u : UserId) (r : ObjectRequest) : ObjectRequest :=
  { renamed u r with method := r.method }

theorem respond_renamed (s : Store) (m : EntityIdMap) (r : ObjectRequest) (res : Response) :
    respond s m (renamed u r) res = respond s m (renamedOnly u r) res :=
  @respond_known s m (renamedOnly u r) res

/-! ### The relation -/

/-- The plain handler keeps under each name what the other one keeps for the user. -/
structure Renames (h : RequestHandlerAPI) (cwd B : Loc Str) (dataPath : Str) (cwd' D : Loc Str)
    (u : UserId) (w w' : World Tree) (s : Store) (v : Vault) : Prop where
  plain : Holds h.basePath cwd B w s
  vault : HoldsVault dataPath cwd' D w' v
  alike : ∀ e, Alike s w.entityIdMap e (v.store .priv) v.ids (owned u e)

variable {h : RequestHandlerAPI} {cwd B cwd' D : Loc Str} {dataPath : Str} {w w' : World Tree}
  {s : Store} {v : Vault}

/-- A step of the user in the vault. -/
theorem vaultStep_secure (i : UserRequest authorizer loc u) (res : Response) :
    vaultStep v i.secure res =
      match respond (v.store .priv) v.ids (renamedOnly u i.request) res with
      | .ok (o, s, m) => .ok (o, v.set .priv s m)
      | .error f => .error f := by
  rw [← respond_renamed]
  rfl

/-- Under the other names both keep what they kept. -/
theorem alike_after {s₁ s₂ : Store} {m₁ m₂ : EntityIdMap} {r : ObjectRequest}
    (hR : Renames h cwd B dataPath cwd' D u w w' s v)
    (hc : Change s w.entityIdMap r s₁ m₁)
    (hc' : Change (v.store .priv) v.ids (renamedOnly u r) s₂ m₂)
    (h1 : Alike s₁ m₁ r.entity s₂ m₂ (owned u r.entity)) (x : Str) :
    Alike s₁ m₁ x s₂ m₂ (owned u x) := by
  by_cases hx : x = r.entity
  · rw [hx]
    exact h1
  · have hplain := alike_of_change hc hx
    have hvault := alike_of_change hc' (x := owned u x) fun he => hx (owned_inj he)
    exact (hplain.symm.trans (hR.alike x)).trans hvault

variable (hp : h.prefixLength = loc.length) (hb : TakesNames h.basePath) (hdp : dataPath ≠ ['/'])
include hp hb hdp

/-- Where both steps are given, so are both answers, and the relation is kept. -/
theorem both_ok (i : UserRequest authorizer loc u × Response)
    (hR : Renames h cwd B dataPath cwd' D u w w' s v) {o o' : Bool × Response} {s₁ s₂ : Store}
    {m₁ m₂ : EntityIdMap} (hr : respond s w.entityIdMap i.1.request i.2 = .ok (o, s₁, m₁))
    (hr' : respond (v.store .priv) v.ids (renamedOnly u i.1.request) i.2 = .ok (o', s₂, m₂)) :
    ∃ w₁ w₂, (servePlain h cwd i).run w = .ok o w₁ ∧ (serveUser dataPath cwd' i).run w' = .ok o' w₂ ∧
      (Alike s₁ m₁ i.1.request.entity s₂ m₂ (owned u i.1.request.entity) →
        Renames h cwd B dataPath cwd' D u w₁ w₂ s₁ (v.set .priv s₂ m₂)) := by
  obtain ⟨t, hrun, hd, -⟩ := run_respond hp hb hR.plain.disk hr
  have hstep : vaultStep v i.1.secure i.2 = .ok (o', v.set .priv s₂ m₂) := by
    rw [vaultStep_secure, hr']
  obtain ⟨w₂, hrun', hv, -⟩ := run_serveVault hdp hR.vault (i.1.secure, i.2) hstep
  have hc := change_respond hr
  have hname : nameId i.1.request.entity = 0 := by simp [nameId, i.1.notNumber]
  refine ⟨_, w₂, hrun, hrun', fun halike => ⟨⟨hd, hc.inMap hR.plain.map hname⟩, hv, ?_⟩⟩
  exact alike_after hR hc (change_respond hr') halike

/-- A list the handler takes for a read of an object is not found. It is answered alike if and only if
the entity is not there. -/
theorem compares_list (i : UserRequest authorizer loc u × Response)
    (hR : Renames h cwd B dataPath cwd' D u w w' s v) (hnum : nameId u.name ≠ 0)
    (hget : i.1.request.method = .get) (hid : i.1.request.id = none) :
    Compares (servePlain h cwd i) (serveUser dataPath cwd' i) seen seen
      (fun w w' => ∃ s v, Renames h cwd B dataPath cwd' D u w w' s v) (ListsNoneThere h cwd w i) w w' := by
  have hname : nameId i.1.request.entity = 0 := by simp [nameId, i.1.notNumber]
  have hcond : ListsNoneThere h cwd w i ↔ s.made i.1.request.entity = false := by
    unfold ListsNoneThere
    rw [hR.plain.disk.existsAt_entity i.1.request.isName]
    exact ⟨fun hl => hl hnum hget hid, fun hl _ _ _ => hl⟩
  have hr' : respond (v.store .priv) v.ids (renamedOnly u i.1.request) i.2 =
      .ok ((false, setNotfoundRequest i.2), v.store .priv,
        eraseIfExist v.ids (owned u i.1.request.entity) (nameId u.name)) := by
    have hn := nameId_owned u i.1.request.entity
    unfold respond
    simp only [renamedOnly, renamed, hget, hid]
    rw [hn, if_neg hnum]
  have hr : respond s w.entityIdMap i.1.request i.2 =
      if s.made i.1.request.entity then .ok ((true, i.2.fill 200 textPlain
        (listResponse i.1.request.entity (w.entityIdMap.lookup i.1.request.entity))), s, w.entityIdMap)
      else .ok ((false, setNotfoundRequest i.2), s, w.entityIdMap) := by
    unfold respond
    simp only [hget, hid, hname, if_true]
  cases hmade : s.made i.1.request.entity with
  | true =>
    -- the plain handler lists the entity, the other one finds no object
    rw [hmade, if_pos rfl] at hr
    obtain ⟨w₁, w₂, h1, h2, -⟩ := both_ok hp hb hdp i hR hr hr'
    have hfalse : ¬ ListsNoneThere h cwd w i := by simp [hcond, hmade]
    refine Or.inr ⟨_, w₁, _, w₂, h1, h2, iff_of_false ?_ hfalse, fun hc => absurd hc hfalse⟩
    intro heq
    have hstatus : (200 : ℕ) = 404 := congrArg Prod.fst heq
    omega
  | false =>
    rw [hmade, if_neg (by simp)] at hr
    obtain ⟨w₁, w₂, h1, h2, hkeep⟩ := both_ok hp hb hdp i hR hr hr'
    refine Or.inr ⟨_, w₁, _, w₂, h1, h2, iff_of_true rfl (hcond.mpr hmade), fun _ => ⟨_, _, hkeep ?_⟩⟩
    have halike := hR.alike i.1.request.entity
    have hkey := hR.plain.map.key i.1.request.entity
    rw [hmade] at hkey
    have hnone := Option.isNone_iff_eq_none.mp (Option.isSome_eq_false_iff.mp hkey)
    refine ⟨halike.made, halike.content, ?_⟩
    rw [lookup_eraseIfExist, if_pos rfl, halike.lookup, hnone]
    rfl

/-- **One request** is answered alike, unless it is a list that is taken for a read. -/
theorem compares_step (i : UserRequest authorizer loc u × Response)
    (hR : Renames h cwd B dataPath cwd' D u w w' s v) :
    Compares (servePlain h cwd i) (serveUser dataPath cwd' i) seen seen
      (fun w w' => ∃ s v, Renames h cwd B dataPath cwd' D u w w' s v) (ListsNoneThere h cwd w i) w w' := by
  by_cases hlist : nameId u.name ≠ 0 ∧ i.1.request.method = .get ∧ i.1.request.id = none
  · exact compares_list hp hb hdp i hR hlist.1 hlist.2.1 hlist.2.2
  · have hname : nameId i.1.request.entity = 0 := by simp [nameId, i.1.notNumber]
    have hcond : ListsNoneThere h cwd w i := fun h1 h2 h3 => absurd ⟨h1, h2, h3⟩ hlist
    have hkey : s.made i.1.request.entity = true →
        w.entityIdMap.lookup i.1.request.entity ≠ none := by
      intro hmade
      obtain ⟨ids, hids⟩ := hR.plain.map.exists_ids hmade
      simp [hids]
    have hnum : i.1.request.method = .get → i.1.request.id = none →
        nameId (renamedOnly u i.1.request).entity = nameId i.1.request.entity := by
      intro hget hid
      have hzero : nameId u.name = 0 := by
        by_contra hne
        exact hlist ⟨hne, hget, hid⟩
      rw [hname, ← hzero]
      exact nameId_owned u _
    have hres := @respond_alike _ _ _ _ i.1.request (renamedOnly u i.1.request) i.2 rfl rfl rfl hnum
      (Or.inr hkey) (hR.alike i.1.request.entity)
    rcases hr : respond s w.entityIdMap i.1.request i.2 with f | ⟨o, s₁, m₁⟩
    · -- no number is left: both fail
      rcases hr' : respond (v.store .priv) v.ids (renamedOnly u i.1.request) i.2 with f' | x
      · obtain ⟨w₁, h1⟩ := run_respond_error hp hb hR.plain.disk hr
        have hstep : vaultStep v i.1.secure i.2 = .error f' := by rw [vaultStep_secure, hr']
        obtain ⟨w₂, h2⟩ := run_onTree_error hdp hR.vault.onTree (i.1.secure, i.2) hstep
        exact Or.inl ⟨f, w₁, f', w₂, h1, h2, hcond⟩
      · rw [hr, hr'] at hres
        cases hres
    · rcases hr' : respond (v.store .priv) v.ids (renamedOnly u i.1.request) i.2 with f' | ⟨o', s₂, m₂⟩
      · rw [hr, hr'] at hres
        cases hres
      · obtain ⟨w₁, w₂, h1, h2, hkeep⟩ := both_ok hp hb hdp i hR hr hr'
        rw [hr, hr'] at hres
        cases hres with
        | ok halike =>
          exact Or.inr ⟨_, w₁, _, w₂, h1, h2, iff_of_true rfl hcond, fun _ => ⟨_, _, hkeep halike⟩⟩

/-- **A private user sees a plain API.** The handler with users starts with empty directories and an
empty map, and so does a plain handler on a directory of its own. All requests come from one private
user. The two give the same statuses and bodies, up to the point where an entity has no numbers left, if
and only if the user's name does not begin with a number other than `0`, or else no list of an entity
that is there is asked for. -/
theorem renamed_answers_iff (hplain : Fresh h.basePath cwd B w)
    (hvault : FreshVault dataPath cwd' D w') (is : List (UserRequest authorizer loc u × Response)) :
    (outputs (servePlain h cwd) is w).map seen = (outputs (serveUser dataPath cwd') is w').map seen ↔
      Along (servePlain h cwd) (ListsNoneThere h cwd) w is := by
  have hstart : ∃ s v, Renames h cwd B dataPath cwd' D u w w' s v := by
    refine ⟨Store.empty, Vault.empty, hplain.holds, hvault.holds, fun e => ⟨rfl, fun _ => rfl, ?_⟩⟩
    rw [hplain.map]
    rfl
  have hstep : ∀ w w' (i : UserRequest authorizer loc u × Response),
      (∃ s v, Renames h cwd B dataPath cwd' D u w w' s v) →
      Compares (servePlain h cwd i) (serveUser dataPath cwd' i) seen seen
        (fun w w' => ∃ s v, Renames h cwd B dataPath cwd' D u w w' s v)
        (ListsNoneThere h cwd w i) w w' := by
    rintro w w' i ⟨s, v, hR⟩
    exact compares_step hp hb hdp i hR
  exact outputs_map_eq_iff hstep hstart

end Requests

/-! ### Two users -/

/-- An object of the entity `shoes` is created, and the entity listed. -/
def createAndList (authorizer : Auth) (u : UserId) (fields : List (Str × Str))
    (h : principalOf authorizer (withFields fields) = .user u.name) :
    List (UserRequest authorizer "/api".toList u × Response) :=
  let shoes (method : Verb) (body : Str) : ObjectRequest :=
    ⟨method, "shoes".toList, isName_shoes, none, false, 11, fields, body⟩
  [(⟨shoes .post "red".toList, stoi_shoes, (principalOf_congr rfl).trans h⟩, {}),
    (⟨shoes .get [], stoi_shoes, (principalOf_congr rfl).trans h⟩, {})]

/-- The requests of the user `priv1`, whose name begins with no number. -/
def requestsOfPriv1 : List (UserRequest FakeAuth.getAuth "/api".toList ⟨"priv1".toList, by decide⟩ ×
    Response) :=
  createAndList _ _ [("Authorization".toList, "Bearer PRIVAUTH1".toList)] (by decide)

theorem renamed_answers_priv1 :
    (outputs (servePlain ⟨⟨"data".toList⟩, 4⟩ []) requestsOfPriv1 ⟨withDir "data".toList, ∅⟩).map seen =
      (outputs (serveUser "data".toList []) requestsOfPriv1 ⟨withDir "data".toList, ∅⟩).map seen := by
  have hplain : Fresh ⟨"data".toList⟩ [] ["data".toList] ⟨withDir "data".toList, ∅⟩ :=
    fresh_withDir (by decide) (by decide) (by decide)
  have hvault : FreshVault "data".toList [] ["data".toList] ⟨withDir "data".toList, ∅⟩ :=
    freshVault_withDir (by decide) (by decide) (by decide)
  have hb : TakesNames ⟨"data".toList⟩ := Named.takesNames ⟨by decide, by decide⟩
  have hname : ∀ w i, ListsNoneThere ⟨⟨"data".toList⟩, 4⟩ [] w i := fun w
      (i : UserRequest FakeAuth.getAuth "/api".toList ⟨"priv1".toList, by decide⟩ × Response) hne =>
    absurd (show nameId "priv1".toList = 0 by decide) hne
  refine (renamed_answers_iff (h := ⟨⟨"data".toList⟩, 4⟩) rfl hb (by decide) hplain hvault
    requestsOfPriv1).mpr ?_
  exact ⟨hname _ _, fun _ _ _ => ⟨hname _ _, fun _ _ _ => trivial⟩⟩

/-- Everyone is the user `42`. -/
def auth42 : Auth := fun _ => (.privateAuth, "42".toList)

def requestsOf42 : List (UserRequest auth42 "/api".toList ⟨"42".toList, by decide⟩ × Response) :=
  createAndList _ _ [("Authorization".toList, "Bearer 42".toList)] (by decide)

/-- **The user `42` finds no list** of the entity that was just made. -/
theorem list_of_42_missing :
    (outputs (servePlain ⟨⟨"data".toList⟩, 4⟩ []) requestsOf42 ⟨withDir "data".toList, ∅⟩).map seen ≠
      (outputs (serveUser "data".toList []) requestsOf42 ⟨withDir "data".toList, ∅⟩).map seen := by
  decide +kernel

end Kachow.Secure.Renaming
