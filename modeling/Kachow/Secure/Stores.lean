import Kachow.Api.Frame
import Kachow.Secure.Handler
import Kachow.Lib.Runs

/-! # The store behind the API with users

The handler with users keeps two stores, one in the directory of the private users and one in that of
the public ones, and *one* map of identifiers for both (`Vault`). A request for an entity goes to the
store of its sender, under the name of the entity, or under this name with the user's in front
(`SecureRequest.inner`). On the tree one request does what `vaultStep` does to the vault the tree holds
(`run_serveVault`): the step of the plain API, on one of the stores. -/

namespace Kachow.Secure.Stores

open Kachow.Lib.Text Kachow.Lib.Decimal Kachow.Lib.Files Kachow.Lib.Runs Kachow.Boost.Paths
open Kachow.Http.Messages Kachow.Disk Kachow.Api.Ids Kachow.Api.Handler Kachow.Api.Target Kachow.Api.Crud
open Kachow.Api.Objects Kachow.Api.StoreStep Kachow.Api.Frame Kachow.Secure.Handler

/-! ### Requests and their senders -/

/-- The name of a private user: it names no directories on its way. -/
structure UserId where
  name : Str
  noSlash : '/' ∉ name
  deriving DecidableEq

/-- Who sends a request. -/
inductive Sender where
  | unauthenticated
  | publicUser
  | user (userId : UserId)
  deriving DecidableEq

/-- As the handler tells them apart. -/
def Sender.principal : Sender → Principal
  | .unauthenticated => .unauthenticated
  | .publicUser => .publicUser
  | .user u => .user u.name

/-- The two directories under the data path. -/
inductive Area where
  | priv
  | pub
  deriving DecidableEq, Repr

/-- The name of the directory. -/
def Area.name : Area → Str
  | .priv => "priv".toList
  | .pub => "pub".toList

/-- Its path. -/
def areaPath (dataPath : Str) (a : Area) : Path := ⟨dataPath ++ '/' :: a.name⟩

theorem Area.name_inj {a b : Area} (h : a.name = b.name) : a = b := by
  cases a <;> cases b <;> first | rfl | exact absurd h (by decide)

/-- A request for an entity or one of its objects, and its sender. -/
structure SecureRequest (authorizer : Auth) (loc : Str) where
  request : ObjectRequest
  sender : Sender
  sent : principalOf authorizer (request.toRequest loc) = sender.principal

/-- The name of an entity with the user's name in front. -/
def owned (u : UserId) (e : Str) : Str := u.name ++ '_' :: e

theorem isName_owned (u : UserId) {e : Str} (he : IsName e) : IsName (owned u e) := by
  have hmem : '_' ∈ owned u e := by simp [owned]
  refine ⟨by simp [owned], ?_, ?_, ?_⟩
  · simp [owned, u.noSlash, he.noSlash]
  · intro h
    rw [h] at hmem
    exact absurd hmem (by decide)
  · intro h
    rw [h] at hmem
    exact absurd hmem (by decide)

/-- The request as it is passed on for a private user. -/
def renamed (u : UserId) (r : ObjectRequest) : ObjectRequest where
  method := r.method.known
  entity := owned u r.entity
  isName := isName_owned u r.isName
  id := r.id
  slash := r.slash
  version := r.version
  fields := []
  body := r.body

/-- The name of the user comes to stand in front of the name of the entity. -/
theorem retarget_toRequest (loc : Str) (u : UserId) (r : ObjectRequest) :
    retarget loc.length u.name (r.toRequest loc) = (renamed u r).toRequest loc := by
  have htake : ∀ url : Str, (loc ++ '/' :: url).take (loc.length + 1) = loc ++ ['/'] := fun url => by
    rw [List.append_cons]
    exact List.take_left' (by simp)
  have hdrop : ∀ url : Str, (loc ++ '/' :: url).drop (loc.length + 1) = url := fun url => by
    rw [List.append_cons]
    exact List.drop_left' (by simp)
  unfold retarget newTarget renamed ObjectRequest.toRequest owned
  simp [htake, hdrop]

/-- The target is longer than the prefix and a separator. -/
theorem length_toRequest (loc : Str) (r : ObjectRequest) :
    loc.length + 1 < (r.toRequest loc).target.length := by
  have hpos := List.length_pos_iff.mpr r.isName.ne_nil
  simp only [ObjectRequest.toRequest, List.length_append, List.length_cons]
  omega

variable {authorizer : Auth} {loc : Str}

/-- The store a request goes to, and the request this gets. -/
def SecureRequest.inner (i : SecureRequest authorizer loc) : Option (Area × ObjectRequest) :=
  match i.sender with
  | .unauthenticated => none
  | .publicUser => some (.pub, i.request)
  | .user u => some (.priv, renamed u i.request)

/-! ### The vault -/

/-- Two stores and a map. -/
structure Vault where
  store : Area → Store
  ids : EntityIdMap

/-- Nothing is stored. -/
def Vault.empty : Vault := ⟨fun _ => Store.empty, ∅⟩

/-- The vault with another store in one of its areas, and another map. -/
def Vault.set (v : Vault) (a : Area) (s : Store) (m : EntityIdMap) : Vault where
  store b := if b = a then s else v.store b
  ids := m

/-- The answer to a sender who is not known. -/
def refusal (i : SecureRequest authorizer loc) (res : Response) : Bool × Response :=
  (true, setUnauthorized res (if tokenOf (i.request.toRequest loc) = [] then
    "No token found".toList else "Invalid token".toList))

/-- **The step** of the API with users. -/
def vaultStep (v : Vault) (i : SecureRequest authorizer loc) (res : Response) :
    Except Fault ((Bool × Response) × Vault) :=
  match i.inner with
  | none => .ok (refusal i res, v)
  | some (a, r) =>
    match respond (v.store a) v.ids r res with
    | .ok (o, s, m) => .ok (o, v.set a s m)
    | .error f => .error f

/-- Every entity that has been made has its key in the map. -/
def Vault.Keyed (v : Vault) : Prop := ∀ a x, (v.store a).made x = true → v.ids.lookup x ≠ none

/-- A step of the vault is a step in one of its areas, or none. -/
theorem vaultStep_ok {v v' : Vault} {i : SecureRequest authorizer loc} {res : Response}
    {o : Bool × Response} (h : vaultStep v i res = .ok (o, v')) :
    i.inner = none ∧ o = refusal i res ∧ v' = v ∨
    ∃ a r s m, i.inner = some (a, r) ∧ respond (v.store a) v.ids r res = .ok (o, s, m) ∧
      v' = v.set a s m := by
  unfold vaultStep at h
  cases hi : i.inner with
  | none =>
    simp only [hi, Except.ok.injEq, Prod.mk.injEq] at h
    exact Or.inl ⟨rfl, h.1.symm, h.2.symm⟩
  | some ar =>
    obtain ⟨a, r⟩ := ar
    simp only [hi] at h
    cases hr : respond (v.store a) v.ids r res with
    | error f => simp [hr] at h
    | ok x =>
      obtain ⟨o', s, m⟩ := x
      simp only [hr, Except.ok.injEq, Prod.mk.injEq] at h
      obtain ⟨rfl, rfl⟩ := h
      exact Or.inr ⟨a, r, s, m, rfl, hr, rfl⟩

/-- A request is answered where its entity, if it is made, has its key, and there are numbers left. -/
theorem exists_step {v : Vault} {i : SecureRequest authorizer loc} {res : Response}
    (hkey : ∀ a r, i.inner = some (a, r) → (v.store a).made r.entity = true → v.ids.lookup r.entity ≠ none)
    (hroom : ∀ a r, i.inner = some (a, r) → r.method = .post → r.id = none → HasRoom v.ids r.entity) :
    ∃ o v', vaultStep v i res = .ok (o, v') := by
  unfold vaultStep
  cases hi : i.inner with
  | none => exact ⟨_, _, rfl⟩
  | some ar =>
    obtain ⟨a, r⟩ := ar
    obtain ⟨⟨o, s, m⟩, hr⟩ := @exists_respond _ _ r res (hkey a r hi) (hroom a r hi)
    simp only [hr]
    exact ⟨_, _, rfl⟩

/-- **The keys stay complete.** -/
theorem Vault.Keyed.step {v v' : Vault} {i : SecureRequest authorizer loc} {res : Response}
    {o : Bool × Response} (hk : v.Keyed) (h : vaultStep v i res = .ok (o, v')) : v'.Keyed := by
  rcases vaultStep_ok h with ⟨-, -, rfl⟩ | ⟨a, r, s, m, -, hr, rfl⟩
  · exact hk
  · have hc := change_respond hr
    intro b x hx
    simp only [Vault.set] at hx ⊢
    split_ifs at hx with hb
    · exact hc.key_of_made (hk a) hx
    · exact hc.key (hk b x hx)

/-! ### On the tree -/

section Tree
variable {dataPath : Str} {cwd D : Loc Str} {w : World Tree} {v : Vault}

/-- An area of the tree holds a store; where the directory is missing, nothing is stored. -/
def AreaHolds (dataPath : Str) (cwd D : Loc Str) (t : Tree) (a : Area) (s : Store) : Prop :=
  OnDisk (areaPath dataPath a) cwd (D ++ [a.name]) t s ∨
    t.node (D ++ [a.name]) = none ∧ s = Store.empty

/-- The tree and the map hold the vault. The directories may be missing before the first request. -/
structure HoldsVault (dataPath : Str) (cwd D : Loc Str) (w : World Tree) (v : Vault) : Prop where
  base : Path.locate w.disk cwd ⟨dataPath⟩ = some D
  dir : w.disk.isDir D = true
  area : ∀ a, AreaHolds dataPath cwd D w.disk a (v.store a)
  ids : w.entityIdMap = v.ids
  keyed : v.Keyed

/-- The same, where keys may be missing. -/
structure OnTree (dataPath : Str) (cwd D : Loc Str) (w : World Tree) (v : Vault) : Prop where
  base : Path.locate w.disk cwd ⟨dataPath⟩ = some D
  dir : w.disk.isDir D = true
  area : ∀ a, AreaHolds dataPath cwd D w.disk a (v.store a)
  ids : w.entityIdMap = v.ids

theorem HoldsVault.onTree (h : HoldsVault dataPath cwd D w v) : OnTree dataPath cwd D w v :=
  ⟨h.base, h.dir, h.area, h.ids⟩

theorem OnTree.holds (h : OnTree dataPath cwd D w v) (hk : v.Keyed) : HoldsVault dataPath cwd D w v :=
  ⟨h.base, h.dir, h.area, h.ids, hk⟩

/-- The data path leads to a directory with nothing in it but, maybe, the two directories, which are
empty; and the map is empty. -/
structure FreshVault (dataPath : Str) (cwd D : Loc Str) (w : World Tree) : Prop where
  base : Path.locate w.disk cwd ⟨dataPath⟩ = some D
  dir : w.disk.isDir D = true
  areas : ∀ x l, w.disk.node (D ++ x :: l) ≠ none →
    w.disk.node (D ++ x :: l) = some .dir ∧ ∃ a : Area, x = a.name ∧ l = []
  map : w.entityIdMap = ∅

theorem locate_areaPath {t : Tree} (hl : Path.locate t cwd ⟨dataPath⟩ = some D)
    (hd : t.isDir D = true) (a : Area) :
    (areaPath dataPath a).locate t cwd = some (D ++ [a.name]) := by
  cases a with
  | priv => exact locate_priv hl hd
  | pub => exact locate_pub hl hd

/-- An empty directory holds the empty store. -/
theorem onDisk_empty {t : Tree} {a : Area} (hl : Path.locate t cwd ⟨dataPath⟩ = some D)
    (hd : t.isDir D = true) (ha : t.isDir (D ++ [a.name]) = true)
    (hempty : ∀ x l, t.node (D ++ [a.name] ++ x :: l) = none) :
    OnDisk (areaPath dataPath a) cwd (D ++ [a.name]) t Store.empty where
  base := locate_areaPath hl hd a
  dir := ha
  entity e := hempty e []
  object e k _ _ := by
    rw [List.append_assoc]
    exact hempty e [intToString k]

/-- A tree with one directory, and the empty map. -/
theorem freshVault_withDir {d : Str} (hne : d ≠ []) (hd : Path.comps ⟨d⟩ = [.name d])
    (hs : d.head? ≠ some '/') : FreshVault d [] [d] ⟨withDir d, ∅⟩ where
  base := (fresh_withDir hne hd hs).base
  dir := (fresh_withDir hne hd hs).dir
  areas x l hx := absurd ((fresh_withDir hne hd hs).empty x l) hx
  map := rfl

theorem FreshVault.holds (h : FreshVault dataPath cwd D w) :
    HoldsVault dataPath cwd D w Vault.empty where
  base := h.base
  dir := h.dir
  area a := by
    by_cases hn : w.disk.node (D ++ [a.name]) = none
    · exact Or.inr ⟨hn, rfl⟩
    · refine Or.inl (onDisk_empty h.base h.dir ?_ fun x l => ?_)
      · rw [FileTree.isDir_iff]
        exact (h.areas a.name [] hn).1
      · by_contra hx
        rw [List.append_assoc] at hx
        obtain ⟨-, b, -, hl⟩ := h.areas a.name (x :: l) hx
        exact absurd hl (by simp)
  ids := h.map
  keyed a x hx := by simp [Vault.empty, Store.empty] at hx

/-- **The constructor** leaves the vault as it is, with both directories there. -/
theorem run_new_onTree (hv : OnTree dataPath cwd D w v) (prefixLength : ℕ) (authorizer : Auth) :
    ∃ t, (onDisk (SecureRequestHandlerAPI.new dataPath prefixLength authorizer
        (realFileSystem cwd))).run w =
        .ok (secureHandler dataPath prefixLength authorizer) ⟨t, w.entityIdMap⟩ ∧
      OnTree dataPath cwd D ⟨t, w.entityIdMap⟩ v ∧
      (∀ a, OnDisk (areaPath dataPath a) cwd (D ++ [a.name]) t (v.store a)) ∧
      ∀ l, t.node l = w.disk.node l ∨ ∃ a : Area, l = D ++ [a.name] := by
  obtain ⟨t, hrun, hnode⟩ := run_new hv.base hv.dir prefixLength authorizer
  have hor : ∀ l, (l = D ++ ["priv".toList] ∨ l = D ++ ["pub".toList]) ↔
      ∃ a : Area, l = D ++ [a.name] := by
    intro l
    constructor
    · rintro (h | h)
      · exact ⟨.priv, h⟩
      · exact ⟨.pub, h⟩
    · rintro ⟨a, h⟩
      cases a
      · exact Or.inl h
      · exact Or.inr h
  have hdirs : ∀ l, w.disk.isDir l = true → t.isDir l = true := fun l hl => by
    rw [FileTree.isDir_iff] at hl ⊢
    rw [hnode, if_neg (by simp [hl]), hl]
  have hbase := path_locate_mono hdirs hv.base
  have hsame : ∀ l, (∀ a : Area, l ≠ D ++ [a.name]) → t.node l = w.disk.node l := fun l hl => by
    rw [hnode, if_neg]
    rintro ⟨h, -⟩
    obtain ⟨a, ha⟩ := (hor l).mp h
    exact hl a ha
  have harea : ∀ a, OnDisk (areaPath dataPath a) cwd (D ++ [a.name]) t (v.store a) := by
    intro a
    have hbelow : ∀ x l, t.node (D ++ [a.name] ++ x :: l) = w.disk.node (D ++ [a.name] ++ x :: l) :=
      fun x l => hsame _ fun b hb => absurd (congrArg List.length hb) (by simp)
    rcases hv.area a with hd | ⟨hn, hs⟩
    · refine ⟨locate_areaPath hbase (hdirs D hv.dir) a, hdirs _ hd.dir, fun e => ?_,
        fun e k h1 h2 => ?_⟩
      · rw [hbelow e []]
        exact hd.entity e
      · have hobj := hd.object e k h1 h2
        rw [List.append_assoc] at hobj ⊢
        exact (hbelow e [intToString k]).trans hobj
    · rw [hs]
      refine onDisk_empty hbase (hdirs D hv.dir) ?_ fun x l => ?_
      · rw [FileTree.isDir_iff, hnode, if_pos ⟨(hor _).mpr ⟨a, rfl⟩, hn⟩]
      · rw [hbelow]
        exact FileTree.node_append_eq_none hn (x :: l)
  refine ⟨t, ?_, ⟨hbase, hdirs D hv.dir, fun a => Or.inl (harea a), hv.ids⟩, harea, fun l => ?_⟩
  · simp only [run_onDisk, hrun]
  · by_cases hl : ∃ a : Area, l = D ++ [a.name]
    · exact Or.inr hl
    · exact Or.inl (hsame l fun a ha => hl ⟨a, ha⟩)

/-! ### One request -/

/-- A request, with the response it is to fill in, to a location with users. -/
def serveVault (dataPath : Str) (authorizer : Auth) (cwd : Loc Str) (loc : Str)
    (i : SecureRequest authorizer loc × Response) : EStateM Fault (World Tree) (Bool × Response) :=
  serveSecure dataPath loc.length authorizer (realFileSystem cwd) (i.1.request.toRequest loc) i.2

/-- A request is answered by the handler of an area, or refused. -/
theorem getResponse_inner {σ : Type} (file : FileSystem σ) (i : SecureRequest authorizer loc)
    (res : Response) : (secureHandler dataPath loc.length authorizer).getResponse file
        (i.request.toRequest loc) res =
      match i.inner with
      | none => pure (refusal i res)
      | some (a, r) => RequestHandlerAPI.getResponse ⟨areaPath dataPath a, loc.length⟩ file
          (r.toRequest loc) res := by
  rw [getResponse_eq, i.sent]
  unfold SecureRequest.inner
  cases hs : i.sender with
  | unauthenticated => rfl
  | publicUser => rfl
  | user u =>
    have hlen := length_toRequest loc i.request
    have hshort : ¬ (i.request.toRequest loc).target.length ≤ loc.length + 1 := by omega
    simp only [Sender.principal, if_neg hshort, retarget_toRequest]
    rfl

/-- The places a request may change. -/
def InVault (D l : Loc Str) : Prop :=
  ∃ a : Area, l = D ++ [a.name] ∨ ∃ e, l = D ++ [a.name] ++ [e] ∨
    ∃ k : ObjectId, l = D ++ [a.name] ++ [e] ++ [intToString k.number]

/-- The areas lie apart. -/
theorem area_disjoint {a b : Area} (hab : b ≠ a) (l : Loc Str) :
    ¬ (D ++ [b.name] <+: l ∧ D ++ [a.name] <+: l) := by
  rintro ⟨⟨x, rfl⟩, y, hy⟩
  rw [List.append_assoc, List.append_assoc, List.append_cancel_left_eq] at hy
  exact hab (Area.name_inj (List.cons.inj hy).1.symm)

theorem takesNames_areaPath (hdp : dataPath ≠ ['/']) (a : Area) : TakesNames (areaPath dataPath a) := by
  refine Named.takesNames (named_append_slash hdp ?_ ?_)
  · cases a <;> decide
  · cases a <;> decide

/-- What one request does to the tree is what the step does to the vault; both directories are there
then. -/
theorem run_onTree (hdp : dataPath ≠ ['/']) (hv : OnTree dataPath cwd D w v)
    (i : SecureRequest authorizer loc × Response) {o : Bool × Response} {v' : Vault}
    (hstep : vaultStep v i.1 i.2 = .ok (o, v')) :
    ∃ w', (serveVault dataPath authorizer cwd loc i).run w = .ok o w' ∧ OnTree dataPath cwd D w' v' ∧
      (∀ a : Area, w'.disk.isDir (D ++ [a.name]) = true) ∧
      ∀ l, w'.disk.node l = w.disk.node l ∨ InVault D l := by
  obtain ⟨t, hnew, hv₁, harea, hnode⟩ := run_new_onTree hv loc.length authorizer
  have hnode' : ∀ l, t.node l = w.disk.node l ∨ InVault D l := fun l =>
    (hnode l).imp_right fun ⟨a, ha⟩ => ⟨a, Or.inl ha⟩
  unfold serveVault serveSecure
  rw [EStateM.run_bind, hnew]
  simp only [getResponse_inner]
  rcases vaultStep_ok hstep with ⟨hi, rfl, rfl⟩ | ⟨a, r, s, m, hi, hr, rfl⟩
  · rw [hi]
    exact ⟨_, rfl, hv₁, fun a => (harea a).dir, hnode'⟩
  · rw [hi]
    rw [← hv.ids] at hr
    obtain ⟨t', hrun, hd, htouch⟩ := @run_respond ⟨areaPath dataPath a, loc.length⟩ cwd _ loc
      ⟨t, w.entityIdMap⟩ _ rfl (takesNames_areaPath hdp a) (harea a) r i.2 o s m hr
    refine ⟨_, hrun, ⟨path_locate_mono htouch.dirs hv₁.base, htouch.dirs _ hv₁.dir, fun b => Or.inl ?_,
      rfl⟩, fun b => htouch.dirs _ (harea b).dir, fun l => ?_⟩
    · by_cases hb : b = a
      · subst hb
        simpa [Vault.set] using hd
      · have hother := Api.StoreStep.OnDisk.of_touches (harea b) htouch (area_disjoint hb)
        simpa [Vault.set, hb] using hother
    · rcases htouch.node l with h | h | ⟨k, h⟩
      · rw [h]
        exact hnode' l
      · exact Or.inr ⟨a, Or.inr ⟨_, Or.inl h⟩⟩
      · exact Or.inr ⟨a, Or.inr ⟨_, Or.inr ⟨k, h⟩⟩⟩

/-- **One request** does to the tree what the step does to the vault. -/
theorem run_serveVault (hdp : dataPath ≠ ['/']) (hv : HoldsVault dataPath cwd D w v)
    (i : SecureRequest authorizer loc × Response) {o : Bool × Response} {v' : Vault}
    (hstep : vaultStep v i.1 i.2 = .ok (o, v')) :
    ∃ w', (serveVault dataPath authorizer cwd loc i).run w = .ok o w' ∧
      HoldsVault dataPath cwd D w' v' ∧
      ∀ l, w'.disk.node l = w.disk.node l ∨ InVault D l := by
  obtain ⟨w', hrun, hv', -, hnode⟩ := run_onTree hdp hv.onTree i hstep
  exact ⟨w', hrun, hv'.holds (hv.keyed.step hstep), hnode⟩

/-- A fault of the step is one of the handler. -/
theorem run_onTree_error (hdp : dataPath ≠ ['/']) (hv : OnTree dataPath cwd D w v)
    (i : SecureRequest authorizer loc × Response) {f : Fault}
    (hstep : vaultStep v i.1 i.2 = .error f) :
    ∃ w', (serveVault dataPath authorizer cwd loc i).run w = .error f w' := by
  obtain ⟨t, hnew, -, harea, -⟩ := run_new_onTree hv loc.length authorizer
  unfold serveVault serveSecure
  rw [EStateM.run_bind, hnew]
  simp only [getResponse_inner]
  unfold vaultStep at hstep
  cases hi : i.1.inner with
  | none => simp [hi] at hstep
  | some ar =>
    obtain ⟨a, r⟩ := ar
    simp only [hi, ← hv.ids] at hstep
    cases hr : respond (v.store a) w.entityIdMap r i.2 with
    | ok x => simp [hr] at hstep
    | error f' =>
      simp only [hr, Except.error.injEq] at hstep
      subst hstep
      exact @run_respond_error ⟨areaPath dataPath a, loc.length⟩ cwd _ loc ⟨t, w.entityIdMap⟩ _ r i.2 _
        rfl (takesNames_areaPath hdp a) (harea a) hr

/-! ### Runs -/

/-- The step as a program on the vault. -/
def stepVault (i : SecureRequest authorizer loc × Response) : EStateM Fault Vault (Bool × Response) :=
  fun v =>
    match vaultStep v i.1 i.2 with
    | .ok (o, v') => .ok o v'
    | .error f => .error f v

theorem run_stepVault {i : SecureRequest authorizer loc × Response} {o : Bool × Response} {v' : Vault} :
    (stepVault i).run v = .ok o v' ↔ vaultStep v i.1 i.2 = .ok (o, v') := by
  unfold stepVault EStateM.run
  cases h : vaultStep v i.1 i.2 <;> simp [h, Prod.ext_iff]

/-- A `POST` that takes a number finds one that is free. -/
def Room (w : World Tree) (i : SecureRequest authorizer loc × Response) : Prop :=
  ∀ a r, i.1.inner = some (a, r) → r.method = .post → r.id = none → HasRoom w.entityIdMap r.entity

/-- **Every request is answered**, if there are numbers left. -/
theorem exists_vaultStep (hv : HoldsVault dataPath cwd D w v)
    {i : SecureRequest authorizer loc × Response} (hroom : Room w i) :
    ∃ o v', vaultStep v i.1 i.2 = .ok (o, v') := by
  refine exists_step (fun a r _ => hv.keyed a r.entity) fun a r hi => ?_
  rw [← hv.ids]
  exact hroom a r hi

/-- **A run** of requests gives the same answers on the tree and on the vault it holds. -/
theorem runs_both (hdp : dataPath ≠ ['/']) (hv : HoldsVault dataPath cwd D w v)
    {is : List (SecureRequest authorizer loc × Response)}
    (hroom : Along (serveVault dataPath authorizer cwd loc) Room w is) :
    ∃ os w' v', (runAll (serveVault dataPath authorizer cwd loc) is).run w = .ok os w' ∧
      (runAll stepVault is).run v = .ok os v' ∧ HoldsVault dataPath cwd D w' v' := by
  refine lockstep (fun w v i hv hi => ?_) hv hroom
  obtain ⟨o, v', hstep⟩ := exists_vaultStep hv hi
  obtain ⟨w', hrun, hv', -⟩ := run_serveVault hdp hv i hstep
  exact ⟨o, w', v', hrun, run_stepVault.mpr hstep, hv'⟩

end Tree

end Kachow.Secure.Stores
