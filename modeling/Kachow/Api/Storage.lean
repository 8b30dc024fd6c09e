import Kachow.Api.Reports

/-! # Failed storage

A request that changes something is to answer with success only if the change has been made, and is to
leave the map of identifiers alone if an operation of the file system fails (`Acknowledges`). The
handler does not look at what the file system reports. So a `POST` that gets as far as taking a number
does so exactly if every operation succeeds, and a `DELETE` of a file exactly if it is removed. A `PUT`
may also get away with a failure: if the file has the body already, and the map the number. Nothing is
asked of other requests (`Stores`, `acknowledges_iff_stores`).

Nothing is assumed of the state a request meets; so along every run, whatever it starts from, the
requests are acknowledged rightly exactly if they are stored (`storage_iff`). -/

namespace Kachow.Api.Storage

open Kachow.Lib.Text Kachow.Lib.Decimal Kachow.Lib.Sets Kachow.Lib.Files Kachow.Lib.Runs
open Kachow.Boost.Paths Kachow.Http.Messages Kachow.Disk Kachow.Api.Ids Kachow.Api.Handler
open Kachow.Api.Reports

variable {σ : Type}

/-- The handler, with a fresh response. -/
def serveOn (h : RequestHandlerAPI) (file : FileSystem σ) (req : Request) :
    EStateM Fault (World σ) (Bool × Response) := h.getResponse file req {}

section Statements
variable (h : RequestHandlerAPI) (file : FileSystem σ) (view : σ → Path → Option (Node Str))
  (w : World σ) (req : Request)

/-- What the request asks for has been done: the body is at the path of the object, or nothing is. -/
def EffectAt (u : ParsedUrl) (o : Bool × Response) (s' : σ) : Prop :=
  match req.method with
  | .post => ∃ id, o.2.body = createdBody id ∧
      view s' (u.fullPath.append (intToString id)) = some (.file req.body)
  | .put => view s' u.fullPath = some (.file req.body)
  | .delete => view s' u.fullPath = none
  | _ => True

/-- The same, at the path the target leads to. -/
def Effect (o : Bool × Response) (s' : σ) : Prop :=
  ∃ u, h.parseUrlTarget req = .ok u ∧ EffectAt view req u o s'

/-- Some operation of the request reports `false`. -/
def CallFails : Prop := ∃ o s' log m', (serveOn h (reported file) req).run
  ⟨(w.disk, []), w.entityIdMap⟩ = .ok o ⟨(s', log), m'⟩ ∧ false ∈ log

/-- Success is answered only if the request has taken effect, and the map is left alone if an operation
fails. -/
def Acknowledges : Prop := ∀ o w', (serveOn h file req).run w = .ok o w' →
  (200 ≤ o.2.status ∧ o.2.status < 300 → Effect h view req o w'.disk) ∧
  (CallFails h file w req → w'.entityIdMap = w.entityIdMap)

/-- Making a directory, unless it is there. -/
def makeDir (p : Path) : EStateM Fault σ Bool := do
  let there ← file.exists_ p
  if there then pure true else file.createDirectory p

/-- The map once a `POST` has looked for its entity. -/
def withKey (s : σ) (m : EntityIdMap) (u : ParsedUrl) : EntityIdMap :=
  if (view s u.fullPath).isSome then m else insertKey m u.entity

/-- Both operations of a `POST` succeed, if it takes a number. -/
def CreateStores (u : ParsedUrl) : Prop := u.fullPath.parentPath.same h.basePath = true →
  ∀ id m', getNextId (withKey view w.disk w.entityIdMap u) u.entity = .ok (id, m') →
    ∃ s t, (makeDir file u.fullPath).run w.disk = .ok true s ∧
      (file.writeFile (u.fullPath.append (intToString id)) req.body).run s = .ok true t

/-- The file is written by a `PUT` or has the body already; and both operations succeed, or the map has
the number already. -/
def UpdateStores (u : ParsedUrl) : Prop :=
  u.id ≠ 0 ∧ u.fullPath.parentPath.parentPath.same h.basePath = true →
    ∃ b s c t, (makeDir file u.fullPath.parentPath).run w.disk = .ok b s ∧
      (file.writeFile u.fullPath req.body).run s = .ok c t ∧
      (c = true ∨ view s u.fullPath = some (.file req.body)) ∧
      (b = true ∧ c = true ∨ Has w.entityIdMap u.entity u.id)

/-- Asking for a regular file. -/
def regularFile (p : Path) : EStateM Fault σ Bool := do
  let there ← file.exists_ p
  if there then file.isRegularFile p else pure false

/-- The file is removed by a `DELETE`. -/
def RemoveStores (u : ParsedUrl) : Prop := ∀ s, (regularFile file u.fullPath).run w.disk = .ok true s →
  ∃ t, (file.remove u.fullPath).run s = .ok true t

/-- The operations of the file system that matter succeed. -/
def StoresAt (u : ParsedUrl) : Prop :=
  match req.method with
  | .post => CreateStores h file view w req u
  | .put => UpdateStores h file view w req u
  | .delete => RemoveStores file w u
  | _ => True

/-- The same, at the path the target leads to, if it leads to one. -/
def Stores : Prop := ∀ u, h.parseUrlTarget req = .ok u → u.ok = true → StoresAt h file view w req u

end Statements

/-! ### A request with its reports -/

/-- A request has ended well, as its reports show. -/
def Sound (h : RequestHandlerAPI) (view : σ → Path → Option (Node Str)) (m : EntityIdMap)
    (req : Request) (o : Bool × Response) (s' : σ) (log : List Bool) (m' : EntityIdMap) : Prop :=
  (200 ≤ o.2.status ∧ o.2.status < 300 → Effect h view req o s') ∧ (false ∈ log → m' = m)

/-- Every way the program ends with its reports is sound. -/
def EndsSound (h : RequestHandlerAPI) (view : σ → Path → Option (Node Str)) (w : World σ)
    (req : Request) (x : EStateM Fault (World (σ × List Bool)) (Bool × Response)) : Prop :=
  ∀ o s' log m', x.run ⟨(w.disk, []), w.entityIdMap⟩ = .ok o ⟨(s', log), m'⟩ →
    Sound h view w.entityIdMap req o s' log m'

section Reports
variable {h : RequestHandlerAPI} {file : FileSystem σ} {view : σ → Path → Option (Node Str)}
  {w : World σ} {req : Request}

theorem acknowledges_iff : Acknowledges h file view w req ↔
    EndsSound h view w req (serveOn h (reported file) req) := by
  have herase : Erases unlogged (serveOn h (reported file) req) (serveOn h file req) :=
    reported_getResponse h file req {}
  constructor
  · intro hack o s' log m' hrun
    have hplain := herase ⟨(w.disk, []), w.entityIdMap⟩
    rw [hrun] at hplain
    obtain ⟨heff, hmap⟩ := hack o ⟨s', m'⟩ hplain.symm
    exact ⟨heff, fun hf => hmap ⟨o, s', log, m', hrun, hf⟩⟩
  · intro hends o w' hplain
    obtain ⟨⟨⟨s', log⟩, m'⟩, hrun, rfl⟩ :=
      herase.ok (t := ⟨(w.disk, []), w.entityIdMap⟩) hplain
    obtain ⟨heff, hmap⟩ := hends o s' log m' hrun
    refine ⟨heff, ?_⟩
    rintro ⟨o2, s2, log2, m2, hrun2, hf⟩
    rw [hrun] at hrun2
    cases hrun2
    exact hmap hf

theorem endsSound_of_ok {x : EStateM Fault (World (σ × List Bool)) (Bool × Response)}
    {o : Bool × Response} {s' : σ} {log : List Bool} {m' : EntityIdMap}
    (hx : x.run ⟨(w.disk, []), w.entityIdMap⟩ = .ok o ⟨(s', log), m'⟩) :
    EndsSound h view w req x ↔ Sound h view w.entityIdMap req o s' log m' := by
  constructor
  · exact fun hends => hends o s' log m' hx
  · intro hsound o2 s2 log2 m2 hrun
    rw [hx] at hrun
    cases hrun
    exact hsound

theorem endsSound_of_error {x : EStateM Fault (World (σ × List Bool)) (Bool × Response)} {e : Fault}
    {t : World (σ × List Bool)} (hx : x.run ⟨(w.disk, []), w.entityIdMap⟩ = .error e t) :
    EndsSound h view w req x := by
  intro o s' log m' hrun
  rw [hx] at hrun
  cases hrun

/-- A request that is refused without an operation has ended well. -/
theorem endsSound_of_refused {x : EStateM Fault (World (σ × List Bool)) (Bool × Response)}
    {o : Bool × Response} {s' : σ} {m' : EntityIdMap}
    (hx : x.run ⟨(w.disk, []), w.entityIdMap⟩ = .ok o ⟨(s', []), m'⟩) (hst : 300 ≤ o.2.status) :
    EndsSound h view w req x :=
  (endsSound_of_ok hx).mpr ⟨fun hs => by omega, fun hf => absurd hf (by simp)⟩

theorem effect_iff {u : ParsedUrl} (hu : h.parseUrlTarget req = .ok u) {o : Bool × Response} {s' : σ} :
    Effect h view req o s' ↔ EffectAt view req u o s' := by
  constructor
  · rintro ⟨u', hu', heff⟩
    rw [hu] at hu'
    cases hu'
    exact heff
  · exact fun heff => ⟨u, hu, heff⟩

end Reports

/-! ### The methods -/

/-- Taking a number changes the map. -/
theorem ne_of_getNextId {m m' : EntityIdMap} {e : Str} {id : ℤ} (h : getNextId m e = .ok (id, m')) :
    Has m' e id ∧ ¬ Has m e id := by
  obtain ⟨ids, hl, hid, rfl⟩ := getNextId_ok h
  have hfree := (nextFree_eq_some.mp hid).2.2.1
  exact ⟨(has_insert hl).mpr (Or.inl ⟨rfl, rfl⟩), by rwa [has_of_lookup hl]⟩

section Methods
variable {h : RequestHandlerAPI} {file : FileSystem σ} {view : σ → Path → Option (Node Str)}
  (hf : MayFail file view) {w : World σ} {req : Request} {u : ParsedUrl}
  (hu : h.parseUrlTarget req = .ok u)

theorem has_withKey {s : σ} {m : EntityIdMap} {e : Str} {id : ℤ} :
    Has (withKey view s m u) e id ↔ Has m e id := by
  unfold withKey
  split_ifs
  · exact Iff.rfl
  · exact has_insertKey

include hf

/-- Making a directory, with the reports. -/
theorem run_makeDir (p : Path) (s : σ) : ∃ b t, (makeDir file p).run s = .ok b t ∧
    ∃ log, (false ∈ log ↔ b = false) ∧ ∀ (m : EntityIdMap) (f : EntityIdMap → EntityIdMap)
      (x : EStateM Fault (World (σ × List Bool)) (Bool × Response)),
      (do
        let there ← onDisk ((reported file).exists_ p)
        if !there then
          let _ ← onDisk ((reported file).createDirectory p)
          onIds f
        x).run ⟨(s, []), m⟩ = x.run ⟨(t, log), if (view s p).isSome then m else f m⟩ := by
  obtain ⟨s1, h1, -⟩ := hf.exists_ p s
  by_cases he : (view s p).isSome = true
  · rw [he] at h1 ⊢
    refine ⟨true, s1, by simp [makeDir, h1], [], by simp, fun m f x => ?_⟩
    simp [reported, run_unreported h1]
  · rw [Bool.not_eq_true] at he
    rw [he] at h1 ⊢
    obtain ⟨b, t, h2, -⟩ := hf.createDirectory p s1
    refine ⟨b, t, by simp [makeDir, h1, h2], [b], by simp [eq_comm], fun m f x => ?_⟩
    simp [reported, run_unreported h1, run_withReport h2]

include hu

theorem create_iff (hm : req.method = .post) :
    EndsSound h view w req (create h (reported file) req {} u) ↔ CreateStores h file view w req u := by
  unfold CreateStores
  by_cases hs : u.fullPath.parentPath.same h.basePath = true
  · obtain ⟨b, t, hmk, log, hlog, hrun⟩ := run_makeDir hf u.fullPath w.disk
    have hcreate : (create h (reported file) req {} u).run ⟨(w.disk, []), w.entityIdMap⟩ = (do
        let id ← takeNextId u.entity
        let _ ← onDisk ((reported file).writeFile (u.fullPath.append (intToString id)) req.body)
        pure (true, setCreated {} id) : EStateM Fault (World (σ × List Bool)) (Bool × Response)).run
          ⟨(t, log), withKey view w.disk w.entityIdMap u⟩ := by
      refine Eq.trans ?_ (hrun w.entityIdMap (fun m => insertKey m u.entity) _)
      unfold create
      simp only [hs, Bool.not_true, Bool.false_eq_true, if_false]
    cases hn : getNextId (withKey view w.disk w.entityIdMap u) u.entity with
    | error e =>
      have hx : (create h (reported file) req {} u).run ⟨(w.disk, []), w.entityIdMap⟩ =
          .error e ⟨(t, log), withKey view w.disk w.entityIdMap u⟩ := by
        rw [hcreate]
        simp [hn]
      exact iff_of_true (endsSound_of_error hx) fun _ id m' hid => by cases hid
    | ok p =>
      obtain ⟨id, m'⟩ := p
      obtain ⟨c, t', hwr, htrue, -⟩ := hf.writeFile (u.fullPath.append (intToString id)) req.body t
      have hx : (create h (reported file) req {} u).run ⟨(w.disk, []), w.entityIdMap⟩ =
          .ok (true, setCreated {} id) ⟨(t', log ++ [c]), m'⟩ := by
        rw [hcreate]
        simp [hn, reported, run_withReport hwr]
      rw [endsSound_of_ok hx]
      constructor
      · rintro ⟨-, hmap⟩ - id' m'' hid
        cases hid
        have hall : false ∉ log ++ [c] := fun hmem => by
          obtain ⟨hnew, hold⟩ := ne_of_getNextId hn
          rw [has_withKey] at hold
          rw [hmap hmem] at hnew
          exact hold hnew
        rw [List.mem_append, hlog] at hall
        have hb : b = true := by simpa using fun hb => hall (Or.inl hb)
        have hc : c = true := by simpa [eq_comm] using fun hc => hall (Or.inr hc)
        exact ⟨t, t', hb ▸ hmk, hc ▸ hwr⟩
      · intro hst
        obtain ⟨t2, t3, hmk2, hwr2⟩ := hst hs id m' rfl
        rw [hmk] at hmk2
        cases hmk2
        rw [hwr] at hwr2
        cases hwr2
        refine ⟨fun _ => ?_, fun hmem => ?_⟩
        · rw [effect_iff hu, EffectAt, hm]
          exact ⟨id, rfl, htrue rfl⟩
        · rw [List.mem_append, hlog] at hmem
          simp at hmem
  · have hx : (create h (reported file) req {} u).run ⟨(w.disk, []), w.entityIdMap⟩ =
        .ok (false, setBadRequest {}) ⟨(w.disk, []), w.entityIdMap⟩ := by
      unfold create
      simp [hs]
    exact iff_of_true (endsSound_of_refused hx (show 300 ≤ 400 by omega)) fun hs' => absurd hs' hs

theorem update_iff (hm : req.method = .put) :
    EndsSound h view w req (update h (reported file) req {} u) ↔ UpdateStores h file view w req u := by
  unfold UpdateStores
  by_cases hs : u.id ≠ 0 ∧ u.fullPath.parentPath.parentPath.same h.basePath = true
  · obtain ⟨b, t, hmk, log, hlog, hrun⟩ := run_makeDir hf u.fullPath.parentPath w.disk
    obtain ⟨c, t', hwr, htrue, hfalse⟩ := hf.writeFile u.fullPath req.body t
    have hupdate : (update h (reported file) req {} u).run ⟨(w.disk, []), w.entityIdMap⟩ = (do
        let _ ← onDisk ((reported file).writeFile u.fullPath req.body)
        onIds fun m => insertIfNotexist m u.entity u.id
        pure (true, setOk {}) : EStateM Fault (World (σ × List Bool)) (Bool × Response)).run
          ⟨(t, log), w.entityIdMap⟩ := by
      have hmap := hrun w.entityIdMap id
      simp only [id, ite_self] at hmap
      refine Eq.trans ?_ (hmap _)
      unfold update
      rw [if_neg (by simpa using hs)]
      rfl
    have hx : (update h (reported file) req {} u).run ⟨(w.disk, []), w.entityIdMap⟩ =
        .ok (true, setOk {}) ⟨(t', log ++ [c]), insertIfNotexist w.entityIdMap u.entity u.id⟩ := by
      rw [hupdate]
      simp [reported, run_withReport hwr]
    rw [endsSound_of_ok hx]
    have heff : Effect h view req (true, setOk {}) t' ↔
        c = true ∨ view t u.fullPath = some (.file req.body) := by
      rw [effect_iff hu, EffectAt, hm]
      cases c with
      | true => exact iff_of_true (htrue rfl) (Or.inl rfl)
      | false => simp [hfalse rfl]
    have hlogs : (false ∈ log ++ [c] → insertIfNotexist w.entityIdMap u.entity u.id = w.entityIdMap) ↔
        (b = true ∧ c = true ∨ Has w.entityIdMap u.entity u.id) := by
      rw [List.mem_append, hlog, insertIfNotexist_eq_iff]
      cases b <;> cases c <;> simp
    constructor
    · rintro ⟨hst, hmap⟩ -
      exact ⟨b, t, c, t', hmk, hwr, heff.mp (hst ⟨by decide, by decide⟩), hlogs.mp hmap⟩
    · intro hst
      obtain ⟨b2, t2, c2, t3, hmk2, hwr2, hbody, hall⟩ := hst hs
      rw [hmk] at hmk2
      cases hmk2
      rw [hwr] at hwr2
      cases hwr2
      exact ⟨fun _ => heff.mpr hbody, hlogs.mpr hall⟩
  · have hx : (update h (reported file) req {} u).run ⟨(w.disk, []), w.entityIdMap⟩ =
        .ok (false, setBadRequest {}) ⟨(w.disk, []), w.entityIdMap⟩ := by
      unfold update
      rw [if_pos]
      · rfl
      · by_contra hc
        exact hs (by simpa using hc)
    exact iff_of_true (endsSound_of_refused hx (show 300 ≤ 400 by omega)) fun hs' => absurd hs' hs

theorem remove_iff (hm : req.method = .delete) :
    EndsSound h view w req (remove (reported file) {} u) ↔ RemoveStores file w u := by
  obtain ⟨s1, h1, hv1⟩ := hf.exists_ u.fullPath w.disk
  obtain ⟨s2, h2, hv2⟩ := hf.isRegularFile u.fullPath s1
  rw [hv1] at h2 hv2
  unfold RemoveStores
  cases hfile : isFileNode (view w.disk u.fullPath) with
  | false =>
    have hreg : ∀ s, (regularFile file u.fullPath).run w.disk ≠ .ok true s := by
      intro s hs
      unfold regularFile at hs
      cases he : (view w.disk u.fullPath).isSome <;> simp [h1, h2, he, hfile] at hs
    have hx : ∃ s', (remove (reported file) {} u).run ⟨(w.disk, []), w.entityIdMap⟩ =
        .ok (false, setNotfoundRequest {}) ⟨(s', []), w.entityIdMap⟩ := by
      unfold remove
      cases he : (view w.disk u.fullPath).isSome with
      | false => exact ⟨s1, by simp [reported, run_unreported h1, he]⟩
      | true => exact ⟨s2, by simp [reported, run_unreported h1, run_unreported h2, he, hfile]⟩
    obtain ⟨s', hx⟩ := hx
    exact iff_of_true (endsSound_of_refused hx (show 300 ≤ 404 by omega)) fun s hs => absurd hs (hreg s)
  | true =>
    have he : (view w.disk u.fullPath).isSome = true := by
      cases hv : view w.disk u.fullPath with
      | none => simp [isFileNode, hv] at hfile
      | some n => rfl
    obtain ⟨c, t, hrm, htrue, hfalse⟩ := hf.remove u.fullPath s2
    have hreg : (regularFile file u.fullPath).run w.disk = .ok true s2 := by
      unfold regularFile
      simp [h1, h2, he, hfile]
    have hx : (remove (reported file) {} u).run ⟨(w.disk, []), w.entityIdMap⟩ =
        .ok (true, setOk {}) ⟨(t, [c]), eraseIfExist w.entityIdMap u.entity u.id⟩ := by
      unfold remove
      simp [reported, run_unreported h1, run_unreported h2, he, hfile, run_withReport hrm]
    have heff : Effect h view req (true, setOk {}) t ↔ view t u.fullPath = none := by
      rw [effect_iff hu, EffectAt, hm]
    rw [endsSound_of_ok hx]
    constructor
    · rintro ⟨hst, -⟩ s hs
      rw [hreg] at hs
      cases hs
      have hgone := heff.mp (hst ⟨by decide, by decide⟩)
      cases c with
      | true => exact ⟨t, hrm⟩
      | false =>
        rw [hfalse rfl, hv2] at hgone
        simp [hgone] at he
    · intro hst
      obtain ⟨t2, hrm2⟩ := hst s2 hreg
      rw [hrm] at hrm2
      cases hrm2
      exact ⟨fun _ => heff.mpr (htrue rfl), fun hmem => absurd hmem (by simp)⟩

/-- A `GET` makes no operation that may fail. -/
theorem retrieve_sound (hm : req.method = .get) :
    EndsSound h view w req (retrieve (reported file) {} u) := by
  obtain ⟨s1, h1, -⟩ := hf.exists_ u.fullPath w.disk
  obtain ⟨s2, h2, -⟩ := hf.isRegularFile u.fullPath s1
  obtain ⟨c, s3, h3, -⟩ := hf.readFile u.fullPath s2
  have hx : ∃ o s' m', (retrieve (reported file) {} u).run ⟨(w.disk, []), w.entityIdMap⟩ =
      .ok o ⟨(s', []), m'⟩ := by
    unfold retrieve
    cases he : (view w.disk u.fullPath).isSome with
    | false => by_cases hid : u.id = 0 <;> simp [reported, run_unreported h1, he, hid]
    | true =>
      by_cases hid : u.id = 0
      · simp [reported, run_unreported h1, he, hid]
      · cases hr : isFileNode (view s1 u.fullPath) with
        | false => simp [reported, run_unreported h1, run_unreported h2, he, hid, hr]
        | true =>
          simp [reported, run_unreported h1, run_unreported h2, run_unreported h3, he, hid, hr]
  obtain ⟨o, s', m', hx⟩ := hx
  have heff : Effect h view req o s' := by
    rw [effect_iff hu, EffectAt, hm]
    trivial
  exact (endsSound_of_ok hx).mpr ⟨fun _ => heff, fun hmem => absurd hmem (by simp)⟩

end Methods

section Requests
variable {h : RequestHandlerAPI} {file : FileSystem σ} {view : σ → Path → Option (Node Str)}

/-- **One request** is acknowledged rightly exactly if it is stored. -/
theorem acknowledges_iff_stores (hf : MayFail file view) (w : World σ) (req : Request) :
    Acknowledges h file view w req ↔ Stores h file view w req := by
  have hrun := run_getResponse h (reported file) req {} ⟨(w.disk, []), w.entityIdMap⟩
  rw [acknowledges_iff]
  cases hu : h.parseUrlTarget req with
  | error e =>
    rw [hu] at hrun
    exact iff_of_true (endsSound_of_error hrun) fun u hu' => by rw [hu] at hu'; cases hu'
  | ok u =>
    simp only [hu] at hrun
    by_cases hok : u.ok = true
    · rw [if_pos hok] at hrun
      have hends : EndsSound h view w req (serveOn h (reported file) req) ↔
          EndsSound h view w req (serve h (reported file) req {} u) := by
        unfold EndsSound
        rw [← hrun]
        rfl
      have hstores : Stores h file view w req ↔ StoresAt h file view w req u := by
        constructor
        · exact fun hst => hst u hu hok
        · rintro hst u' hu' -
          rw [hu] at hu'
          cases hu'
          exact hst
      rw [hends, hstores]
      unfold serve StoresAt
      cases hm : req.method with
      | post => exact create_iff hf hu hm
      | get => exact iff_of_true (retrieve_sound hf hu hm) trivial
      | put => exact update_iff hf hu hm
      | delete => exact remove_iff hf hu hm
      | other s => exact iff_of_true (endsSound_of_refused rfl (show 300 ≤ 400 by omega)) trivial
      | _ => exact iff_of_true (endsSound_of_refused rfl (show 300 ≤ 405 by omega)) trivial
    · rw [if_neg hok] at hrun
      refine iff_of_true (endsSound_of_refused hrun (show 300 ≤ 404 by omega)) fun u' hu' hok' => ?_
      rw [hu] at hu'
      cases hu'
      exact absurd hok' hok

end Requests

/-- **Failed storage is not acknowledged** along a run exactly if the requests of the run are stored. -/
theorem storage_iff {h : RequestHandlerAPI} {file : FileSystem σ}
    {view : σ → Path → Option (Node Str)} (hf : MayFail file view) (w : World σ) (reqs : List Request) :
    Along (serveOn h file) (Acknowledges h file view) w reqs ↔
      Along (serveOn h file) (Stores h file view) w reqs :=
  along_congr fun w req => acknowledges_iff_stores hf w req

/-- A `POST` to the entity `shoes`. -/
def postShoes : Request := ⟨.post, "/shoes".toList, 11, [], "red".toList⟩

theorem parse_postShoes : RequestHandlerAPI.parseUrlTarget ⟨⟨"data".toList⟩, 0⟩ postShoes =
    .ok ⟨true, ⟨"data/shoes".toList⟩, 0, "shoes".toList⟩ := by decide +kernel

theorem storage_room : Along (serveOn ⟨⟨"data".toList⟩, 0⟩ (limited []))
    (Acknowledges ⟨⟨"data".toList⟩, 0⟩ (limited []) fun s => nodeAt [] s.1)
      ⟨(withDir "data".toList, 2), ∅⟩ [postShoes] := by
  refine (storage_iff (limited_mayFail []) _ _).mpr ⟨fun u hu _ => ?_, fun _ _ _ => trivial⟩
  rw [parse_postShoes] at hu
  cases hu
  intro _ id m' hid
  obtain ⟨ids, hl, hnext, -⟩ := getNextId_ok hid
  have hnew : nodeAt [] (withDir "data".toList) ⟨"data/shoes".toList⟩ = none := by decide +kernel
  simp only [withKey, hnew, Option.isSome_none, Bool.false_eq_true, if_false, lookup_insertKey, if_true,
    Finmap.lookup_empty, Option.getD_none, Option.some.injEq] at hl
  obtain rfl : 1 = id := by
    have hfirst : nextFree ∅ = some 1 := by decide +kernel
    rw [← hl, hfirst] at hnext
    exact Option.some.inj hnext
  obtain ⟨b, s, hdir, hres⟩ := after_iff.mp (show after
    (makeDir (limited []) ⟨"data/shoes".toList⟩) (withDir "data".toList, 2)
      (fun b s => b && after ((limited []).writeFile ⟨"data/shoes/1".toList⟩ "red".toList) s
        fun c _ => c) = true from by decide +kernel)
  obtain ⟨rfl, hwr⟩ := Bool.and_eq_true_iff.mp hres
  obtain ⟨c, t, hwr, rfl⟩ := after_iff.mp hwr
  exact ⟨s, t, hdir, hwr⟩

/-- **Failed storage may be acknowledged.** There is room to make the directory, and none for the file. -/
theorem full_disk : MayFail (limited []) (fun s => nodeAt [] s.1) ∧
    ¬ Along (serveOn ⟨⟨"data".toList⟩, 0⟩ (limited []))
      (Acknowledges ⟨⟨"data".toList⟩, 0⟩ (limited []) fun s => nodeAt [] s.1)
        ⟨(withDir "data".toList, 1), ∅⟩ [postShoes] := by
  refine ⟨limited_mayFail [], ?_⟩
  rintro ⟨hack, -⟩
  obtain ⟨o, w', hrun, hres⟩ := after_iff.mp (show after
    (serveOn ⟨⟨"data".toList⟩, 0⟩ (limited []) postShoes) ⟨(withDir "data".toList, 1), ∅⟩
      (fun o w' => o.2.status = 201 && o.2.body = createdBody 1 &&
        nodeAt [] w'.disk.1 ⟨"data/shoes/1".toList⟩ = none) = true from by decide +kernel)
  simp only [Bool.and_eq_true, decide_eq_true_eq] at hres
  obtain ⟨⟨hst, hbody⟩, hnone⟩ := hres
  obtain ⟨u, hu, heff⟩ := (hack o w' hrun).1 (by rw [hst]; decide)
  obtain ⟨id, hid, hfile⟩ : ∃ id, o.2.body = createdBody id ∧
    nodeAt [] w'.disk.1 (u.fullPath.append (intToString id)) = some (.file postShoes.body) := heff
  obtain rfl : 1 = id := createdBody_inj (hbody.symm.trans hid)
  rw [parse_postShoes] at hu
  cases hu
  have hpath : Path.append ⟨"data/shoes".toList⟩ (intToString 1) = ⟨"data/shoes/1".toList⟩ := by decide
  rw [hpath, hnone] at hfile
  cases hfile

end Kachow.Api.Storage
