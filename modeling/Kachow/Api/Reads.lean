import Kachow.Api.Overwrite

/-! # Reads and rejected requests

A request that is answered with `4xx` changes no file, and neither does a `GET` (`unchanged_of_rejected`,
`disk_of_get`). A `GET` of an object changes the map of identifiers: it adds the number it was *parsed*
to if its path *leads* to a file, and erases it if not. So it leaves everything as it was exactly where
the map has the number if and only if the path leads to a file (`get_unchanged_iff`), and then no later
request tells whether it was made (`read_unobserved`). After `GET /e/1abc` the number of object `1` of
`e` is free in the map, and a later `POST` gives it out again (`read_observed`). -/

namespace Kachow.Api.Reads

open Kachow.Lib.Text Kachow.Lib.Sets Kachow.Lib.Files Kachow.Lib.Runs Kachow.Boost.Paths
open Kachow.Http.Messages Kachow.Disk Kachow.Api.Ids Kachow.Api.Handler Kachow.Api.Target
open Kachow.Api.Overwrite

/-- A number a `GET` was parsed to is in the map if and only if its path leads to a file. -/
def ReadAgrees (h : RequestHandlerAPI) (cwd : Loc Str) (w : World Tree) (i : Input) : Prop :=
  i.1.method = .get → ∀ u, h.parseUrlTarget i.1 = .ok u → u.ok = true → u.id ≠ 0 →
    (isObject cwd u w = true ↔ Has w.entityIdMap u.entity u.id)

/-- The request is rejected. -/
def Rejected (h : RequestHandlerAPI) (cwd : Loc Str) (w : World Tree) (i : Input) : Prop :=
  ∃ o w', (serveAny h cwd i).run w = .ok o w' ∧ 400 ≤ o.2.status ∧ o.2.status < 500

/-! ### One request -/

section Step
variable {h : RequestHandlerAPI} {cwd : Loc Str} {w w' : World Tree} {i : Input} {u : ParsedUrl}
  {o : Bool × Response}

theorem run_get (hm : i.1.method = .get) (hu : h.parseUrlTarget i.1 = .ok u) :
    (serveAny h cwd i).run w = if u.ok then (retrieve (realFileSystem cwd) i.2 u).run w
      else .ok (false, setNotfoundRequest i.2) w := by
  unfold serveAny
  rw [run_getResponse, hu]
  simp only [serve, hm]

/-- **A GET changes no file.** -/
theorem disk_of_get (hm : i.1.method = .get) (hlen : h.prefixLength ≤ i.1.target.length) :
    ∃ o w', (serveAny h cwd i).run w = .ok o w' ∧ w'.disk = w.disk := by
  obtain ⟨u, hu⟩ := exists_parseUrlTarget hlen
  rw [run_get hm hu, run_retrieve]
  split_ifs <;> exact ⟨_, _, rfl, rfl⟩

/-- **A GET leaves everything as it was** exactly where the number is in the map as the file is there. -/
theorem get_unchanged_iff (hm : i.1.method = .get) (hlen : h.prefixLength ≤ i.1.target.length) :
    (∃ o, (serveAny h cwd i).run w = .ok o w) ↔ ReadAgrees h cwd w i := by
  obtain ⟨u, hu⟩ := exists_parseUrlTarget hlen
  have hagree : ReadAgrees h cwd w i ↔
      (u.ok = true → u.id ≠ 0 → (isObject cwd u w = true ↔ Has w.entityIdMap u.entity u.id)) := by
    constructor
    · intro ha
      exact ha hm u hu
    · intro ha _ v hv
      obtain rfl : u = v := Except.ok.inj (hu.symm.trans hv)
      exact ha
  rw [hagree, run_get hm hu, run_retrieve]
  obtain ⟨disk, m⟩ := w
  split_ifs with hok hid hex hobj
  · exact ⟨fun _ _ hne => absurd hid hne, fun _ => ⟨_, rfl⟩⟩
  · exact ⟨fun _ _ hne => absurd hid hne, fun _ => ⟨_, rfl⟩⟩
  · have hsame : (∃ o, (EStateM.Result.ok (true, i.2.fill 200
        (Http.Mime.extensionToMIME u.fullPath.extension) (readAt cwd disk u.fullPath))
        ⟨disk, insertIfNotexist m u.entity u.id⟩ : EStateM.Result Fault (World Tree) _) =
        .ok o ⟨disk, m⟩) ↔ insertIfNotexist m u.entity u.id = m := by simp
    rw [hsame, insertIfNotexist_eq_iff]
    simp only [hobj, hok, ne_eq, hid, not_false_eq_true, forall_const, true_iff]
  · have hsame : (∃ o, (EStateM.Result.ok (false, setNotfoundRequest i.2)
        ⟨disk, eraseIfExist m u.entity u.id⟩ : EStateM.Result Fault (World Tree) _) =
        .ok o ⟨disk, m⟩) ↔ eraseIfExist m u.entity u.id = m := by simp
    rw [hsame, eraseIfExist_eq_iff]
    simp [hobj, hok, hid]
  · exact ⟨fun _ h => absurd h hok, fun _ => ⟨_, rfl⟩⟩

/-- **A request that is rejected** has changed nothing, unless it is a `GET`. -/
theorem unchanged_of_rejected (hm : i.1.method ≠ .get) (hrun : (serveAny h cwd i).run w = .ok o w')
    (hlo : 400 ≤ o.2.status) : w' = w := by
  unfold serveAny at hrun
  rw [run_getResponse] at hrun
  cases hu : h.parseUrlTarget i.1 with
  | error e => simp [hu] at hrun
  | ok u =>
    simp only [hu] at hrun
    split_ifs at hrun with hok
    · unfold serve at hrun
      cases hv : i.1.method <;> rw [hv] at hrun hm
      case get => exact absurd rfl hm
      case post =>
        obtain ⟨-, -, rfl⟩ | ⟨-, t, m, IDs, id, -, -, -, rfl, -⟩ := create_ok hrun
        · rfl
        · simp [setCreated, Response.preparePayload] at hlo
      case put =>
        obtain ⟨-, rfl⟩ | ⟨-, -, t, -, rfl, -⟩ := update_ok hrun
        · rfl
        · simp [setOk, Response.preparePayload] at hlo
      case delete =>
        rw [run_remove] at hrun
        split_ifs at hrun with hobj
        · cases hrm : removeAt cwd w.disk u.fullPath with
          | none => simp [hrm] at hrun
          | some b =>
            simp only [hrm] at hrun
            obtain ⟨rfl, -⟩ := EStateM.Result.ok.inj hrun
            simp [setOk, Response.preparePayload] at hlo
        · exact (EStateM.Result.ok.inj hrun).2.symm
      all_goals exact (EStateM.Result.ok.inj hrun).2.symm
    · exact (EStateM.Result.ok.inj hrun).2.symm

theorem length_of_ok (hrun : (serveAny h cwd i).run w = .ok o w') :
    h.prefixLength ≤ i.1.target.length := by
  by_contra hlen
  have hu : h.parseUrlTarget i.1 = .error .outOfRange := by
    unfold RequestHandlerAPI.parseUrlTarget substr
    rw [if_neg hlen]
  unfold serveAny at hrun
  rw [run_getResponse, hu] at hrun
  simp at hrun

/-- **One read or rejected request**: the files stay, and so does the map exactly if the read agrees. -/
theorem unchanged_iff (hreq : i.1.method = .get ∧ h.prefixLength ≤ i.1.target.length ∨
    Rejected h cwd w i) : ∃ o w', (serveAny h cwd i).run w = .ok o w' ∧ w'.disk = w.disk ∧
      (w' = w ↔ ReadAgrees h cwd w i) := by
  have hget : i.1.method = .get → h.prefixLength ≤ i.1.target.length →
      ∃ o w', (serveAny h cwd i).run w = .ok o w' ∧ w'.disk = w.disk ∧
        (w' = w ↔ ReadAgrees h cwd w i) := by
    intro hm hlen
    obtain ⟨o, w', hrun, hdisk⟩ := @disk_of_get h cwd w i hm hlen
    refine ⟨o, w', hrun, hdisk, ?_⟩
    rw [← get_unchanged_iff hm hlen, hrun]
    simp
  rcases hreq with ⟨hm, hlen⟩ | ⟨o, w', hrun, hlo, -⟩
  · exact hget hm hlen
  · by_cases hm : i.1.method = .get
    · exact hget hm (length_of_ok hrun)
    · obtain rfl := unchanged_of_rejected hm hrun hlo
      exact ⟨o, w', hrun, rfl, fun _ hm' => absurd hm' hm, fun _ => rfl⟩

end Step

/-- **Reads and rejected requests are not observed.** Made at any point of a run, a `GET` or a request
that is rejected changes no file; it changes nothing at all if and only if, where it is a `GET` of an
object, the map has its number exactly if its path leads to a file; and then the rest of the run is
answered as if it had not been made. -/
theorem read_unobserved (h : RequestHandlerAPI) {cwd : Loc Str} {w₀ w : World Tree} {is : List Input}
    {os : List (Bool × Response)} {i : Input} (hrun : (runAll (serveAny h cwd) is).run w₀ = .ok os w)
    (hreq : i.1.method = .get ∧ h.prefixLength ≤ i.1.target.length ∨ Rejected h cwd w i) :
    ∃ o w', (serveAny h cwd i).run w = .ok o w' ∧ w'.disk = w.disk ∧
      (w' = w ↔ ReadAgrees h cwd w i) ∧
      (ReadAgrees h cwd w i → ∀ js qs v,
        (runAll (serveAny h cwd) (is ++ i :: js)).run w₀ = .ok (os ++ o :: qs) v ↔
          (runAll (serveAny h cwd) (is ++ js)).run w₀ = .ok (os ++ qs) v) := by
  obtain ⟨o, w', hi, hdisk, hiff⟩ := unchanged_iff hreq
  refine ⟨o, w', hi, hdisk, hiff, fun hagree js qs v => ?_⟩
  obtain rfl := hiff.mpr hagree
  rw [runAll_append hrun, runAll_append hrun]
  have hcons : (runAll (serveAny h cwd) (i :: js)).run w' =
      match (runAll (serveAny h cwd) js).run w' with
      | .ok qs u => .ok (o :: qs) u
      | .error e u => .error e u := by
    simp only [runAll, EStateM.run_bind, hi]
    cases (runAll (serveAny h cwd) js).run w' <;> rfl
  rw [hcons]
  cases (runAll (serveAny h cwd) js).run w' <;> simp

/-- An object is created. -/
def createdOld : List Input := [(⟨.post, "/e".toList, 11, [], "old".toList⟩, {})]

/-- Reading the object that was created is not observed. -/
theorem read_unobserved_old : ∃ os w o, (runAll (serveAny ⟨⟨"data".toList⟩, 0⟩ []) createdOld).run
      ⟨withDir "data".toList, ∅⟩ = .ok os w ∧
    (serveAny ⟨⟨"data".toList⟩, 0⟩ [] (⟨.get, "/e/1".toList, 11, [], []⟩, {})).run w = .ok o w := by
  obtain ⟨os, w, hrun, hw⟩ := after_iff.mp (show after
    (runAll (serveAny ⟨⟨"data".toList⟩, 0⟩ []) createdOld) ⟨withDir "data".toList, ∅⟩
      (fun _ w => isObject [] ⟨true, ⟨"data/e/1".toList⟩, 1, "e".toList⟩ w &&
        (w.entityIdMap.lookup "e".toList).any fun ids => decide (1 ∈ ids)) = true
      from by decide +kernel)
  obtain ⟨hobj, hhas⟩ := Bool.and_eq_true_iff.mp hw
  obtain ⟨ids, hl, hid⟩ := (Option.any_eq_true _ _).mp hhas
  have hagree : ReadAgrees ⟨⟨"data".toList⟩, 0⟩ [] w (⟨.get, "/e/1".toList, 11, [], []⟩, {}) := by
    have hparse : RequestHandlerAPI.parseUrlTarget ⟨⟨"data".toList⟩, 0⟩
        ⟨.get, "/e/1".toList, 11, [], []⟩ = .ok ⟨true, ⟨"data/e/1".toList⟩, 1, "e".toList⟩ := by decide
    intro _ u hu _ _
    obtain rfl := Except.ok.inj (hparse.symm.trans hu)
    exact iff_of_true hobj ⟨ids, hl, of_decide_eq_true hid⟩
  obtain ⟨o, w', hi, -, hiff, -⟩ := read_unobserved ⟨⟨"data".toList⟩, 0⟩
    (i := (⟨.get, "/e/1".toList, 11, [], []⟩, {})) hrun (Or.inl ⟨rfl, Nat.zero_le _⟩)
  obtain rfl := hiff.mpr hagree
  exact ⟨os, w', o, hrun, hi⟩

/-- What is seen of a run: the statuses and the bodies. -/
def seen (os : List (Bool × Response)) : List (ℕ × Str) := os.map fun o => (o.2.status, o.2.body)

/-- **A read may be observed**: after `GET /e/1abc` the next object is number `1` again. -/
theorem read_observed : ¬ ∀ (is : List Input) (i : Input) (js : List Input)
    (os qs : List (Bool × Response)) (v v' : World Tree), i.1.method = .get →
    (runAll (serveAny ⟨⟨"data".toList⟩, 0⟩ []) (is ++ js)).run ⟨withDir "data".toList, ∅⟩ = .ok os v →
    (runAll (serveAny ⟨⟨"data".toList⟩, 0⟩ []) (is ++ i :: js)).run ⟨withDir "data".toList, ∅⟩ =
      .ok qs v' → (seen qs).eraseIdx is.length = seen os := by
  intro hall
  let read : Input := (⟨.get, "/e/1abc".toList, 11, [], []⟩, {})
  obtain ⟨os, v, h1, ho⟩ := after_iff.mp (show after
    (runAll (serveAny ⟨⟨"data".toList⟩, 0⟩ []) (createdOld ++ [postAgain])) ⟨withDir "data".toList, ∅⟩
      (fun os _ => decide (seen os = [(201, createdBody 1), (201, createdBody 2)])) = true
      from by decide +kernel)
  obtain ⟨qs, v', h2, hq⟩ := after_iff.mp (show after
    (runAll (serveAny ⟨⟨"data".toList⟩, 0⟩ []) (createdOld ++ read :: [postAgain]))
      ⟨withDir "data".toList, ∅⟩ (fun os _ => decide ((seen os).eraseIdx 1 =
        [(201, createdBody 1), (201, createdBody 1)])) = true from by decide +kernel)
  have heq := hall createdOld read [postAgain] os qs v v' rfl h1 h2
  rw [show createdOld.length = 1 from rfl, of_decide_eq_true hq, of_decide_eq_true ho] at heq
  exact absurd heq (by decide)

end Kachow.Api.Reads
