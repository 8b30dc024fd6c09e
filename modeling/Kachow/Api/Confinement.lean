import Kachow.Api.Accesses
import Kachow.Api.Objects

/-! # Where the accesses lead

A directory that is made is inside a region of the tree if it belongs to it, and a file that is read,
written or removed if the directory it lies in does (`Inside`). For the handlers the region is what
lies at or under the place `B` the base path leads to.

What a target adds to the base path are steps (`steps`), and they may go up. Neither handler looks at
them. A `POST` asks for the path above to be the base path, a `PUT` for the path above that, both by
their text; `GET`, `DELETE` and the static handler only ask for a regular file. So the accesses are
inside exactly if the steps do not leave `B`, or if there is no access (`ApiStays`, `StaticStays`,
`confined_iff`). -/

namespace Kachow.Api.Confinement

open Kachow.Lib.Text Kachow.Lib.Decimal Kachow.Lib.Files Kachow.Boost.Paths Kachow.Http.Messages
open Kachow.Disk Kachow.Api.Ids Kachow.Api.Handler Kachow.Api.Target Kachow.Handlers.Plain
open Kachow.Api.Accesses

/-- The access is inside the region. -/
def Inside (R : Loc Str → Prop) (cwd : Loc Str) : Access → Prop
  | .createDirectory p => R (p.resolve cwd)
  | .writeFile p => LiesIn R (p.resolve cwd)
  | .readFile p => LiesIn R (p.resolve cwd)
  | .remove p => LiesIn R (p.resolve cwd)

/-- The accesses a program has made when it stops. -/
def logOf {α : Type} : EStateM.Result Fault (World (Tree × List Access)) α → List Access
  | .ok _ w => w.disk.2
  | .error _ w => w.disk.2

theorem logOf_record {α : Type} (log : List Access) (r : EStateM.Result Fault (World Tree) α) :
    logOf (record log r) = log := by
  cases r <;> rfl

/-- The accesses of a request to the API. -/
def apiLog (h : RequestHandlerAPI) (cwd : Loc Str) (req : Request) (res : Response)
    (w : World Tree) : List Access :=
  logOf ((h.getResponse (logged (realFileSystem cwd)) req res).run (logging w []))

/-- The accesses of a request to the static handler. -/
def staticLog (h : RequestHandlerStatic) (cwd : Loc Str) (req : Request) (res : Response)
    (t : Tree) : List Access :=
  match (h.getResponse (logged (realFileSystem cwd)) req res).run (t, []) with
  | .ok _ s => s.2
  | .error _ s => s.2

/-- The steps of a target. -/
def steps (url : Str) : List (Comp Str) := Path.comps ⟨stripped url⟩

/-- The path is a regular file. -/
def Regular (cwd : Loc Str) (t : Tree) (p : Path) : Prop :=
  existsAt cwd t p = true ∧ isFileAt cwd t p = true

/-- No identifier can be taken: the entity is not in the map, or has them all. -/
def Exhausted (m : EntityIdMap) (e : Str) : Prop := ∀ IDs, m.lookup e = some IDs → nextFree IDs = none

/-- **When a request to the API stays inside.** A target that names nothing is not found. Otherwise it
depends on what the handler asks for: `dirOk` says that the path belongs to the region, and `fileOk`
that the directory above does. -/
def ApiStays (basePath : Path) (cwd : Loc Str) (method : Verb) (url : Str) (w : World Tree)
    (dirOk fileOk : Prop) : Prop :=
  url.head? = some '/' → stripped url ≠ [] →
    let fullPath := basePath.append (stripped url)
    match method with
    | .post => fullPath.parentPath.same basePath = true →
        dirOk ∨ existsAt cwd w.disk fullPath = true ∧ Exhausted w.entityIdMap (entity url)
    | .get => number url ≠ 0 → Regular cwd w.disk fullPath → fileOk
    | .put => number url ≠ 0 → fullPath.parentPath.parentPath.same basePath = true → fileOk
    | .delete => Regular cwd w.disk fullPath → fileOk
    | _ => True

/-- **When a request to the static handler stays inside.** -/
def StaticStays (basePath : Path) (cwd : Loc Str) (method : Verb) (url : Str) (t : Tree)
    (fileOk : Prop) : Prop :=
  method = .get → Regular cwd t (basePath.append url) → fileOk

/-! ### The methods -/

section Methods
variable {h : RequestHandlerAPI} {cwd : Loc Str} {u : ParsedUrl} {w : World Tree}
  {R : Loc Str → Prop}

theorem isObject_iff : isObject cwd u w = true ↔ Regular cwd w.disk u.fullPath := by
  simp [isObject, Regular]

theorem getNextId_error_iff {m : EntityIdMap} {e : Str} :
    (∃ f, getNextId m e = .error f) ↔ Exhausted m e := by
  unfold getNextId Exhausted
  cases m.lookup e with
  | none => simp
  | some s => cases hs : nextFree s <;> simp [hs]

theorem inside_creates (hp : u.fullPath.pathname ≠ []) :
    (∀ a ∈ creates h cwd u w, Inside R cwd a) ↔
      (u.fullPath.parentPath.same h.basePath = true → R (u.fullPath.resolve cwd) ∨
        existsAt cwd w.disk u.fullPath = true ∧ Exhausted w.entityIdMap u.entity) := by
  have hwrite : ∀ id, Inside R cwd (.writeFile (u.fullPath.append (intToString id))) ↔
      R (u.fullPath.resolve cwd) := by
    intro id
    show LiesIn R _ ↔ _
    rw [Objects.OnDisk.resolve_append_number hp id, liesIn_concat]
  have hmake : Inside R cwd (.createDirectory u.fullPath) ↔ R (u.fullPath.resolve cwd) := Iff.rfl
  unfold creates madeEntity
  by_cases hs : u.fullPath.parentPath.same h.basePath = true
  · by_cases he : existsAt cwd w.disk u.fullPath = true
    · simp only [hs, he, if_true, List.nil_append, forall_const, true_and]
      rw [← getNextId_error_iff]
      cases getNextId w.entityIdMap u.entity with
      | error f => simp
      | ok r => simp [hwrite]
    · simp only [hs, he, if_true, if_false, Bool.false_eq_true, List.singleton_append,
        List.forall_mem_cons, hmake, forall_const, false_and, or_false, and_iff_left_iff_imp]
      intro hR a ha
      cases hm : mkdirAt cwd w.disk u.fullPath with
      | none => simp [hm] at ha
      | some b =>
        simp only [hm, Option.map_some] at ha
        cases hid : getNextId (insertKey w.entityIdMap u.entity) u.entity with
        | error f => simp [hid] at ha
        | ok r =>
          simp only [hid, List.mem_singleton] at ha
          rw [ha]
          exact (hwrite r.1).mpr hR
  · simp [hs]

theorem inside_retrieves : (∀ a ∈ retrieves cwd u w, Inside R cwd a) ↔
    (u.id ≠ 0 → Regular cwd w.disk u.fullPath → LiesIn R (u.fullPath.resolve cwd)) := by
  unfold retrieves
  rw [← isObject_iff]
  by_cases hc : u.id ≠ 0 ∧ isObject cwd u w = true
  · rw [if_pos hc]
    simp [hc.1, hc.2, Inside]
  · rw [if_neg hc]
    refine ⟨fun _ h1 h2 => absurd ⟨h1, h2⟩ hc, fun _ a ha => absurd ha List.not_mem_nil⟩

theorem inside_removes : (∀ a ∈ removes cwd u w, Inside R cwd a) ↔
    (Regular cwd w.disk u.fullPath → LiesIn R (u.fullPath.resolve cwd)) := by
  unfold removes
  rw [← isObject_iff]
  by_cases hc : isObject cwd u w = true
  · simp [hc, Inside]
  · simp [hc]

/-- A `PUT` makes a directory and writes a file in it, so it is enough to look at the file. -/
theorem inside_updates (hstep : u.id ≠ 0 → u.fullPath.parentPath.parentPath.same h.basePath = true →
      ∃ x, u.fullPath.resolve cwd = u.fullPath.parentPath.resolve cwd ++ [x]) :
    (∀ a ∈ updates h cwd u w, Inside R cwd a) ↔
      (u.id ≠ 0 → u.fullPath.parentPath.parentPath.same h.basePath = true →
        LiesIn R (u.fullPath.resolve cwd)) := by
  unfold updates
  by_cases hc : u.id ≠ 0 ∧ u.fullPath.parentPath.parentPath.same h.basePath = true
  · obtain ⟨x, hx⟩ := hstep hc.1 hc.2
    have hwrite : Inside R cwd (.writeFile u.fullPath) ↔ R (u.fullPath.parentPath.resolve cwd) := by
      show LiesIn R _ ↔ _
      rw [hx, liesIn_concat]
    have hmake : Inside R cwd (.createDirectory u.fullPath.parentPath) ↔
        R (u.fullPath.parentPath.resolve cwd) := Iff.rfl
    have hgoal : (u.id ≠ 0 → u.fullPath.parentPath.parentPath.same h.basePath = true →
        LiesIn R (u.fullPath.resolve cwd)) ↔ R (u.fullPath.parentPath.resolve cwd) := by
      rw [hx, liesIn_concat]
      exact ⟨fun h => h hc.1 hc.2, fun h _ _ => h⟩
    rw [if_pos hc, hgoal]
    by_cases he : existsAt cwd w.disk u.fullPath.parentPath = true
    · simp [madeDir, he, hwrite]
    · simp only [he, if_false, Bool.false_eq_true, List.singleton_append, List.forall_mem_cons,
        hmake, and_iff_left_iff_imp]
      intro hR a ha
      split_ifs at ha with hm
      · rw [List.mem_singleton.mp ha]
        exact hwrite.mpr hR
      · exact absurd ha List.not_mem_nil
  · rw [if_neg hc]
    exact ⟨fun _ h1 h2 => absurd ⟨h1, h2⟩ hc, fun _ a ha => absurd ha List.not_mem_nil⟩

end Methods

/-! ### Requests -/

section Requests
variable {basePath : Path} {cwd : Loc Str} {loc url : Str} {req : Request} {res : Response}
  {R : Loc Str → Prop}

/-- A number at the end of a target is a name. -/
theorem comp_leaf (h : number url ≠ 0) : leaf url ≠ [] ∧ comp (leaf url) = .name (leaf url) := by
  unfold number at h
  cases hk : stoi (leaf url) with
  | none => simp [hk] at h
  | some k =>
    obtain ⟨c, hc, hd⟩ := exists_isDigit_of_stoi hk
    have hdot : c ≠ '.' := by rintro rfl; exact absurd hd (by decide)
    refine ⟨List.ne_nil_of_mem hc, ?_⟩
    rw [comp, if_neg fun e => hdot ?_, if_neg fun e => hdot ?_]
    · simpa [e] using hc
    · simpa [e] using hc

/-- The file of a `PUT` lies in the directory the `PUT` makes. -/
theorem resolve_numbered (hbase : basePath.pathname ≠ []) (hhead : url.head? = some '/')
    (hne : stripped url ≠ []) (hnum : number url ≠ 0)
    (hsame : (basePath.append (stripped url)).parentPath.parentPath.same basePath = true) :
    ∃ x, (basePath.append (stripped url)).resolve cwd =
      (basePath.append (stripped url)).parentPath.resolve cwd ++ [x] := by
  have hsh := (head_stripped hhead).resolve_left hne
  obtain ⟨a, b, hs, hb⟩ := exists_last (List.mem_of_head? hsh)
  obtain ⟨-, rfl⟩ := cut_eq hs hb
  obtain ⟨hlne, hcomp⟩ := comp_leaf hnum
  have hpath : (basePath.append (stripped url)).pathname =
      (basePath.pathname ++ a) ++ '/' :: leaf url := by
    unfold Path.append
    rw [if_neg hne, if_pos (Or.inr (Or.inr hsh)), hs]
    simp
  have hq : (basePath.append (stripped url)).parentPath.elements ≠ [] := by
    intro hnil
    rw [same_iff, elements_parentPath, hnil] at hsame
    exact elements_ne_nil hbase hsame.symm
  refine ⟨leaf url, ?_⟩
  rw [resolve_parentPath cwd hpath hlne hb hq, hcomp]
  rfl

/-- The accesses of a request to the API, for any region. -/
theorem inside_api {h : RequestHandlerAPI} (hbase : h.basePath.pathname ≠ []) (w : World Tree)
    (hurl : req.target.drop h.prefixLength = url) :
    (∀ a ∈ apiLog h cwd req res w, Inside R cwd a) ↔
      ApiStays h.basePath cwd req.method url w
        (R (Lib.Files.resolve (h.basePath.resolve cwd) (steps url)))
        (LiesIn R (Lib.Files.resolve (h.basePath.resolve cwd) (steps url))) := by
  have hlog : apiLog h cwd req res w = accesses h cwd req w := by
    rw [apiLog, logged_getResponse, logOf_record, List.nil_append]
  rw [hlog]
  unfold accesses RequestHandlerAPI.parseUrlTarget
  by_cases hlen : h.prefixLength ≤ req.target.length
  · have hsub : substr req.target h.prefixLength = some url := by
      rw [← hurl]
      simp [substr, hlen]
    rw [hsub]
    by_cases hok : url.head? = some '/' ∧ stripped url ≠ []
    · obtain ⟨hhead, hne⟩ := hok
      have hfull : (h.basePath.append (stripped url)).pathname ≠ [] := by
        unfold Path.append
        split_ifs <;> simp [hbase]
      have hres : (h.basePath.append (stripped url)).resolve cwd =
          Lib.Files.resolve (h.basePath.resolve cwd) (steps url) := resolve_append hbase cwd _
      simp only [parseUrl_eq h.basePath hhead hne]
      rw [← hres]
      simp only [if_true, ApiStays, hhead, hne, ne_eq, not_false_eq_true, forall_const]
      cases req.method with
      | post => exact inside_creates hfull
      | get => exact inside_retrieves
      | put => exact inside_updates (resolve_numbered hbase hhead hne)
      | delete => exact inside_removes
      | _ => simp
    · obtain ⟨u, hu, hno⟩ := parseUrl_not_ok h.basePath hok
      simp only [hu, hno, Bool.false_eq_true, if_false]
      exact ⟨fun _ h1 h2 => absurd ⟨h1, h2⟩ hok, fun _ a ha => absurd ha List.not_mem_nil⟩
  · -- the target is shorter than the prefix, and `substr` throws
    have hsub : substr req.target h.prefixLength = none := by simp [substr, hlen]
    have hnil : url = [] := by rw [← hurl, List.drop_eq_nil_of_le (by omega)]
    rw [hsub]
    exact ⟨fun _ h1 => absurd h1 (by simp [hnil]), fun _ a ha => absurd ha List.not_mem_nil⟩

/-- The accesses of a request to the static handler, for any region. -/
theorem inside_static (hbase : basePath.pathname ≠ []) (ht : req.target = loc ++ url) (t : Tree) :
    (∀ a ∈ staticLog ⟨basePath, loc.length⟩ cwd req res t, Inside R cwd a) ↔
      StaticStays basePath cwd req.method url t
        (LiesIn R (Lib.Files.resolve (basePath.resolve cwd) (Path.comps ⟨url⟩))) := by
  have hlog : staticLog ⟨basePath, loc.length⟩ cwd req res t =
      if req.method = .get then serves cwd t (basePath.append url) else [] := by
    unfold staticLog RequestHandlerStatic.getResponse
    rw [ht, substr_append]
    cases req.method with
    | get =>
      rw [if_pos rfl]
      simp only [logged_serveFile]
      cases (serveFile (realFileSystem cwd) res (basePath.append url)).run t <;> rfl
    | _ => rfl
  rw [hlog, ← resolve_append hbase cwd url]
  unfold StaticStays Regular serves
  by_cases hm : req.method = .get
  · rw [if_pos hm]
    split_ifs with hreg
    · rw [Bool.and_eq_true] at hreg
      simp [hm, hreg.1, hreg.2, Inside]
    · rw [Bool.and_eq_true] at hreg
      exact ⟨fun _ _ h => absurd h hreg, fun _ a ha => absurd ha List.not_mem_nil⟩
  · simp [hm]

/-- **The accesses are inside the base path** exactly if the steps of the target do not leave it
where the handler goes on to an access. -/
theorem confined_iff (hbase : basePath.pathname ≠ []) (ht : req.target = loc ++ url)
    (w : World Tree) :
    ((∀ a ∈ apiLog ⟨basePath, loc.length⟩ cwd req res w, Inside (basePath.resolve cwd <+: ·) cwd a) ↔
      ApiStays basePath cwd req.method url w (StaysBelow (basePath.resolve cwd) (steps url))
        (EndsBelow (basePath.resolve cwd) (steps url))) ∧
    ((∀ a ∈ staticLog ⟨basePath, loc.length⟩ cwd req res w.disk,
        Inside (basePath.resolve cwd <+: ·) cwd a) ↔
      StaticStays basePath cwd req.method url w.disk
        (EndsBelow (basePath.resolve cwd) (Path.comps ⟨url⟩))) := by
  constructor
  · have hurl : req.target.drop loc.length = url := by rw [ht, List.drop_left]
    rw [inside_api hbase w hurl, isPrefix_resolve_iff, liesIn_isPrefix, under_resolve_iff]
  · rw [inside_static hbase ht w.disk, liesIn_isPrefix, under_resolve_iff]

end Requests

/-- A `PUT` below the entity `..`. -/
def upwards : Request := ⟨.put, "/api/../1".toList, 11, [], "x".toList⟩

/-- **A PUT may write outside**: the path above the path above is the base path, by its text. -/
theorem put_escapes : ∃ a ∈ apiLog ⟨⟨"data".toList⟩, 4⟩ [] upwards {} ⟨withDir "data".toList, ∅⟩,
    ¬ Inside (["data".toList] <+: ·) [] a := by
  refine ⟨.writeFile ⟨"data/../1".toList⟩, by decide +kernel, ?_⟩
  show ¬ LiesIn _ _
  rw [liesIn_isPrefix, under_iff]
  decide

/-- A `PUT` of an object. -/
def shoes : Request := ⟨.put, "/api/shoes/1".toList, 11, [], "red".toList⟩

/-- It writes inside. -/
theorem put_shoes_stays : (apiLog ⟨⟨"data".toList⟩, 4⟩ [] shoes {} ⟨withDir "data".toList, ∅⟩).Forall
    (Inside (["data".toList] <+: ·) []) := by
  have hstays : EndsBelow ["data".toList] (steps "/shoes/1".toList) := by decide
  have hiff := (@confined_iff ⟨"data".toList⟩ [] "/api".toList "/shoes/1".toList shoes {} (by decide)
    rfl ⟨withDir "data".toList, ∅⟩).1
  exact List.forall_iff_forall_mem.mpr (hiff.mpr fun _ _ _ _ => hstays)

end Kachow.Api.Confinement
