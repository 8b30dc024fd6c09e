import Kachow.Api.Confinement
import Kachow.Secure.Handler
import Kachow.Lib.Runs

/-! # Where the accesses of a user lead

A private user's own region are the directories directly under the private data whose name begins with
the user's name, and what lies under them (`Own`); the region of the public users is the public data.
The user's name is put in front of the first name of the target, but nothing keeps the steps after it
from going up again. So the accesses are inside the region exactly if the steps, without their detours,
begin with such a name (`secure_confined_iff`). -/

namespace Kachow.Secure.Confinement

open Kachow.Lib.Text Kachow.Lib.Files Kachow.Lib.Runs Kachow.Boost.Paths Kachow.Http.Messages
open Kachow.Disk Kachow.Api.Handler Kachow.Api.Target Kachow.Api.Accesses Kachow.Api.Confinement
open Kachow.Secure.Handler

/-- The directories of the user under `P`, and what lies under them. -/
def Own (P : Loc Str) (userId : Str) (l : Loc Str) : Prop :=
  ∃ d r, l = P ++ d :: r ∧ userId ++ ['_'] <+: d

/-- The steps lead to a directory of the user, or under one. -/
def EntersOwn (P : Loc Str) (userId : Str) (cs : List (Comp Str)) : Prop :=
  StaysBelow P cs ∧ ∃ d ∈ (beyond P cs).head?, userId ++ ['_'] <+: d

/-- The steps lead under a directory of the user. -/
def EndsInOwn (P : Loc Str) (userId : Str) (cs : List (Comp Str)) : Prop :=
  EntersOwn P userId cs ∧ 1 < (beyond P cs).length

section Regions
variable {P : Loc Str} {userId : Str} {cs : List (Comp Str)}

theorem own_resolve_iff : Own P userId (Lib.Files.resolve P cs) ↔ EntersOwn P userId cs := by
  unfold Own EntersOwn
  constructor
  · rintro ⟨d, r, h, hd⟩
    obtain ⟨hs, hb⟩ := (resolve_eq_append_iff P cs _).mp h
    exact ⟨hs, d, by rw [hb]; rfl, hd⟩
  · rintro ⟨hs, d, hmem, hd⟩
    obtain ⟨r, hr⟩ := List.head?_eq_some_iff.mp hmem
    exact ⟨d, r, (resolve_eq_append_iff P cs _).mpr ⟨hs, hr⟩, hd⟩

theorem liesIn_own_iff :
    LiesIn (Own P userId) (Lib.Files.resolve P cs) ↔ EndsInOwn P userId cs := by
  unfold EndsInOwn
  rw [← own_resolve_iff]
  constructor
  · rintro ⟨m, x, h, d, r, rfl, hd⟩
    have happ : Lib.Files.resolve P cs = P ++ d :: (r ++ [x]) := by rw [h]; simp
    refine ⟨⟨d, r ++ [x], happ, hd⟩, ?_⟩
    rw [((resolve_eq_append_iff P cs _).mp happ).2]
    simp
  · rintro ⟨⟨d, r, h, hd⟩, hlen⟩
    rw [((resolve_eq_append_iff P cs _).mp h).2] at hlen
    rcases List.eq_nil_or_concat r with rfl | ⟨r, x, rfl⟩
    · simp at hlen
    · exact ⟨P ++ d :: r, x, by rw [h]; simp, d, r, rfl, hd⟩

end Regions

/-- Where the accesses of a request may lead. -/
def region (dataPath : Str) (cwd : Loc Str) : Principal → Loc Str → Prop
  | .user userId => Own (Path.resolve cwd ⟨dataPath ++ "/priv".toList⟩) userId
  | .publicUser => (Path.resolve cwd ⟨dataPath ++ "/pub".toList⟩ <+: ·)
  | .unauthenticated => fun _ => False

/-- **When the accesses of a request stay in its region.** For a private user it is the target with the
user's name that counts. -/
def SecureStays (dataPath : Str) (prefixLength : ℕ) (cwd : Loc Str) (req : Request) (w : World Tree) :
    Principal → Prop
  | .user userId =>
    let P := Path.resolve cwd ⟨dataPath ++ "/priv".toList⟩
    let req' := retarget prefixLength userId req
    let url := req'.target.drop prefixLength
    prefixLength + 1 < req.target.length →
      ApiStays ⟨dataPath ++ "/priv".toList⟩ cwd req'.method url w (EntersOwn P userId (steps url))
        (EndsInOwn P userId (steps url))
  | .publicUser =>
    let P := Path.resolve cwd ⟨dataPath ++ "/pub".toList⟩
    let url := req.target.drop prefixLength
    ApiStays ⟨dataPath ++ "/pub".toList⟩ cwd req.method url w (StaysBelow P (steps url))
      (EndsBelow P (steps url))
  | .unauthenticated => True

/-- The accesses of a request. -/
def secureLog (h : SecureRequestHandlerAPI) (cwd : Loc Str) (req : Request) (res : Response)
    (w : World Tree) : List Access :=
  logOf ((h.getResponse (logged (realFileSystem cwd)) req res).run (logging w []))

/-- A target that is just the prefix, or the prefix and one character, names nothing. -/
theorem apiStays_short {basePath : Path} {cwd : Loc Str} {method : Verb} {url : Str} {w : World Tree}
    {dirOk fileOk : Prop} (h : url.length ≤ 1) :
    ApiStays basePath cwd method url w dirOk fileOk := by
  intro hhead hne
  match url, h with
  | [], _ => simp at hhead
  | [c], _ =>
    obtain rfl : c = '/' := by simpa using hhead
    exact absurd rfl hne

/-- **The accesses of a request are in the region of its sender** exactly if its steps stay there. -/
theorem secure_confined_iff (dataPath : Str) (prefixLength : ℕ) (authorizer : Auth) (cwd : Loc Str)
    (req : Request) (res : Response) (w : World Tree) :
    (∀ a ∈ secureLog (secureHandler dataPath prefixLength authorizer) cwd req res w,
      Inside (region dataPath cwd (principalOf authorizer req)) cwd a) ↔
    SecureStays dataPath prefixLength cwd req w (principalOf authorizer req) := by
  unfold secureLog
  rw [getResponse_eq]
  cases principalOf authorizer req with
  | unauthenticated => exact ⟨fun _ => trivial, fun _ a ha => absurd ha List.not_mem_nil⟩
  | publicUser =>
    have hbase : (⟨dataPath ++ "/pub".toList⟩ : Path).pathname ≠ [] := by simp
    refine (@inside_api cwd _ req res (region dataPath cwd .publicUser)
      ⟨⟨dataPath ++ "/pub".toList⟩, prefixLength⟩ hbase w rfl).trans ?_
    simp only [region, SecureStays, isPrefix_resolve_iff, liesIn_isPrefix, under_resolve_iff]
  | user userId =>
    have hbase : (⟨dataPath ++ "/priv".toList⟩ : Path).pathname ≠ [] := by simp
    dsimp only
    by_cases hlen : req.target.length ≤ prefixLength + 1
    · rw [if_pos hlen]
      refine ⟨fun _ h => absurd hlen (by omega), fun _ => ?_⟩
      refine (inside_api (h := ⟨⟨dataPath ++ "/priv".toList⟩, prefixLength⟩) hbase w rfl).mpr ?_
      refine apiStays_short ?_
      show (req.target.drop prefixLength).length ≤ 1
      rw [List.length_drop]
      omega
    · rw [if_neg hlen]
      refine (@inside_api cwd _ (retarget prefixLength userId req) res
        (region dataPath cwd (.user userId)) ⟨⟨dataPath ++ "/priv".toList⟩, prefixLength⟩ hbase w
        rfl).trans ?_
      simp only [region, SecureStays, own_resolve_iff, liesIn_own_iff]
      exact ⟨fun h _ => h, fun h => h (by omega)⟩

/-! ### A user deletes what another has stored -/

/-- A request of the user with the token. -/
def asked (token : Str) (method : Verb) (target : Str) : Request :=
  ⟨method, target, 11, [("Authorization".toList, "Bearer ".toList ++ token)], "x".toList⟩

/-- The handler under `data`, on the real file system. -/
def serveData (i : Request × Response) : EStateM Fault (World Tree) (Bool × Response) :=
  serveSecure "data".toList 4 FakeAuth.getAuth (realFileSystem []) i.1 i.2

/-- Both users store an object. -/
def stored : List (Request × Response) :=
  [(asked "PRIVAUTH1".toList .post "/api/x".toList, {}),
    (asked "PRIVAUTH2".toList .post "/api/e".toList, {})]

/-- The first user asks to delete the object of the second one. -/
def trespass : Request := asked "PRIVAUTH1".toList .delete "/api/x/../priv2_e/1".toList

/-- **A user's request may leave the user's region.** -/
theorem delete_escapes : ∃ os w, (runAll serveData stored).run ⟨withDir "data".toList, ∅⟩ = .ok os w ∧
    ∃ a ∈ secureLog (secureHandler "data".toList 4 FakeAuth.getAuth) [] trespass {} w,
      ¬ Inside (region "data".toList [] (principalOf FakeAuth.getAuth trespass)) [] a := by
  obtain ⟨os, w, hrun, hw⟩ := after_iff.mp (show after (runAll serveData stored)
    ⟨withDir "data".toList, ∅⟩ (fun _ w => decide
      (Access.remove ⟨"data/priv/priv1_x/../priv2_e/1".toList⟩ ∈
        secureLog (secureHandler "data".toList 4 FakeAuth.getAuth) [] trespass {} w)) = true from by
          decide +kernel)
  refine ⟨os, w, hrun, _, of_decide_eq_true hw, ?_⟩
  have hplace : Path.resolve [] ⟨"data/priv/priv1_x/../priv2_e/1".toList⟩ =
      ["data".toList, "priv".toList, "priv2_e".toList, "1".toList] := by decide
  have hregion : region "data".toList [] (principalOf FakeAuth.getAuth trespass) =
      Own ["data".toList, "priv".toList] "priv1".toList := by
    have hwho : principalOf FakeAuth.getAuth trespass = .user "priv1".toList := by decide
    rw [hwho]
    rfl
  show ¬ LiesIn _ _
  rw [hplace, hregion]
  rintro ⟨m, x, h, d, r, rfl, hd⟩
  simp only [List.cons_append, List.nil_append, List.cons.injEq] at h
  rw [← h.2.2.1] at hd
  exact absurd hd (by decide)

end Kachow.Secure.Confinement
