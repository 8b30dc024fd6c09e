import Kachow.Secure.Stores

/-! # Whether users notice each other

The two areas are apart on the disk, but the map of identifiers is one, and its keys are the names the
handlers of the areas see: `e` for a public user and `owned u e` for the private user `u`. A request
uses the cell of its key (`keyOf`) and no other (`oneCell`). So if no request of `p` has a key a request
of `q` has, those of `q` can be deleted from a run, and `p` does not notice (`purged_alike`). But keys can
meet: the entity `priv1_x` of a public user has the key of the entity `x` of the user `priv1`. -/

namespace Kachow.Secure.Interference

open Kachow.Lib.Text Kachow.Lib.Files Kachow.Lib.Runs Kachow.Boost.Paths Kachow.Http.Messages
open Kachow.Disk Kachow.Api.Ids Kachow.Api.Handler Kachow.Api.Objects Kachow.Api.StoreStep
open Kachow.Api.Frame Kachow.Secure.Handler Kachow.Secure.Stores

variable {authorizer : Auth} {loc : Str}

/-- The key of a request in the map of identifiers, if it comes to use one. -/
def keyOf (i : SecureRequest authorizer loc) : Option Str :=
  match i.inner with
  | some (_, r) => if UsesName r then some r.entity else none
  | none => none

/-- Two vaults have the same under the name `x`: in both areas, and in the map. -/
def SameName (x : Str) (v v' : Vault) : Prop :=
  ∀ a, Alike (v.store a) v.ids x (v'.store a) v'.ids x

theorem equivalence_sameName (x : Str) : Equivalence (SameName x) where
  refl _ _ := ⟨rfl, fun _ => rfl, rfl⟩
  symm h a := (h a).symm
  trans h h' a := (h a).trans (h' a)

/-- A change in one area that leaves the cell `x` alone there leaves it alone. -/
theorem sameName_set {v : Vault} {a : Area} {s : Store} {m : EntityIdMap} {x : Str}
    (h : Alike (v.store a) v.ids x s m x) : SameName x v (v.set a s m) := by
  intro b
  by_cases hb : b = a
  · subst hb
    simpa [Vault.set] using h
  · simp only [Vault.set, if_neg hb]
    exact ⟨rfl, fun _ => rfl, h.lookup⟩

/-- A request without a key changes nothing, and is answered alike in every state. -/
theorem vaultStep_of_keyOf_none {i : SecureRequest authorizer loc} (h : keyOf i = none)
    (res : Response) : ∃ o, ∀ v x o' v', vaultStep v i res = .ok (o', v') → o' = o ∧ SameName x v v' := by
  unfold keyOf at h
  cases hi : i.inner with
  | none =>
    refine ⟨refusal i res, fun v x o' v' hstep => ?_⟩
    rcases vaultStep_ok hstep with ⟨-, rfl, rfl⟩ | ⟨a, r, s, m, ha, -⟩
    · exact ⟨rfl, (equivalence_sameName x).refl v'⟩
    · rw [hi] at ha
      cases ha
  | some ar =>
    obtain ⟨a, r⟩ := ar
    simp only [hi] at h
    have huse : ¬ UsesName r := fun hu => by simp [hu] at h
    obtain ⟨o, ho⟩ := respond_of_not_usesName huse res
    refine ⟨o, fun v x o' v' hstep => ?_⟩
    rcases vaultStep_ok hstep with ⟨ha, -⟩ | ⟨b, q, s, m, hb, hr, rfl⟩
    · rw [hi] at ha
      cases ha
    · rw [hi] at hb
      obtain ⟨rfl, rfl⟩ := Prod.mk.inj (Option.some.inj hb)
      rw [ho] at hr
      obtain ⟨rfl, rfl, rfl⟩ := Except.ok.inj hr
      exact ⟨rfl, sameName_set ⟨rfl, fun _ => rfl, rfl⟩⟩

/-- **A request uses one cell**, that of its key. -/
theorem oneCell : OneCell (@stepVault authorizer loc) SameName
    (fun i => keyOf i.1) where
  equiv := equivalence_sameName
  frame := by
    intro i v o v' x hrun hx
    have hstep := run_stepVault.mp hrun
    cases hkey : keyOf i.1 with
    | none =>
      obtain ⟨o', ho⟩ := vaultStep_of_keyOf_none hkey i.2
      exact (ho v x o v' hstep).2
    | some y =>
      rcases vaultStep_ok hstep with ⟨-, -, rfl⟩ | ⟨a, r, s, m, hi, hr, rfl⟩
      · exact (equivalence_sameName x).refl v'
      · unfold keyOf at hx
        simp only [hi] at hx
        have huse : UsesName r := by
          by_contra hu
          simp [keyOf, hi, hu] at hkey
        refine sameName_set (alike_of_change (change_respond hr) fun he => hx ?_)
        rw [if_pos huse, he]
  agree := by
    intro i v w o o' v' w' hsame hrun hrun'
    have hstep := run_stepVault.mp hrun
    have hstep' := run_stepVault.mp hrun'
    cases hkey : keyOf i.1 with
    | none =>
      obtain ⟨p, hp⟩ := vaultStep_of_keyOf_none hkey i.2
      refine ⟨?_, fun x hx => by cases hx⟩
      rw [(hp v [] o v' hstep).1, (hp w [] o' w' hstep').1]
    | some y =>
      have hcell := hsame y hkey
      rcases vaultStep_ok hstep with ⟨hi, -⟩ | ⟨a, r, s, m, hi, hr, rfl⟩
      · simp [keyOf, hi] at hkey
      rcases vaultStep_ok hstep' with ⟨hi', -⟩ | ⟨b, q, t, n, hi', hr', rfl⟩
      · simp [keyOf, hi'] at hkey
      rw [hi] at hi'
      obtain ⟨rfl, rfl⟩ := Prod.mk.inj (Option.some.inj hi')
      obtain rfl : r.entity = y := by
        unfold keyOf at hkey
        simp only [hi] at hkey
        split_ifs at hkey
        exact Option.some.inj hkey
      have hres := @respond_alike _ _ _ _ r r i.2 rfl rfl rfl (fun _ _ => rfl) (Or.inl rfl) (hcell a)
      rw [hr, hr'] at hres
      cases hres with
      | ok halike =>
        refine ⟨rfl, fun x hx b => ?_⟩
        obtain rfl := Option.some.inj hx
        by_cases hb : b = a
        · subst hb
          simpa [Vault.set] using halike
        · simp only [Vault.set, if_neg hb]
          exact ⟨(hcell b).made, (hcell b).content, halike.lookup⟩

/-- **The users do not notice each other**, where they share no key. From any state, a run of requests
that exhausts no entity, and the run without those of `q`, both come to their end; and if no request of
`p` has a key a request of `q` has, the answers `p` gets are the same. -/
theorem purged_alike {dataPath : Str} {cwd D : Loc Str} {w : World Tree} {v : Vault}
    (hdp : dataPath ≠ ['/']) (hv : HoldsVault dataPath cwd D w v) {p q : Sender} (hpq : p ≠ q)
    {is : List (SecureRequest authorizer loc × Response)}
    (hkeys : ∀ i ∈ is, ∀ j ∈ is, i.1.sender = p → j.1.sender = q →
      ∀ x, keyOf i.1 = some x → keyOf j.1 ≠ some x)
    (hroom : Along (serveVault dataPath authorizer cwd loc) Room w is)
    (hroom' : Along (serveVault dataPath authorizer cwd loc) Room w
      (is.filter fun i => i.1.sender ≠ q)) :
    ∃ os w₁ os' w₂, (runAll (serveVault dataPath authorizer cwd loc) is).run w = .ok os w₁ ∧
      (runAll (serveVault dataPath authorizer cwd loc) (is.filter fun i => i.1.sender ≠ q)).run w =
        .ok os' w₂ ∧
      outputsOf (fun i => i.1.sender = p) is os =
        outputsOf (fun i => i.1.sender = p) (is.filter fun i => i.1.sender ≠ q) os' := by
  obtain ⟨os, w₁, v₁, hrun, hvault, -⟩ := runs_both hdp hv hroom
  obtain ⟨os', w₂, v₂, hrun', hvault', -⟩ := runs_both hdp hv hroom'
  refine ⟨os, w₁, os', w₂, hrun, hrun', ?_⟩
  -- the cells that may differ are those of the keys of `q`
  have hobs : ∀ i : SecureRequest authorizer loc × Response, decide (i.1.sender = p) = true →
      decide (i.1.sender ≠ q) = true := fun i hi => by
    rw [decide_eq_true_eq] at hi ⊢
    rw [hi]
    exact hpq
  refine purge oneCell (Q := fun x => ∃ j ∈ is, j.1.sender = q ∧ keyOf j.1 = some x) hobs
    (fun i hi hk x hx => ⟨i, hi, by simpa using hk, hx⟩) (fun i hi ho x hx => ?_)
    (fun x _ => (equivalence_sameName x).refl v) hvault hvault'
  rintro ⟨j, hj, hjq, hjx⟩
  exact hkeys i hi j hj (by simpa using ho) hjq x hx hjx

theorem noSlash_priv1 : '/' ∉ "priv1".toList := by decide

/-- The first of the private users. -/
def priv1 : UserId := ⟨"priv1".toList, noSlash_priv1⟩

theorem principal_priv1 : principalOf FakeAuth.getAuth
    (withFields [("Authorization".toList, "Bearer PRIVAUTH1".toList)]) = .user "priv1".toList := by decide

theorem principal_pub1 : principalOf FakeAuth.getAuth
    (withFields [("Authorization".toList, "Bearer PUBAUTH1".toList)]) = .publicUser := by decide

/-- A private user makes hats, and a public one asks for shoes. -/
def hatsAndShoes : List (SecureRequest FakeAuth.getAuth "/api".toList × Response) :=
  [(⟨⟨.post, "hats".toList, isName_hats, none, false, 11,
      [("Authorization".toList, "Bearer PRIVAUTH1".toList)], "felt".toList⟩, .user priv1,
      (principalOf_congr rfl).trans principal_priv1⟩, {}),
    (⟨⟨.get, "shoes".toList, isName_shoes, none, false, 11,
      [("Authorization".toList, "Bearer PUBAUTH1".toList)], []⟩, .publicUser,
      (principalOf_congr rfl).trans principal_pub1⟩, {})]

theorem purged_alike_hats : ∃ os w₁ os' w₂,
    (runAll (serveVault "data".toList FakeAuth.getAuth [] "/api".toList) hatsAndShoes).run
      ⟨withDir "data".toList, ∅⟩ = .ok os w₁ ∧
    (runAll (serveVault "data".toList FakeAuth.getAuth [] "/api".toList)
      (hatsAndShoes.filter fun i => i.1.sender ≠ .user priv1)).run
      ⟨withDir "data".toList, ∅⟩ = .ok os' w₂ ∧
    outputsOf (fun i => i.1.sender = .publicUser) hatsAndShoes os =
      outputsOf (fun i => i.1.sender = .publicUser)
        (hatsAndShoes.filter fun i => i.1.sender ≠ .user priv1) os' := by
  have hfresh : FreshVault "data".toList [] ["data".toList] ⟨withDir "data".toList, ∅⟩ :=
    freshVault_withDir (by decide) (by decide) (by decide)
  have hget : ∀ w : World Tree, Room w (hatsAndShoes.getLast (by simp [hatsAndShoes])) := by
    intro w a r hi hm
    cases hi
    cases hm
  refine purged_alike (p := .publicUser) (q := .user priv1) (by decide) hfresh.holds (by decide) ?_
    ⟨fun a r hi _ _ hn => ?_, fun _ _ _ => ⟨hget _, fun _ _ _ => trivial⟩⟩ ⟨hget _, fun _ _ _ => trivial⟩
  · intro i hi j hj hp hq x hx
    have hname : owned priv1 "hats".toList ≠ "shoes".toList := by decide
    -- the first request is that of the private user, and the second the public one
    simp only [hatsAndShoes, List.mem_cons, List.not_mem_nil, or_false] at hi hj
    rcases hi with rfl | rfl
    · cases hp
    · rcases hj with rfl | rfl
      · obtain rfl : "shoes".toList = x := Option.some.inj hx
        exact fun hkey => hname (Option.some.inj hkey)
      · cases hq
  · cases hi
    rw [nextFree_eq_none] at hn
    exact absurd (hn 1 le_rfl (by decide)) (by simp)

end Kachow.Secure.Interference
