import Kachow.Secure.Tokens

/-! # The user of a token

`TokenAuth::get_auth` sets the user in the middle of its `try` block: after the token has been verified,
and before its email address is read. What goes wrong before that leaves the user as it was; a claim
`email` that is missing or no string does not, though the level is `noAuth` then (`user_changes`). Up to
this a user is set with a level, and with no other (`userId_iff`). -/

namespace Kachow.Secure.UserId

open Kachow.Lib.Text Kachow.Lib.Files Kachow.Boost.Paths Kachow.Disk Kachow.Secure.Handler
open Kachow.Secure.Tokens

/-- `TokenAuth::get_auth`, with the user as the caller has it. -/
def getAuthFrom (jwt : Jwt) (cwd : Loc Str) (t : Tree) (now : ℤ) (a : TokenAuth) (userId : Str)
    (idToken : Str) : AuthLevel × Str :=
  match (tryAuth jwt a (readAt cwd t ⟨a.publicKeyPath⟩) now idToken).run userId with
  | .ok level userId => (level, userId)
  | .error _ userId => (.noAuth, userId)

/-- The handlers call it with an empty user. -/
theorem getAuth_eq_from (jwt : Jwt) (cwd : Loc Str) (t : Tree) (now : ℤ) (a : TokenAuth) :
    a.getAuth jwt cwd t now = getAuthFrom jwt cwd t now a [] := rfl

/-- **The user is set with a level**: without one it is as it was, and with one it is the claim `sub`. -/
structure SetsUser (jwt : Jwt) (cwd : Loc Str) (t : Tree) (now : ℤ) (a : TokenAuth)
    (userId idToken : Str) : Prop where
  unchanged : (getAuthFrom jwt cwd t now a userId idToken).1 = .noAuth →
    (getAuthFrom jwt cwd t now a userId idToken).2 = userId
  subject : (getAuthFrom jwt cwd t now a userId idToken).1 ≠ .noAuth → ∃ d, jwt.decode idToken = some d ∧
    claim d.payload "sub".toList = some (.string (getAuthFrom jwt cwd t now a userId idToken).2)

/-! ### The checks -/

section Checks
variable (jwt : Jwt) (a : TokenAuth) (pem : Str) (now : ℤ) (idToken : Str)

/-- The token passes all checks up to its claim `sub`, which is this user. -/
structure Identifies (d : DecodedJwt) (certList : Claims) (keyId cert issuer key : Str)
    (aud : List Str) (rsaKey : jwt.Key) (user : Str) : Prop where
  decodes : jwt.decode idToken = some d
  hasCerts : (jwt.parse pem).bind Json.asObject = some certList
  hasKid : stringClaim d.header "kid".toList = some keyId
  hasIss : stringClaim d.payload "iss".toList = some issuer
  issuer_ne : issuer ≠ []
  hasCert : ((claim certList keyId).getD .null).asString = some cert
  hasKey : keyText jwt issuer cert = some key
  hasAud : audience d.payload = some aud
  client : a.clientId ∈ aud
  usable : jwt.rs256 key = some rsaKey
  verifies : jwt.verify rsaKey a.requiredIssuer now d = true
  hasSub : stringClaim d.payload "sub".toList = some user

/-- Some key of the file makes it pass. -/
def Identified (d : DecodedJwt) (user : Str) : Prop := ∃ certList keyId cert issuer key aud rsaKey,
  Identifies jwt a pem now idToken d certList keyId cert issuer key aud rsaKey user

/-- The token passes all checks up to its claim `sub`, and its claim `email` is missing or no string. -/
def LacksEmail (user : Str) : Prop :=
  ∃ d, Identified jwt a pem now idToken d user ∧ stringClaim d.payload "email".toList = none

variable {jwt a pem now idToken}

/-- A value that is there is passed on. -/
theorem run_orThrow {α β : Type} {x : Option α} {v : α} {f : α → EStateM Unit Str β} {u : Str}
    (h : x = some v) : (orThrow x >>= f).run u = (f v).run u := by
  subst h
  rfl

/-- One that is missing is thrown, and the user is as it was. -/
theorem run_orThrow_none {α β : Type} {x : Option α} {f : α → EStateM Unit Str β} {u : Str}
    (h : x = none) : (orThrow x >>= f).run u = .error () u := by
  subst h
  rfl

/-- **A token that passes** sets the user, and then its email address is read. -/
theorem run_identified {d : DecodedJwt} {user : Str} (h : Identified jwt a pem now idToken d user)
    (u : Str) : (tryAuth jwt a pem now idToken).run u =
      match stringClaim d.payload "email".toList with
      | some email => .ok (levelOf email) user
      | none => .error () user := by
  obtain ⟨certList, keyId, cert, issuer, key, aud, rsaKey, h⟩ := h
  unfold tryAuth
  rw [run_orThrow h.decodes, run_orThrow h.hasCerts, run_orThrow h.hasKid, run_orThrow h.hasIss,
    if_neg h.issuer_ne, run_orThrow h.hasCert, run_orThrow h.hasKey, run_orThrow h.hasAud,
    if_neg (not_not.mpr h.client), run_orThrow h.usable, if_pos h.verifies, run_orThrow rfl,
    run_orThrow h.hasSub]
  rcases he : stringClaim d.payload "email".toList with - | email
  · rfl
  · rfl

/-- **One that does not** gets no level, and the user is as it was. -/
theorem run_not_identified (h : ¬ ∃ d user, Identified jwt a pem now idToken d user) (u : Str) :
    (tryAuth jwt a pem now idToken).run u = .ok .noAuth u ∨
      (tryAuth jwt a pem now idToken).run u = .error () u := by
  unfold tryAuth
  rcases h1 : jwt.decode idToken with - | d
  · exact Or.inr (run_orThrow_none rfl)
  rw [run_orThrow rfl]
  rcases h2 : (jwt.parse pem).bind Json.asObject with - | certList
  · exact Or.inr (run_orThrow_none rfl)
  rw [run_orThrow rfl]
  rcases h3 : stringClaim d.header "kid".toList with - | keyId
  · exact Or.inr (run_orThrow_none rfl)
  rw [run_orThrow rfl]
  rcases h4 : stringClaim d.payload "iss".toList with - | issuer
  · exact Or.inr (run_orThrow_none rfl)
  rw [run_orThrow rfl]
  by_cases hiss : issuer = []
  · rw [if_pos hiss]
    exact Or.inl rfl
  rw [if_neg hiss]
  rcases h5 : ((claim certList keyId).getD .null).asString with - | cert
  · exact Or.inr (run_orThrow_none rfl)
  rw [run_orThrow rfl]
  rcases h6 : keyText jwt issuer cert with - | key
  · exact Or.inr (run_orThrow_none rfl)
  rw [run_orThrow rfl]
  rcases h7 : audience d.payload with - | aud
  · exact Or.inr (run_orThrow_none rfl)
  rw [run_orThrow rfl]
  by_cases haud : a.clientId ∈ aud
  swap
  · rw [if_pos haud]
    exact Or.inl rfl
  rw [if_neg (not_not.mpr haud)]
  rcases h8 : jwt.rs256 key with - | rsaKey
  · exact Or.inr (run_orThrow_none rfl)
  rw [run_orThrow rfl]
  by_cases hver : jwt.verify rsaKey a.requiredIssuer now d = true
  swap
  · rw [if_neg hver]
    exact Or.inr (run_orThrow_none rfl)
  rw [if_pos hver, run_orThrow rfl]
  rcases h9 : stringClaim d.payload "sub".toList with - | user
  · exact Or.inr (run_orThrow_none rfl)
  · exact absurd ⟨d, user, certList, keyId, cert, issuer, key, aud, rsaKey, h1, h2, h3, h4, hiss, h5, h6,
      h7, haud, h8, hver, h9⟩ h

/-- A token has one user. -/
theorem Identified.unique {d d' : DecodedJwt} {user user' : Str}
    (h : Identified jwt a pem now idToken d user) (h' : Identified jwt a pem now idToken d' user') :
    d = d' ∧ user = user' := by
  obtain ⟨_, _, _, _, _, _, _, h⟩ := h
  obtain ⟨_, _, _, _, _, _, _, h'⟩ := h'
  obtain rfl := Option.some.inj (h.decodes.symm.trans h'.decodes)
  exact ⟨rfl, Option.some.inj (h.hasSub.symm.trans h'.hasSub)⟩

end Checks

/-- A claim that is a string. -/
theorem claim_of_stringClaim {c : Claims} {name s : Str} (h : stringClaim c name = some s) :
    claim c name = some (.string s) := by
  obtain ⟨v, hv, hs⟩ := Option.bind_eq_some_iff.mp h
  rw [hv]
  cases v <;> simp [Json.asString] at hs
  rw [hs]

/-- **The user is set with a level**, unless a token passes all checks up to its claim `sub`, which is not
the user already, and has no email address. -/
theorem userId_iff (jwt : Jwt) (cwd : Loc Str) (t : Tree) (now : ℤ) (a : TokenAuth)
    (userId idToken : Str) : SetsUser jwt cwd t now a userId idToken ↔
      ∀ user, LacksEmail jwt a (readAt cwd t ⟨a.publicKeyPath⟩) now idToken user → user = userId := by
  have hlevel : ∀ email, levelOf email ≠ .noAuth := fun email => by
    unfold levelOf
    split_ifs <;> simp
  by_cases h : ∃ d user, Identified jwt a (readAt cwd t ⟨a.publicKeyPath⟩) now idToken d user
  · obtain ⟨d, user, h⟩ := h
    have hrun := run_identified h userId
    rcases he : stringClaim d.payload "email".toList with - | email
    · -- the user is set, and then the email address is missing
      have hauth : getAuthFrom jwt cwd t now a userId idToken = (.noAuth, user) := by
        unfold getAuthFrom
        rw [hrun, he]
      constructor
      · rintro ⟨hkeep, -⟩ user' ⟨d', h', -⟩
        obtain ⟨-, rfl⟩ := h.unique h'
        rw [hauth] at hkeep
        exact hkeep rfl
      · intro hsame
        have huser := hsame user ⟨d, h, he⟩
        refine ⟨fun _ => by rw [hauth, huser], fun hne => ?_⟩
        rw [hauth] at hne
        exact absurd rfl hne
    · have hauth : getAuthFrom jwt cwd t now a userId idToken = (levelOf email, user) := by
        unfold getAuthFrom
        rw [hrun, he]
      refine iff_of_true ⟨fun hno => ?_, fun _ => ?_⟩ ?_
      · rw [hauth] at hno
        exact absurd hno (hlevel email)
      · rw [hauth]
        obtain ⟨_, _, _, _, _, _, _, h⟩ := h
        exact ⟨d, h.decodes, claim_of_stringClaim h.hasSub⟩
      · rintro user' ⟨d', h', hnone⟩
        obtain ⟨rfl, -⟩ := h.unique h'
        rw [he] at hnone
        simp at hnone
  · have hauth : getAuthFrom jwt cwd t now a userId idToken = (.noAuth, userId) := by
      unfold getAuthFrom
      rcases run_not_identified h userId with hrun | hrun
      · rw [hrun]
      · rw [hrun]
    refine iff_of_true ⟨fun _ => by rw [hauth], fun hne => ?_⟩ ?_
    · rw [hauth] at hne
      exact absurd rfl hne
    · rintro user ⟨d, hd, -⟩
      exact absurd ⟨d, user, hd⟩ h

/-- A token without the claim `email`. -/
def noEmailToken : DecodedJwt where
  header := [("alg".toList, .string "RS256".toList), ("kid".toList, .string "1".toList)]
  payload := [("iss".toList, .string "TEST_ISSUER".toList), ("aud".toList, .string "client".toList),
    ("sub".toList, .string "FAKE_ID".toList)]

/-- The token gets no level, and the user is set. -/
theorem user_changes :
    getAuthFrom (plainJwt noEmailToken) [] FileTree.empty 0
      ⟨"client".toList, "key.json".toList, "TEST_ISSUER".toList⟩ "init".toList "token".toList =
        (.noAuth, "FAKE_ID".toList) ∧
    ¬ SetsUser (plainJwt noEmailToken) [] FileTree.empty 0
      ⟨"client".toList, "key.json".toList, "TEST_ISSUER".toList⟩ "init".toList "token".toList := by
  have hauth : getAuthFrom (plainJwt noEmailToken) [] FileTree.empty 0
      ⟨"client".toList, "key.json".toList, "TEST_ISSUER".toList⟩ "init".toList "token".toList =
        (.noAuth, "FAKE_ID".toList) := by decide +kernel
  refine ⟨hauth, fun h => ?_⟩
  have hkeep := h.unchanged (by rw [hauth])
  rw [hauth] at hkeep
  exact absurd hkeep (by decide)

end Kachow.Secure.UserId
