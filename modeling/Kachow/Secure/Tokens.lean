import Kachow.Lib.Runs
import Kachow.Secure.Handler

/-! # The level of a token

`TokenAuth::get_auth` decodes a token, finds the key the token names in the key file, verifies the
token with it and reads the user and the email address. Whatever goes wrong on the way is an exception,
and the level is `noAuth` then.

Decoding and verifying is done by a library (`Jwt`). What a token has to be like to be accepted, and
which level it gets, is `getAuth_eq`. -/

namespace Kachow.Secure.Tokens

open Kachow.Lib.Text Kachow.Lib.Files Kachow.Lib.Runs Kachow.Boost.Paths Kachow.Disk
open Kachow.Secure.Handler

/-! ### The library -/

/-- A JSON value. -/
inductive Json where
  | null
  | boolean (b : Bool)
  | integer (i : ℤ)
  | number (digits : Str)
  | string (s : Str)
  | array (vs : List Json)
  | object (fields : List (Str × Json))

/-- A JSON object. -/
abbrev Claims := List (Str × Json)

/-- A claim, if it is there. -/
def claim (c : Claims) (name : Str) : Option Json := c.lookup name

/-- `as_string`; other values throw. -/
def Json.asString : Json → Option Str
  | .string s => some s
  | _ => none

/-- `as_object`. -/
def Json.asObject : Json → Option Claims
  | .object fields => some fields
  | _ => none

/-- `as_set`: every value has to be a string. -/
def asSet (vs : List Json) : Option (List Str) := vs.mapM Json.asString

/-- `decoded_jwt`. -/
structure DecodedJwt where
  header : Claims
  payload : Claims

/-- A date of the payload holds, if it is there. -/
def DateHolds (payload : Claims) (name : Str) (holds : ℤ → Prop) : Prop :=
  ∀ v, claim payload name = some v → ∃ seconds, v = .integer seconds ∧ holds (seconds * 10 ^ 9)

/-- What `verify` makes sure of. The clock counts nanoseconds. -/
structure Verified (signed : Prop) (requiredIssuer : Str) (now : ℤ) (d : DecodedJwt) : Prop where
  algorithm : claim d.header "alg".toList = some (.string "RS256".toList)
  signature : signed
  issuer : claim d.payload "iss".toList = some (.string requiredIssuer)
  expiry : DateHolds d.payload "exp".toList fun t => now ≤ t
  notBefore : DateHolds d.payload "nbf".toList fun t => t ≤ now
  issuedAt : DateHolds d.payload "iat".toList fun t => t ≤ now

/-- The library: `none` and `false` stand for an exception. -/
structure Jwt where
  Key : Type
  /-- `jwt::decode`. -/
  decode : Str → Option DecodedJwt
  /-- `picojson::parse`. -/
  parse : Str → Option Json
  /-- `extract_pubkey_from_cert`. -/
  extractPubkeyFromCert : Str → Option Str
  /-- The constructor of `rs256`, which loads the key. -/
  rs256 : Str → Option Key
  /-- The token has a valid signature under the key. -/
  signed : Key → DecodedJwt → Bool
  /-- `verify` of a verifier with this key and this issuer. -/
  verify : Key → Str → ℤ → DecodedJwt → Bool
  verify_sound : ∀ {key requiredIssuer now d}, verify key requiredIssuer now d = true →
    Verified (signed key d = true) requiredIssuer now d

/-! ### The authorizer -/

/-- `TokenAuth`. -/
structure TokenAuth where
  clientId : Str
  publicKeyPath : Str
  requiredIssuer : Str := "https://accounts.google.com".toList

/-- The part of an email address behind the last `@`: at the end of a string without one, `npos + 1` is
`0`. -/
def domainOf (email : Str) : Str :=
  match findLastOf '@' email with
  | some pos => email.drop (pos + 1)
  | none => email

def uclaDomain : Str := "g.ucla.edu".toList

/-- The level by the email address. -/
def levelOf (email : Str) : AuthLevel :=
  if domainOf email = uclaDomain then .privateAuth else .publicAuth

/-- `get_audience`: a string counts as a set. -/
def audience (payload : Claims) : Option (List Str) := do
  match ← claim payload "aud".toList with
  | .string s => some [s]
  | .array vs => asSet vs
  | _ => none

/-- A string claim. -/
def stringClaim (c : Claims) (name : Str) : Option Str := (claim c name).bind Json.asString

/-- The key of a certificate, or the certificate, as the issuer has it. -/
def keyText (jwt : Jwt) (issuer cert : Str) : Option Str :=
  if issuer ≠ "https://accounts.google.com".toList then some cert else jwt.extractPubkeyFromCert cert

/-- A value, or an exception. -/
def orThrow {α : Type} (x : Option α) : EStateM Unit Str α := fun u =>
  match x with
  | some v => .ok v u
  | none => .error () u

/-- The `try` block of `TokenAuth::get_auth`, which sets the user; `pem` is what the key file contains. A
key that is not in the file is inserted with the value `null`. -/
def tryAuth (jwt : Jwt) (a : TokenAuth) (pem : Str) (now : ℤ) (idToken : Str) :
    EStateM Unit Str AuthLevel := do
  let decodedToken ← orThrow (jwt.decode idToken)
  let certList ← orThrow ((jwt.parse pem).bind Json.asObject)
  let keyId ← orThrow (stringClaim decodedToken.header "kid".toList)
  let cert := (claim certList keyId).getD .null
  let issuer ← orThrow (stringClaim decodedToken.payload "iss".toList)
  if issuer = [] then pure .noAuth
  else
    let certText ← orThrow cert.asString
    let key ← orThrow (keyText jwt issuer certText)
    let aud ← orThrow (audience decodedToken.payload)
    if a.clientId ∉ aud then pure .noAuth
    else
      let rsaKey ← orThrow (jwt.rs256 key)
      let _ ← orThrow (if jwt.verify rsaKey a.requiredIssuer now decodedToken then some () else none)
      let userId ← orThrow (stringClaim decodedToken.payload "sub".toList)
      set userId
      let email ← orThrow (stringClaim decodedToken.payload "email".toList)
      pure (levelOf email)

/-- `TokenAuth::get_auth`, with the files and the time as they are. -/
def TokenAuth.getAuth (jwt : Jwt) (cwd : Loc Str) (t : Tree) (now : ℤ) (a : TokenAuth) : Auth :=
  fun idToken =>
    match (tryAuth jwt a (readAt cwd t ⟨a.publicKeyPath⟩) now idToken).run [] with
    | .ok level userId => (level, userId)
    | .error _ userId => (.noAuth, userId)

/-! ### What is accepted -/

section Accept
variable (jwt : Jwt) (a : TokenAuth) (pem : Str) (now : ℤ) (idToken : Str)

/-- What the parts of an accepted token, and of the key file, are. -/
structure Accepts (d : DecodedJwt) (certList : Claims) (keyId cert issuer key : Str)
    (aud : List Str) (rsaKey : jwt.Key) (userId email : Str) : Prop where
  decodes : jwt.decode idToken = some d
  hasCerts : (jwt.parse pem).bind Json.asObject = some certList
  hasKid : stringClaim d.header "kid".toList = some keyId
  hasCert : stringClaim certList keyId = some cert
  hasIss : stringClaim d.payload "iss".toList = some issuer
  issuer_ne : issuer ≠ []
  hasKey : keyText jwt issuer cert = some key
  usable : jwt.rs256 key = some rsaKey
  hasAud : audience d.payload = some aud
  client : a.clientId ∈ aud
  verifies : jwt.verify rsaKey a.requiredIssuer now d = true
  hasSub : stringClaim d.payload "sub".toList = some userId
  hasEmail : stringClaim d.payload "email".toList = some email

/-- The token is accepted, with this email address. -/
def Accepted (email : Str) : Prop := ∃ d certList keyId cert issuer key aud rsaKey userId,
  Accepts jwt a pem now idToken d certList keyId cert issuer key aud rsaKey userId email

variable {jwt a pem now idToken}

theorem orThrow_ok {α : Type} {x : Option α} {v : α} {u u' : Str}
    (h : (orThrow x).run u = .ok v u') : x = some v ∧ u' = u := by
  unfold orThrow EStateM.run at h
  cases x with
  | none => cases h
  | some w =>
    cases h
    exact ⟨rfl, rfl⟩

/-- The block ends early, or has gone through all checks. -/
theorem tryAuth_ok {u u' : Str} {level : AuthLevel}
    (h : (tryAuth jwt a pem now idToken).run u = .ok level u') :
    level = .noAuth ∨ ∃ email, Accepted jwt a pem now idToken email ∧ level = levelOf email := by
  unfold tryAuth at h
  obtain ⟨d, _, h1, k1⟩ := run_bind_ok h
  obtain ⟨certList, _, h2, k2⟩ := run_bind_ok k1
  obtain ⟨keyId, _, h3, k3⟩ := run_bind_ok k2
  obtain ⟨issuer, _, h4, k4⟩ := run_bind_ok k3
  split_ifs at k4 with hiss
  · cases k4
    exact Or.inl rfl
  · obtain ⟨cert, _, h5, k5⟩ := run_bind_ok k4
    obtain ⟨key, _, h6, k6⟩ := run_bind_ok k5
    obtain ⟨aud, _, h7, k7⟩ := run_bind_ok k6
    by_cases haud : a.clientId ∈ aud
    swap
    · rw [if_pos haud] at k7
      cases k7
      exact Or.inl rfl
    · rw [if_neg (not_not.mpr haud)] at k7
      obtain ⟨rsaKey, _, h8, k8⟩ := run_bind_ok k7
      obtain ⟨_, _, h9, k9⟩ := run_bind_ok k8
      obtain ⟨userId, _, h10, k10⟩ := run_bind_ok k9
      obtain ⟨_, _, -, k11⟩ := run_bind_ok k10
      obtain ⟨email, _, h12, k12⟩ := run_bind_ok k11
      cases k12
      have hcert : stringClaim certList keyId = some cert := by
        have hc := (orThrow_ok h5).1
        unfold stringClaim
        cases hl : claim certList keyId with
        | none =>
          rw [hl] at hc
          cases hc
        | some v =>
          rw [hl] at hc
          exact hc
      have hver : jwt.verify rsaKey a.requiredIssuer now d = true := by
        by_contra hn
        have hv := (orThrow_ok h9).1
        rw [if_neg hn] at hv
        cases hv
      exact Or.inr ⟨email, ⟨d, certList, keyId, cert, issuer, key, aud, rsaKey, userId,
        (orThrow_ok h1).1, (orThrow_ok h2).1, (orThrow_ok h3).1, hcert, (orThrow_ok h4).1, hiss,
        (orThrow_ok h6).1, (orThrow_ok h8).1, (orThrow_ok h7).1, haud, hver,
        (orThrow_ok h10).1, (orThrow_ok h12).1⟩, rfl⟩

/-- An accepted token goes through all checks. -/
theorem run_tryAuth {email : Str} (h : Accepted jwt a pem now idToken email) (u : Str) :
    ∃ userId, (tryAuth jwt a pem now idToken).run u = .ok (levelOf email) userId := by
  obtain ⟨d, certList, keyId, cert, issuer, key, aud, rsaKey, userId, h⟩ := h
  have hthrow : ∀ {α : Type} {x : Option α} {v : α} (u : Str), x = some v →
      (orThrow x).run u = .ok v u := by
    rintro α x v u rfl
    rfl
  have hcert : ((claim certList keyId).getD .null).asString = some cert := by
    have hc := h.hasCert
    unfold stringClaim at hc
    cases hl : claim certList keyId with
    | none =>
      rw [hl] at hc
      cases hc
    | some v =>
      rw [hl] at hc
      exact hc
  refine ⟨userId, ?_⟩
  unfold tryAuth
  rw [EStateM.run_bind, hthrow u h.decodes]
  simp only
  rw [EStateM.run_bind, hthrow u h.hasCerts]
  simp only
  rw [EStateM.run_bind, hthrow u h.hasKid]
  simp only
  rw [EStateM.run_bind, hthrow u h.hasIss]
  simp only
  rw [if_neg h.issuer_ne, EStateM.run_bind, hthrow u hcert]
  simp only
  rw [EStateM.run_bind, hthrow u h.hasKey]
  simp only
  rw [EStateM.run_bind, hthrow u h.hasAud]
  simp only
  rw [if_neg (not_not.mpr h.client), EStateM.run_bind, hthrow u h.usable]
  simp only
  rw [if_pos h.verifies, EStateM.run_bind, hthrow u rfl]
  simp only
  rw [EStateM.run_bind, hthrow u h.hasSub]
  simp only
  rw [EStateM.run_bind, EStateM.run_set]
  simp only
  rw [EStateM.run_bind, hthrow userId h.hasEmail]
  rfl

/-- A token has one email address. -/
theorem Accepted.unique {email email' : Str} (h : Accepted jwt a pem now idToken email)
    (h' : Accepted jwt a pem now idToken email') : email = email' := by
  obtain ⟨d, _, _, _, _, _, _, _, _, h⟩ := h
  obtain ⟨d', _, _, _, _, _, _, _, _, h'⟩ := h'
  obtain rfl : d = d' := Option.some.inj (h.decodes.symm.trans h'.decodes)
  exact Option.some.inj (h.hasEmail.symm.trans h'.hasEmail)

/-- **An accepted token is verified**, with a key of the file. -/
theorem Accepted.verified {email : Str} (h : Accepted jwt a pem now idToken email) :
    ∃ d key, jwt.decode idToken = some d ∧
      Verified (jwt.signed key d = true) a.requiredIssuer now d := by
  obtain ⟨d, _, _, _, _, _, _, rsaKey, _, h⟩ := h
  exact ⟨d, rsaKey, h.decodes, jwt.verify_sound h.verifies⟩

end Accept

/-- The email address has an `@`, and what follows the last one is the domain of the university. -/
def UclaAddress (email : Str) : Prop :=
  ∃ user domain, email = user ++ '@' :: domain ∧ '@' ∉ domain ∧ domain = uclaDomain

theorem domainOf_append {user domain : Str} (h : '@' ∉ domain) :
    domainOf (user ++ '@' :: domain) = domain := by
  unfold domainOf
  rw [findLastOf_append h]
  simp

theorem domainOf_of_notMem {email : Str} (h : '@' ∉ email) : domainOf email = email := by
  unfold domainOf
  rw [findLastOf_of_notMem h]

/-- **The level is private** for the addresses of the university, and for its bare domain. -/
theorem levelOf_eq {email : Str} :
    levelOf email = .privateAuth ↔ UclaAddress email ∨ email = uclaDomain := by
  have hdomain : '@' ∉ uclaDomain := by decide
  have hlevel : levelOf email = .privateAuth ↔ domainOf email = uclaDomain := by
    unfold levelOf
    split_ifs with h <;> simp [h]
  rw [hlevel]
  by_cases hmem : '@' ∈ email
  · obtain ⟨user, domain, rfl, hd⟩ := exists_last hmem
    rw [domainOf_append hd]
    constructor
    · exact fun h => Or.inl ⟨user, domain, rfl, hd, h⟩
    · rintro (⟨user', domain', heq, hd', rfl⟩ | heq)
      · rw [← domainOf_append hd, heq, domainOf_append hd']
      · rw [heq] at hmem
        exact absurd hmem hdomain
  · rw [domainOf_of_notMem hmem]
    constructor
    · exact Or.inr
    · rintro (⟨user, domain, rfl, -, -⟩ | heq)
      · exact absurd (by simp) hmem
      · exact heq

section Level
variable {jwt : Jwt} {a : TokenAuth} {cwd : Loc Str} {t : Tree} {now : ℤ} {idToken : Str}

/-- **The level of a token**: that of its email address, if it is accepted. -/
theorem getAuth_eq :
    (¬ ∃ email, Accepted jwt a (readAt cwd t ⟨a.publicKeyPath⟩) now idToken email) ∧
      (a.getAuth jwt cwd t now idToken).1 = .noAuth ∨
    ∃ email, Accepted jwt a (readAt cwd t ⟨a.publicKeyPath⟩) now idToken email ∧
      (a.getAuth jwt cwd t now idToken).1 = levelOf email := by
  by_cases h : ∃ email, Accepted jwt a (readAt cwd t ⟨a.publicKeyPath⟩) now idToken email
  · obtain ⟨email, h⟩ := h
    obtain ⟨userId, hr⟩ := run_tryAuth h []
    refine Or.inr ⟨email, h, ?_⟩
    unfold TokenAuth.getAuth
    rw [hr]
  · refine Or.inl ⟨h, ?_⟩
    unfold TokenAuth.getAuth
    cases hr : (tryAuth jwt a (readAt cwd t ⟨a.publicKeyPath⟩) now idToken).run [] with
    | error e userId => rfl
    | ok level userId =>
      rcases tryAuth_ok hr with h1 | ⟨email, h1, -⟩
      · exact h1
      · exact absurd ⟨email, h1⟩ h

/-- **Token soundness.** A token gets a level if and only if it is accepted, and the private one if and
only if its email address is one of the university: this is so unless the email claim of an accepted
token is the bare domain. -/
theorem token_sound_iff :
    (((a.getAuth jwt cwd t now idToken).1 ≠ .noAuth ↔
        ∃ email, Accepted jwt a (readAt cwd t ⟨a.publicKeyPath⟩) now idToken email) ∧
      ((a.getAuth jwt cwd t now idToken).1 = .privateAuth ↔
        ∃ email, Accepted jwt a (readAt cwd t ⟨a.publicKeyPath⟩) now idToken email ∧
          UclaAddress email)) ↔
    ¬ Accepted jwt a (readAt cwd t ⟨a.publicKeyPath⟩) now idToken uclaDomain := by
  have hbare : ¬ UclaAddress uclaDomain := by
    rintro ⟨user, domain, heq, -, -⟩
    have hmem : '@' ∈ uclaDomain := by
      rw [heq]
      simp
    exact absurd hmem (by decide)
  rcases @getAuth_eq jwt a cwd t now idToken with ⟨hnone, hlevel⟩ | ⟨email, hacc, hlevel⟩
  · rw [hlevel]
    refine iff_of_true ⟨by simp [hnone], ?_⟩ fun h => hnone ⟨_, h⟩
    exact iff_of_false (by simp) fun ⟨email, h, _⟩ => hnone ⟨email, h⟩
  · have hsome : levelOf email ≠ .noAuth := by
      unfold levelOf
      split_ifs <;> simp
    have hucla : (∃ email', Accepted jwt a (readAt cwd t ⟨a.publicKeyPath⟩) now idToken email' ∧
        UclaAddress email') ↔ UclaAddress email := by
      constructor
      · rintro ⟨email', h, hu⟩
        rwa [hacc.unique h]
      · exact fun hu => ⟨email, hacc, hu⟩
    have hacc' : Accepted jwt a (readAt cwd t ⟨a.publicKeyPath⟩) now idToken uclaDomain ↔
        email = uclaDomain := by
      constructor
      · exact fun h => hacc.unique h
      · rintro rfl
        exact hacc
    rw [hlevel, hucla, hacc', levelOf_eq]
    constructor
    · rintro ⟨-, h⟩ rfl
      exact hbare (h.mp (Or.inr rfl))
    · intro h
      exact ⟨iff_of_true hsome ⟨email, hacc⟩, or_iff_left h⟩

end Level

/-! ### The bare domain -/

/-- The part of the library that a token without dates needs. -/
def plainJwt (d : DecodedJwt) : Jwt where
  Key := Str
  decode _ := some d
  parse _ := some (.object [("1".toList, .string "key".toList)])
  extractPubkeyFromCert cert := some cert
  rs256 key := some key
  signed _ _ := true
  verify _ requiredIssuer _ d :=
    match claim d.header "alg".toList, claim d.payload "iss".toList, claim d.payload "exp".toList,
      claim d.payload "nbf".toList, claim d.payload "iat".toList with
    | some (.string alg), some (.string iss), none, none, none =>
      alg = "RS256".toList && iss = requiredIssuer
    | _, _, _, _, _ => false
  verify_sound := by
    intro key requiredIssuer now d h
    split at h
    · next alg iss halg hiss hexp hnbf hiat =>
      simp only [Bool.and_eq_true, decide_eq_true_eq] at h
      refine ⟨by rw [halg, h.1], rfl, by rw [hiss, h.2], ?_, ?_, ?_⟩
      · intro v hv
        rw [hexp] at hv
        cases hv
      · intro v hv
        rw [hnbf] at hv
        cases hv
      · intro v hv
        rw [hiat] at hv
        cases hv
    · cases h

/-- A token whose email claim has no `@`. -/
def bareToken : DecodedJwt where
  header := [("alg".toList, .string "RS256".toList), ("kid".toList, .string "1".toList)]
  payload := [("iss".toList, .string "TEST_ISSUER".toList), ("aud".toList, .string "client".toList),
    ("sub".toList, .string "FAKE_ID".toList), ("email".toList, .string uclaDomain)]

/-- The token gets the private level, and its email address is not one of the university. -/
theorem bare_domain_private :
    ¬ ∀ (jwt : Jwt) (a : TokenAuth) (cwd : Loc Str) (t : Tree) (now : ℤ) (idToken : Str),
      (a.getAuth jwt cwd t now idToken).1 = .privateAuth ↔
        ∃ email, Accepted jwt a (readAt cwd t ⟨a.publicKeyPath⟩) now idToken email ∧
          UclaAddress email := by
  intro h
  have hlevel := (h (plainJwt bareToken) ⟨"client".toList, "key.json".toList, "TEST_ISSUER".toList⟩ []
    FileTree.empty 0 "token".toList).mp (by decide +kernel)
  obtain ⟨email, ⟨d, _, _, _, _, _, _, _, _, hacc⟩, user, domain, rfl, -, -⟩ := hlevel
  obtain rfl : bareToken = d := Option.some.inj hacc.decodes
  have hemail : some uclaDomain = some (user ++ '@' :: domain) := hacc.hasEmail
  have hmem : '@' ∈ uclaDomain := by
    rw [Option.some.inj hemail]
    simp
  exact absurd hmem (by decide)

end Kachow.Secure.Tokens
