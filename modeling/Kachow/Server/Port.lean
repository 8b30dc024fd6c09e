import Kachow.Server.Startup

/-! # The port of the acceptor

`portNumber` reads the argument of `listen` by `stoi`, which takes a number at the front of it, `main`
compares the result with `-1` only, and the endpoint of the acceptor keeps the lower sixteen bits of it. A
start that gets as far as the acceptor therefore opens the port that is written exactly if the argument is
all digits and between 1 and 65535 (`port_iff`): `8080abc` opens 8080, and 65616 opens 80
(`other_port`). -/

namespace Kachow.Server.Port

open Kachow.Lib.Text Kachow.Lib.Decimal Kachow.Lib.Files Kachow.Lib.Runs Kachow.Boost.Paths Kachow.Disk
open Kachow.Config.Lexer Kachow.Config.Parser Kachow.Api.Factory Kachow.Server.Factories
open Kachow.Server.Routes Kachow.Server.Startup

/-! ### As far as the acceptor -/

/-- What the constructor of the server gets. -/
structure ServerArgs where
  port : ℤ
  pkFile : Str
  pemFile : Str
  threads : ℤ

/-- `main`, once the configuration is parsed, up to the constructor of the server; `none` where it gives
up. -/
def serverArgs (config : NginxConfig) : Except StartFault (Option ServerArgs) := do
  let port ← portNumber config
  if port = -1 then pure none
  else
    let threads ← numberOfThreads config
    let pkFile ← keyFileName config
    if pkFile = [] then pure none
    else
      let pemFile ← certFileName config
      if pemFile = [] then pure none
      else pure (some ⟨port, pkFile, pemFile, if threads = -1 then 1 else threads⟩)

/-- What `main` does with them: the constructor may throw, and then the routes are generated. -/
def startServer (it : DirectoryIterator) (cwd : Loc Str) (server : ℤ → Str → Str → ℤ → Bool)
    (config : NginxConfig) : Option ServerArgs → EStateM StartFault Heap (Option RouteMap)
  | none => pure none
  | some a =>
    if server a.port a.pkFile a.pemFile a.threads then do
      let routes ← generateRoutes it cwd config
      pure (some routes)
    else throw .exception

theorem reading_bind {α β : Type} (x : Except StartFault α) (f : α → Except StartFault β) :
    reading (x >>= f) = reading x >>= fun a => reading (f a) := by
  funext h
  rcases x with e | a
  · rfl
  · rfl

/-- **`main` gets as far as the constructor**, and goes on from there. -/
theorem main_eq (it : DirectoryIterator) (cwd : Loc Str) (server : ℤ → Str → Str → ℤ → Bool)
    (config : NginxConfig) :
    main it cwd server config = reading (serverArgs config) >>= startServer it cwd server config := by
  unfold main serverArgs
  rw [reading_bind, bind_assoc]
  refine bind_congr fun port => ?_
  by_cases hminus : port = -1
  · rw [if_pos hminus, if_pos hminus]
    rfl
  rw [if_neg hminus, if_neg hminus, reading_bind, bind_assoc]
  refine bind_congr fun threads => ?_
  simp only
  rw [reading_bind, bind_assoc]
  refine bind_congr fun pkFile => ?_
  by_cases hpk : pkFile = []
  · rw [if_pos hpk, if_pos hpk]
    rfl
  rw [if_neg hpk, if_neg hpk, reading_bind, bind_assoc]
  refine bind_congr fun pemFile => ?_
  by_cases hpem : pemFile = []
  · rw [if_pos hpem, if_pos hpem]
    rfl
  · rw [if_neg hpem, if_neg hpem]
    rfl

/-- The port of `tcp::endpoint(tcp::v4(), port)`, an unsigned short. -/
def endpointPort (port : ℤ) : BitVec 16 := BitVec.ofInt 16 port

/-- The statement begins with this name. -/
def named (name : Str) (s : NginxConfigStatement) : Bool := decide (s.tokens.head? = some name)

/-- The first `listen` of the first `server` block that has one. -/
def firstListen (config : NginxConfig) : Option NginxConfigStatement :=
  (config.filter (named "server".toList)).findSome? fun s =>
    (s.childBlock.getD []).find? (named "listen".toList)

/-- Its argument. -/
def listenArgument (config : NginxConfig) : Option Str := (firstListen config).bind (·.tokens[1]?)

/-- The text is the decimal numeral of a port. -/
structure IsPort (v : Str) (n : ℕ) : Prop where
  ne : v ≠ []
  digits : ∀ c ∈ v, c.isDigit = true
  value : Nat.ofDigitChars 10 v 0 = n
  pos : 1 ≤ n
  le : n ≤ 65535

/-- **The port is the one that is written**: if the start gets as far as the acceptor, the argument of
`listen` is the numeral of the port in the endpoint. -/
def PortFaithful (config : NginxConfig) : Prop :=
  ∀ args, serverArgs config = .ok (some args) →
    ∃ v, listenArgument config = some v ∧ IsPort v (endpointPort args.port).toNat

/-- What the start reads before the acceptor lets it go on: there is a number at the front of the argument
of `listen`, and it is not `-1`; the number of threads, if there is one, is a number; and there are a
file of the key and one of the certificate. -/
structure LetsStart (config : NginxConfig) : Prop where
  listen : Readable "listen".toList config
  port : ∃ k, intValue "listen".toList config = some k ∧ k ≠ -1
  threads : Readable "threads".toList config
  number : ∃ k, intValue "threads".toList config = some k
  key : Readable "pk_file".toList config
  keyFile : stringValue "pk_file".toList config ≠ []
  cert : Readable "pem_file".toList config
  certFile : stringValue "pem_file".toList config ≠ []

section Start
variable {config : NginxConfig} {name : Str}

/-- A directive with a number is read if it is complete and a number. -/
theorem intDirective_ok (hw : Worded config) {k : ℤ} :
    intDirective name config = .ok k ↔ Readable name config ∧ intValue name config = some k := by
  rcases @intDirective_cases config name hw with ⟨hr, k', hk, hrun⟩ | ⟨hr, hk, hrun⟩ | ⟨hr, e, hrun, -⟩
  · rw [hrun, hk]
    simp [hr]
  · rw [hrun, hk]
    simp
  · rw [hrun]
    simp [hr]

/-- One with a name, if it is complete. -/
theorem stringDirective_ok (hw : Worded config) {s : Str} :
    stringDirective name config = .ok s ↔ Readable name config ∧ stringValue name config = s := by
  rcases @stringDirective_cases config name hw with ⟨hr, hrun⟩ | ⟨hr, e, hrun, -⟩
  · rw [hrun]
    simp [hr]
  · rw [hrun]
    simp [hr]

/-- **The start gets as far as the acceptor** with the number that is read. -/
theorem letsStart_of_serverArgs (hw : Worded config) {args : ServerArgs}
    (h : serverArgs config = .ok (some args)) :
    LetsStart config ∧ intValue "listen".toList config = some args.port := by
  unfold serverArgs at h
  obtain ⟨port, h1, h⟩ := bind_ok h
  obtain ⟨hlisten, hport⟩ := (intDirective_ok hw).mp h1
  by_cases hminus : port = -1
  · rw [if_pos hminus] at h
    cases h
  rw [if_neg hminus] at h
  obtain ⟨threads, h2, h⟩ := bind_ok h
  obtain ⟨hthreads, hnumber⟩ := (intDirective_ok hw).mp h2
  obtain ⟨pkFile, h3, h⟩ := bind_ok h
  obtain ⟨hkey, hpk⟩ := (stringDirective_ok hw).mp h3
  by_cases hpkne : pkFile = []
  · rw [if_pos hpkne] at h
    cases h
  rw [if_neg hpkne] at h
  obtain ⟨pemFile, h4, h⟩ := bind_ok h
  obtain ⟨hcert, hpem⟩ := (stringDirective_ok hw).mp h4
  by_cases hpemne : pemFile = []
  · rw [if_pos hpemne] at h
    cases h
  rw [if_neg hpemne] at h
  cases h
  exact ⟨⟨hlisten, ⟨port, hport, hminus⟩, hthreads, ⟨threads, hnumber⟩, hkey, hpk ▸ hpkne, hcert,
    hpem ▸ hpemne⟩, hport⟩

/-- Nothing else is read on the way there. -/
theorem serverArgs_of_letsStart (hw : Worded config) (h : LetsStart config) :
    ∃ args, serverArgs config = .ok (some args) := by
  obtain ⟨hlisten, ⟨port, hport, hminus⟩, hthreads, ⟨threads, hnumber⟩, hkey, hpkne, hcert, hpemne⟩ := h
  have h1 : portNumber config = .ok port := (intDirective_ok hw).mpr ⟨hlisten, hport⟩
  have h2 : numberOfThreads config = .ok threads := (intDirective_ok hw).mpr ⟨hthreads, hnumber⟩
  have h3 : keyFileName config = .ok (stringValue "pk_file".toList config) :=
    (stringDirective_ok hw).mpr ⟨hkey, rfl⟩
  have h4 : certFileName config = .ok (stringValue "pem_file".toList config) :=
    (stringDirective_ok hw).mpr ⟨hcert, rfl⟩
  unfold serverArgs
  rw [h1, h2, h3, h4]
  refine ⟨⟨port, stringValue "pk_file".toList config, stringValue "pem_file".toList config,
    if threads = -1 then 1 else threads⟩, ?_⟩
  show (if port = -1 then _ else _) = _
  rw [if_neg hminus]
  show (if stringValue "pk_file".toList config = [] then _ else _) = _
  rw [if_neg hpkne]
  show (if stringValue "pem_file".toList config = [] then _ else _) = _
  rw [if_neg hpemne]
  rfl

/-- The `listen` of a block. -/
theorem firstListen_server {s : NginxConfigStatement} (hs : s.tokens.head? = some "server".toList) :
    firstListen (s :: config) =
      ((s.childBlock.getD []).find? (named "listen".toList)).or (firstListen config) := by
  have hserver : named "server".toList s = true := decide_eq_true hs
  unfold firstListen
  rw [List.filter_cons, if_pos hserver, List.findSome?_cons]
  generalize (s.childBlock.getD []).find? (named "listen".toList) = x
  rcases x with - | d
  · rfl
  · rfl

theorem firstListen_other {s : NginxConfigStatement} (hs : s.tokens.head? ≠ some "server".toList) :
    firstListen (s :: config) = firstListen config := by
  have hserver : ¬ named "server".toList s = true := fun hd => hs (of_decide_eq_true hd)
  unfold firstListen
  rw [List.filter_cons, if_neg hserver]

/-- Up to a missing block the first `listen` is the one that is read. -/
theorem seek_listen : ∀ {config : NginxConfig}, seek "listen".toList config ≠ some none →
    seek "listen".toList config = (firstListen config).map some
  | [], _ => rfl
  | s :: config, h => by
    rw [seek_cons] at h ⊢
    unfold opened at h ⊢
    by_cases hs : s.tokens.head? = some "server".toList
    · rw [if_pos hs] at h ⊢
      rw [firstListen_server hs]
      rcases hb : s.childBlock with - | b
      · rw [hb] at h
        exact absurd rfl h
      · have hfind : (b.map some).find? (fun x : Option NginxConfigStatement =>
            x.elim true fun d => decide (d.tokens.head? = some "listen".toList)) =
            (b.find? (named "listen".toList)).map some := List.find?_map
        rw [hb] at h
        simp only [hfind, Option.getD_some] at h ⊢
        generalize b.find? (named "listen".toList) = x at h ⊢
        rcases x with - | d
        · exact seek_listen h
        · rfl
    · rw [if_neg hs] at h ⊢
      rw [firstListen_other hs]
      exact seek_listen h

/-- The argument that is read is that of the first `listen`. -/
theorem value_listen (hr : Readable "listen".toList config) :
    value "listen".toList config = listenArgument config := by
  have hsome : seek "listen".toList config ≠ some none := by
    intro hs
    obtain ⟨d, v, hd, -⟩ := hr none hs
    simp at hd
  unfold value listenArgument
  rw [seek_listen hsome]
  rcases firstListen config with - | d
  · rfl
  · rfl

end Start

/-! ### The number -/

/-- `stoi` reads the whole of a numeral. -/
theorem stoi_of_isPort {v : Str} {n : ℕ} (h : IsPort v n) : stoi v = some (n : ℤ) := by
  obtain ⟨c, s, rfl⟩ := List.exists_cons_of_ne_nil h.ne
  have hc : c.isDigit = true := h.digits c (by simp)
  have htake : (c :: s).takeWhile Char.isDigit = c :: s := List.takeWhile_eq_self_iff.mpr h.digits
  have hpos := h.pos
  have hle := h.le
  unfold stoi
  rw [List.dropWhile_cons_of_neg (by simp [isSpace_of_isDigit hc]), takeSign_of_isDigit hc]
  simp only [htake, h.value, reduceCtorEq, if_false]
  refine if_pos ⟨?_, ?_⟩
  · unfold intMin
    omega
  · unfold intMax
    omega

/-- The endpoint keeps a port. -/
theorem endpointPort_of_le {n : ℕ} (h : n ≤ 65535) : (endpointPort (n : ℤ)).toNat = n := by
  unfold endpointPort
  rw [BitVec.ofInt_natCast, BitVec.toNat_ofNat]
  omega

/-- **The acceptor opens the port that is written** exactly if the argument of `listen` is the numeral of a
port, or the start does not get as far. -/
theorem port_iff {text : Str} {config : NginxConfig} (hp : parse text [] = .returned true config) :
    PortFaithful config ↔
      (LetsStart config → ∃ v n, listenArgument config = some v ∧ IsPort v n) := by
  have hw := worded_of_parse hp
  constructor
  · intro hfaithful hstart
    obtain ⟨args, hargs⟩ := serverArgs_of_letsStart hw hstart
    obtain ⟨v, hv, hport⟩ := hfaithful args hargs
    exact ⟨v, _, hv, hport⟩
  · intro hwritten args hargs
    obtain ⟨hstart, hread⟩ := letsStart_of_serverArgs hw hargs
    obtain ⟨v, n, hv, hport⟩ := hwritten hstart
    have hstoi : stoi v = some args.port := by
      unfold intValue at hread
      rw [value_listen hstart.listen, hv] at hread
      exact hread
    have hsame : args.port = (n : ℤ) := Option.some.inj (hstoi.symm.trans (stoi_of_isPort hport))
    refine ⟨v, hv, ?_⟩
    rw [hsame, endpointPort_of_le hport.le]
    exact hport

/-- A configuration with this argument of `listen`. -/
def listening (v : Str) : NginxConfig :=
  [.mk ["server".toList] (some [.mk ["listen".toList, v] none, .mk ["pk_file".toList, "k.pem".toList] none,
    .mk ["pem_file".toList, "c.pem".toList] none])]

/-- Its text. -/
def listeningText (v : Str) : Str :=
  "server \x7b listen ".toList ++ v ++ "; pk_file k.pem; pem_file c.pem; \x7d".toList

/-- The port 8080 is opened as it is written. -/
theorem port_8080 : parse (listeningText "8080".toList) [] = .returned true (listening "8080".toList) ∧
    (∃ args, serverArgs (listening "8080".toList) = .ok (some args)) ∧
    PortFaithful (listening "8080".toList) := by
  have hparse : parse (listeningText "8080".toList) [] = .returned true (listening "8080".toList) := rfl
  refine ⟨hparse, ⟨_, rfl⟩, (port_iff hparse).mpr fun _ => ⟨"8080".toList, 8080, rfl, ?_⟩⟩
  have hdigits : "8080".toList.all Char.isDigit = true := by decide
  exact ⟨by decide, List.all_eq_true.mp hdigits, by decide +kernel, by omega, by omega⟩

/-- **Junk behind the number is ignored, and a number above 65535 opens another port.** -/
theorem other_port :
    (∃ args, parse (listeningText "8080abc".toList) [] = .returned true (listening "8080abc".toList) ∧
      serverArgs (listening "8080abc".toList) = .ok (some args) ∧ endpointPort args.port = 8080#16 ∧
      ¬ PortFaithful (listening "8080abc".toList)) ∧
    ∃ args, parse (listeningText "65616".toList) [] = .returned true (listening "65616".toList) ∧
      serverArgs (listening "65616".toList) = .ok (some args) ∧ endpointPort args.port = 80#16 ∧
      ¬ PortFaithful (listening "65616".toList) := by
  constructor
  · refine ⟨⟨8080, "k.pem".toList, "c.pem".toList, 1⟩, rfl, rfl, rfl, fun h => ?_⟩
    obtain ⟨v, hv, hport⟩ := h ⟨8080, "k.pem".toList, "c.pem".toList, 1⟩ rfl
    have hsame : "8080abc".toList = v := Option.some.inj hv
    have hdigit := hport.digits 'a' (by rw [← hsame]; decide)
    exact absurd hdigit (by decide)
  · refine ⟨⟨65616, "k.pem".toList, "c.pem".toList, 1⟩, rfl, rfl, rfl, fun h => ?_⟩
    obtain ⟨v, hv, hport⟩ := h ⟨65616, "k.pem".toList, "c.pem".toList, 1⟩ rfl
    have hsame : "65616".toList = v := Option.some.inj hv
    have hnum : Nat.ofDigitChars 10 "65616".toList 0 = 65616 := by decide +kernel
    have hvalue := hport.value
    have hle := hport.le
    rw [← hsame] at hvalue
    omega

end Kachow.Server.Port
