import Kachow.Server.Routes

/-! # The start of the server

`main` parses the configuration, reads four directives from it, constructs the server and generates the
routes. All five steps walk over the statements of the `server` blocks, and all five index the tokens
and dereference the blocks without a check.

That a statement has a token is what the parser makes sure of (`worded_of_parse`), and it is all it makes
sure of. So there is no undefined behaviour exactly if every directive that is read before the start
stops is complete. A number is read by `stoi`, which is content with a number at the front; so a value
that is none is noticed exactly if there is none at its front either (`startup_iff`). -/

namespace Kachow.Server.Startup

open Kachow.Lib.Text Kachow.Lib.Decimal Kachow.Lib.Files Kachow.Lib.Runs Kachow.Boost.Paths
open Kachow.Disk Kachow.Config.Lexer Kachow.Config.Parser Kachow.Api.Handler Kachow.Api.Factory
open Kachow.Server.Factories Kachow.Server.Routes

/-! ### What the parser makes sure of -/

/-- Every statement has a token. -/
inductive Worded : NginxConfig → Prop
  | intro {config : NginxConfig} (words : ∀ s ∈ config, s.tokens ≠ [])
      (blocks : ∀ s ∈ config, ∀ b, s.childBlock = some b → Worded b) : Worded config

namespace Worded

variable {config : NginxConfig}

theorem words (h : Worded config) : ∀ s ∈ config, s.tokens ≠ [] := by
  cases h with
  | intro words _ => exact words

theorem blocks (h : Worded config) : ∀ s ∈ config, ∀ b, s.childBlock = some b → Worded b := by
  cases h with
  | intro _ blocks => exact blocks

theorem nil : Worded [] := ⟨by simp, by simp⟩

theorem concat_iff {s : NginxConfigStatement} : Worded (config ++ [s]) ↔
    Worded config ∧ s.tokens ≠ [] ∧ ∀ b, s.childBlock = some b → Worded b := by
  constructor
  · intro h
    exact ⟨⟨fun x hx => h.words x (List.mem_append_left _ hx),
        fun x hx => h.blocks x (List.mem_append_left _ hx)⟩,
      h.words s (by simp), h.blocks s (by simp)⟩
  · rintro ⟨h, hs, hb⟩
    refine ⟨fun x hx => ?_, fun x hx => ?_⟩
    · rcases List.mem_append.mp hx with hx | hx
      · exact h.words x hx
      · obtain rfl := List.mem_singleton.mp hx
        exact hs
    · rcases List.mem_append.mp hx with hx | hx
      · exact h.blocks x hx
      · obtain rfl := List.mem_singleton.mp hx
        exact hb

/-- Changing the last statement. -/
theorem onBack {f : NginxConfigStatement → NginxConfigStatement} (h : Worded config)
    (hf : ∀ s, s.tokens ≠ [] → (∀ b, s.childBlock = some b → Worded b) →
      (f s).tokens ≠ [] ∧ ∀ b, (f s).childBlock = some b → Worded b) :
    Worded (Config.Parser.onBack f config) := by
  rcases List.eq_nil_or_concat config with rfl | ⟨c, s, rfl⟩
  · exact nil
  · rw [List.concat_eq_append] at h ⊢
    obtain ⟨hc, hs, hb⟩ := concat_iff.mp h
    rw [onBack_concat]
    exact concat_iff.mpr ⟨hc, hf s hs hb⟩

/-- Changing a block. -/
theorem modify {f : NginxConfig → NginxConfig} (hf : ∀ b, Worded b → Worded (f b)) :
    ∀ {n : ℕ} {config : NginxConfig}, Worded config → Worded (Config.Parser.modify n f config)
  | 0, _, h => hf _ h
  | n + 1, config, h => by
    refine h.onBack fun s hs hb => ?_
    obtain ⟨tokens, block⟩ := s
    refine ⟨hs, fun b hblock => ?_⟩
    obtain ⟨b', hb', rfl⟩ := Option.map_eq_some_iff.mp hblock
    exact modify hf (hb b' hb')

end Worded

section Parse
variable {st st' : ParserState} {config : NginxConfig}

theorem worded_pushToken (token : Str) (s : NginxConfigStatement)
    (hb : ∀ b, s.childBlock = some b → Worded b) :
    (s.pushToken token).tokens ≠ [] ∧ ∀ b, (s.pushToken token).childBlock = some b → Worded b := by
  obtain ⟨tokens, block⟩ := s
  exact ⟨by simp [NginxConfigStatement.pushToken, NginxConfigStatement.tokens], hb⟩

theorem changeBack_ok {f : NginxConfigStatement → NginxConfigStatement}
    (h : changeBack st f = .ok config) :
    ∃ n, st.stack = n + 1 ∧ config = modify n (onBack f) st.config := by
  unfold changeBack at h
  split at h
  · cases h
  · next n hn =>
    split_ifs at h
    cases h
    exact ⟨n, hn, rfl⟩

/-- A new statement gets its first token at once. -/
theorem worded_onNormal {token : Str} (h : Worded st.config) (hs : onNormal st token = .ok st') :
    Worded st'.config := by
  by_cases hlast : st.lastTokenType = .normal
  · simp only [onNormal, hlast, if_true, pure_bind] at hs
    obtain ⟨c, hc, hs'⟩ := bind_ok hs
    cases hs'
    obtain ⟨n, -, rfl⟩ := changeBack_ok hc
    exact h.modify fun b hb => hb.onBack fun s _ hchild => worded_pushToken token s hchild
  · simp only [onNormal, hlast, if_false] at hs
    obtain ⟨c₁, h1, hs'⟩ := bind_ok hs
    obtain ⟨c₂, h2, hs''⟩ := bind_ok hs'
    cases hs''
    obtain ⟨n, hn, rfl⟩ := changeBack_ok h2
    simp only at hn
    unfold emplaceBack at h1
    rw [hn] at h1
    cases h1
    simp only
    rw [modify_modify]
    refine h.modify fun b hb => ?_
    rw [Function.comp_apply, onBack_concat, Worded.concat_iff]
    exact ⟨hb, worded_pushToken token _ fun b hnone => by cases hnone⟩

theorem worded_onStartBlock (h : Worded st.config) (hs : onStartBlock st = .ok st') :
    Worded st'.config := by
  unfold onStartBlock at hs
  obtain ⟨c, h1, hs⟩ := bind_ok hs
  cases hs
  obtain ⟨n, -, rfl⟩ := changeBack_ok h1
  refine h.modify fun b hb => hb.onBack fun s hs _ => ?_
  obtain ⟨tokens, block⟩ := s
  refine ⟨hs, fun b hb => ?_⟩
  obtain rfl := Option.some.inj hb
  exact Worded.nil

theorem proceed_next {x : Except Fault ParserState} (h : proceed x = .next st) : x = .ok st := by
  cases x with
  | ok st' =>
    cases h
    rfl
  | error e => cases h

/-- **One token** keeps what the parser makes sure of. -/
theorem worded_parseStep {token : Token} (h : Worded st.config)
    (hs : parseStep st token = .next st') : Worded st'.config := by
  unfold parseStep at hs
  cases ht : token.1 <;> simp only [ht] at hs
  case comment =>
    cases hs
    exact h
  case normal =>
    split_ifs at hs
    exact worded_onNormal h (proceed_next hs)
  case statementEnd =>
    split_ifs at hs
    cases hs
    exact h
  case startBlock =>
    split_ifs at hs
    exact worded_onStartBlock h (proceed_next hs)
  case endBlock =>
    split_ifs at hs
    have hend := proceed_next hs
    unfold onEndBlock at hend
    split at hend
    · cases hend
    · cases hend
      exact h
  all_goals cases hs

theorem worded_run : ∀ {tokens : List Token} {st : ParserState}, Worded st.config →
    run st tokens = .returned true config → Worded config
  | [], _, _, h => by cases h
  | token :: tokens, st, hst, h => by
    cases hs : parseStep st token with
    | next st' =>
      rw [run_next hs] at h
      exact worded_run (worded_parseStep hst hs) h
    | stop o =>
      rw [run_stop hs] at h
      subst h
      obtain ⟨-, rfl⟩ := parseStep_accepts hs
      exact hst

/-- **Every statement of a configuration has a token.** -/
theorem worded_of_parse {text : Str} (h : parse text [] = .returned true config) :
    Worded config := by
  rw [parse_eq] at h
  exact worded_run Worded.nil h

end Parse

/-! ### The directives -/

/-- The inner loop of `portNumber` and its siblings: the first statement of a block with this name. -/
def findIn (name : Str) : NginxConfig → Except StartFault (Option NginxConfigStatement)
  | [] => pure none
  | s :: config => do
    let directive ← token s 0
    if directive = name then pure (some s) else findIn name config

/-- The loop of `portNumber` and its siblings: the first such statement of the `server` blocks. -/
def findDirective (name : Str) : NginxConfig → Except StartFault (Option NginxConfigStatement)
  | [] => pure none
  | s :: config => do
    let directive ← token s 0
    if directive = "server".toList then
      let block ← childBlock s
      match ← findIn name block with
      | some d => pure (some d)
      | none => findDirective name config
    else findDirective name config

/-- The second token of a directive, if the directive is there. -/
def directiveValue (name : Str) (config : NginxConfig) : Except StartFault (Option Str) := do
  match ← findDirective name config with
  | some d => pure (some (← token d 1))
  | none => pure none

/-- A directive with a number; `-1` if it is missing. -/
def intDirective (name : Str) (config : NginxConfig) : Except StartFault ℤ := do
  match ← directiveValue name config with
  | some v =>
    match stoi v with
    | some k => pure k
    | none => throw .exception
  | none => pure (-1)

/-- A directive with a name; the empty string if it is missing. -/
def stringDirective (name : Str) (config : NginxConfig) : Except StartFault Str := do
  let v ← directiveValue name config
  pure (v.getD [])

/-- `portNumber`. -/
def portNumber : NginxConfig → Except StartFault ℤ := intDirective "listen".toList

/-- `numberOfThreads`. -/
def numberOfThreads : NginxConfig → Except StartFault ℤ := intDirective "threads".toList

/-- `keyFileName`. -/
def keyFileName : NginxConfig → Except StartFault Str := stringDirective "pk_file".toList

/-- `certFileName`. -/
def certFileName : NginxConfig → Except StartFault Str := stringDirective "pem_file".toList

/-- `main`, once the configuration is parsed. The constructor of the server gets the port, the files of
the key and of the certificate and the number of threads, and may throw. The result is `none` where
`main` gives up. -/
def main (it : DirectoryIterator) (cwd : Loc Str) (server : ℤ → Str → Str → ℤ → Bool)
    (config : NginxConfig) : EStateM StartFault Heap (Option RouteMap) := do
  let port ← reading (portNumber config)
  if port = -1 then pure none
  else
    let threads ← reading (numberOfThreads config)
    let threads := if threads = -1 then 1 else threads
    let pkFile ← reading (keyFileName config)
    if pkFile = [] then pure none
    else
      let pemFile ← reading (certFileName config)
      if pemFile = [] then pure none
      else if server port pkFile pemFile threads then
        let routes ← generateRoutes it cwd config
        pure (some routes)
      else throw .exception

/-! ### What the loops come by -/

/-- The statements of a `server` block, or `none` if the block is missing. -/
def opened (s : NginxConfigStatement) : List (Option NginxConfigStatement) :=
  if s.tokens.head? = some "server".toList then
    match s.childBlock with
    | some block => block.map some
    | none => [none]
  else []

/-- What the loops over the `server` blocks come by, one after the other. -/
def walk (config : NginxConfig) : List (Option NginxConfigStatement) := config.flatMap opened

/-- The first of them that is a directive of this name, or a missing block. -/
def seek (name : Str) (config : NginxConfig) : Option (Option NginxConfigStatement) :=
  (walk config).find? fun x => x.elim true fun d => decide (d.tokens.head? = some name)

/-- The directive can be read: no missing block is in front of it, and it has a value. -/
def Readable (name : Str) (config : NginxConfig) : Prop :=
  ∀ x, seek name config = some x → ∃ d v, x = some d ∧ d.tokens[1]? = some v

/-- The value of the directive, if it is there. -/
def value (name : Str) (config : NginxConfig) : Option Str := do
  let d ← (← seek name config)
  d.tokens[1]?

section Directives
variable {config : NginxConfig} {name : Str}

theorem token_zero {s : NginxConfigStatement} (h : s.tokens ≠ []) :
    ∃ directive, token s 0 = .ok directive ∧ s.tokens.head? = some directive := by
  obtain ⟨directive, rest, hd⟩ := List.exists_cons_of_ne_nil h
  refine ⟨directive, ?_, by rw [hd]; rfl⟩
  unfold token
  rw [hd]
  rfl

theorem findIn_eq : ∀ {block : NginxConfig}, (∀ s ∈ block, s.tokens ≠ []) →
    findIn name block = .ok (block.find? fun d => decide (d.tokens.head? = some name))
  | [], _ => rfl
  | s :: block, h => by
    obtain ⟨directive, htok, hhead⟩ := token_zero (h s List.mem_cons_self)
    have ih := findIn_eq fun s hs => h s (List.mem_cons_of_mem _ hs)
    unfold findIn
    rw [htok]
    show (if directive = name then _ else _) = _
    rw [List.find?_cons, hhead, ih]
    by_cases hn : directive = name
    · simp only [hn, if_true, decide_true]
      rfl
    · simp [hn]

theorem seek_cons (s : NginxConfigStatement) : seek name (s :: config) =
    ((opened s).find? fun x => x.elim true fun d => decide (d.tokens.head? = some name)).or
      (seek name config) := by
  unfold seek walk
  rw [List.flatMap_cons, List.find?_append]

/-- **The first directive** is found, unless a block in front of it is missing. -/
theorem findDirective_eq : ∀ {config : NginxConfig}, Worded config →
    findDirective name config =
      match seek name config with
      | some (some d) => .ok (some d)
      | some none => .error .nullBlock
      | none => .ok none
  | [], _ => rfl
  | s :: config, h => by
    obtain ⟨directive, htok, hhead⟩ := token_zero (h.words s List.mem_cons_self)
    have hrest : Worded config := ⟨fun x hx => h.words x (List.mem_cons_of_mem _ hx),
      fun x hx => h.blocks x (List.mem_cons_of_mem _ hx)⟩
    have ih := findDirective_eq hrest
    unfold findDirective
    rw [htok, seek_cons, opened, hhead]
    show (if directive = "server".toList then _ else _) = _
    by_cases hs : directive = "server".toList
    · rw [if_pos hs, if_pos (congrArg some hs)]
      unfold childBlock
      cases hb : s.childBlock with
      | none => rfl
      | some block =>
        have hfind := @findIn_eq name block (h.blocks s List.mem_cons_self block hb).words
        show (findIn name block >>= _) = _
        rw [hfind, List.find?_map]
        cases hd : block.find? fun d => decide (d.tokens.head? = some name) with
        | some d =>
          have hd' : block.find? ((fun x : Option NginxConfigStatement =>
              x.elim true fun d => decide (d.tokens.head? = some name)) ∘ some) = some d := hd
          rw [hd']
          rfl
        | none =>
          have hd' : block.find? ((fun x : Option NginxConfigStatement =>
              x.elim true fun d => decide (d.tokens.head? = some name)) ∘ some) = none := hd
          rw [hd']
          exact ih
    · rw [if_neg hs, if_neg fun h => hs (Option.some.inj h)]
      exact ih

/-- The fault is undefined behaviour. -/
def isUndefined : StartFault → Bool
  | .exception => false
  | _ => true

/-- **The value of a directive**, or undefined behaviour. -/
theorem directiveValue_cases (h : Worded config) :
    Readable name config ∧ directiveValue name config = .ok (value name config) ∨
    ¬ Readable name config ∧
      ∃ e, directiveValue name config = .error e ∧ isUndefined e = true := by
  unfold directiveValue Readable value
  rw [findDirective_eq h]
  cases hs : seek name config with
  | none => exact Or.inl ⟨by simp, rfl⟩
  | some x =>
    cases x with
    | none => exact Or.inr ⟨by simp, _, rfl, rfl⟩
    | some d =>
      cases ht : d.tokens[1]? with
      | some v =>
        have htok : token d 1 = .ok v := by simp [token, ht]
        refine Or.inl ⟨by simp [ht], ?_⟩
        show (token d 1 >>= _) = _
        rw [htok]
        simp [ht]
      | none =>
        have htok : token d 1 = .error .tokensEnd := by simp [token, ht]
        refine Or.inr ⟨by simp [ht], .tokensEnd, ?_, rfl⟩
        show (token d 1 >>= _) = _
        rw [htok]
        rfl

/-- The number of a directive: `-1` if it is missing, nothing if it is none. -/
def intValue (name : Str) (config : NginxConfig) : Option ℤ :=
  match value name config with
  | some v => stoi v
  | none => some (-1)

theorem intDirective_cases (h : Worded config) :
    (Readable name config ∧ ∃ k, intValue name config = some k ∧ intDirective name config = .ok k) ∨
    (Readable name config ∧ intValue name config = none ∧
      intDirective name config = .error .exception) ∨
    (¬ Readable name config ∧
      ∃ e, intDirective name config = .error e ∧ isUndefined e = true) := by
  unfold intDirective intValue
  rcases @directiveValue_cases config name h with ⟨hr, hv⟩ | ⟨hr, e, he, hu⟩
  · rw [hv]
    cases hval : value name config with
    | none => exact Or.inl ⟨hr, -1, rfl, rfl⟩
    | some v =>
      cases hk : stoi v with
      | some k =>
        refine Or.inl ⟨hr, k, hk, ?_⟩
        show (match stoi v with | some k => pure k | none => throw StartFault.exception) = _
        rw [hk]
        rfl
      | none =>
        refine Or.inr (Or.inl ⟨hr, hk, ?_⟩)
        show (match stoi v with | some k => pure k | none => throw StartFault.exception) = _
        rw [hk]
        rfl
  · rw [he]
    exact Or.inr (Or.inr ⟨hr, e, rfl, hu⟩)

/-- The string of a directive; it is empty if the directive is missing. -/
def stringValue (name : Str) (config : NginxConfig) : Str := (value name config).getD []

theorem stringDirective_cases (h : Worded config) :
    (Readable name config ∧ stringDirective name config = .ok (stringValue name config)) ∨
    (¬ Readable name config ∧
      ∃ e, stringDirective name config = .error e ∧ isUndefined e = true) := by
  unfold stringDirective stringValue
  rcases @directiveValue_cases config name h with ⟨hr, hv⟩ | ⟨hr, e, he, hu⟩
  · rw [hv]
    exact Or.inl ⟨hr, rfl⟩
  · rw [he]
    exact Or.inr ⟨hr, e, rfl, hu⟩

end Directives

/-! ### The locations -/

/-- `child_block_->statements_[i]->tokens_[j]`, if it is there. -/
def argument? (s : NginxConfigStatement) (i j : ℕ) : Option Str := do
  let d ← (← s.childBlock)[i]?
  d.tokens[j]?

/-- The block of the location has what its authorizer takes. -/
def HasAuthorizer (s : NginxConfigStatement) : Prop :=
  argument? s 1 1 = some "OAUTH".toList ∧ argument? s 1 3 ≠ none ∨
    argument? s 1 1 = some "FAKE".toList

/-- The block of the location has what its handler takes. -/
def HasArguments (s : NginxConfigStatement) (name : Str) : Prop :=
  if name = "StaticHandler".toList ∨ name = "APIHandler".toList ∨ name = "LoginHandler".toList then
    argument? s 0 1 ≠ none
  else if name = "SecureAPIHandler".toList then
    argument? s 0 1 ≠ none ∧ HasAuthorizer s
  else True

/-- What `generateRoutes` comes by is complete. -/
def Complete : Option NginxConfigStatement → Prop
  | none => False
  | some s => s.tokens.head? = some "location".toList →
      ∃ name, s.tokens[2]? = some name ∧ HasArguments s name

/-- The directories the factories of some locations scan. -/
def rootsOf (xs : List (Option NginxConfigStatement)) : List Str :=
  xs.filterMap fun x => (x.bind locationOf).bind fun p => apiRoot p.2

/-- The files after some directories have been scanned; nothing if a scan throws. -/
def scanned (it : DirectoryIterator) (cwd : Loc Str) : List Str → Tree → Option Tree
  | [], t => some t
  | root :: roots, t =>
    match (scanFS it cwd ⟨root⟩).run ⟨t, ∅⟩ with
    | .ok _ w => scanned it cwd roots w.disk
    | .error _ _ => none

/-- All that `generateRoutes` comes by is complete, up to the first directory that cannot be scanned. -/
def AllComplete (it : DirectoryIterator) (cwd : Loc Str) (xs : List (Option NginxConfigStatement))
    (t : Tree) : Prop :=
  ∀ before x behind, xs = before ++ x :: behind → scanned it cwd (rootsOf before) t ≠ none → Complete x

section Locations
variable {it : DirectoryIterator} {cwd : Loc Str}

theorem scanned_append (t : Tree) : ∀ (roots roots' : List Str),
    scanned it cwd (roots ++ roots') t = (scanned it cwd roots t).bind (scanned it cwd roots')
  | [], _ => rfl
  | root :: roots, roots' => by
    simp only [List.cons_append, scanned]
    cases (scanFS it cwd ⟨root⟩).run ⟨t, ∅⟩ with
    | ok b w => exact scanned_append w.disk roots roots'
    | error e w => rfl

theorem allComplete_cons {x : Option NginxConfigStatement} {xs : List (Option NginxConfigStatement)}
    {t : Tree} : AllComplete it cwd (x :: xs) t ↔
      Complete x ∧ ∀ t', scanned it cwd (rootsOf [x]) t = some t' → AllComplete it cwd xs t' := by
  have hroots : ∀ before, rootsOf (x :: before) = rootsOf [x] ++ rootsOf before := by
    intro before
    unfold rootsOf
    rw [← List.filterMap_append]
    rfl
  constructor
  · intro h
    refine ⟨h [] x xs rfl (by simp [rootsOf, scanned]), ?_⟩
    rintro t' ht before y behind rfl hscan
    refine h (x :: before) y behind rfl ?_
    rw [hroots, scanned_append, ht]
    exact hscan
  · rintro ⟨hx, hxs⟩ before y behind h hscan
    cases before with
    | nil =>
      obtain ⟨rfl, -⟩ := List.cons.inj h
      exact hx
    | cons z before =>
      obtain ⟨rfl, rfl⟩ := List.cons.inj h
      rw [hroots, scanned_append] at hscan
      cases ht : scanned it cwd (rootsOf [x]) t with
      | none => simp [ht] at hscan
      | some t' =>
        rw [ht] at hscan
        exact hxs t' ht before y behind rfl hscan

/-- The result is there if `P` holds, and behaviour is undefined otherwise. -/
def Settles {α : Type} (P : Prop) (x : Except StartFault α) : Prop :=
  (P → ∃ a, x = .ok a) ∧ (¬ P → ∃ e, x = .error e ∧ isUndefined e = true)

theorem settles_pure {α : Type} {P : Prop} (h : P) (a : α) : Settles P (pure a) :=
  ⟨fun _ => ⟨a, rfl⟩, fun hn => absurd h hn⟩

theorem Settles.bind {α β : Type} {P R : Prop} {x : Except StartFault α}
    {f : α → Except StartFault β} (hx : Settles P x) (hP : R → P)
    (hf : ∀ a, x = .ok a → Settles R (f a)) : Settles R (x >>= f) := by
  cases x with
  | ok a => exact hf a rfl
  | error e =>
    have hno : ¬ P := fun h => by
      obtain ⟨a, ha⟩ := hx.1 h
      cases ha
    obtain ⟨e', he, hu⟩ := hx.2 hno
    cases he
    exact ⟨fun h => absurd (hP h) hno, fun _ => ⟨e, rfl, hu⟩⟩

/-- An argument that is read is there. -/
theorem argument_eq (s : NginxConfigStatement) (i j : ℕ) :
    (∃ a, argument? s i j = some a ∧ argument s i j = .ok a) ∨
    (argument? s i j = none ∧ ∃ e, argument s i j = .error e ∧ isUndefined e = true) := by
  unfold argument? argument childBlock statement token
  cases s.childBlock with
  | none => exact Or.inr ⟨rfl, .nullBlock, rfl, rfl⟩
  | some block =>
    simp only [Option.bind_eq_bind, Option.bind_some]
    cases hd : block[i]? with
    | none =>
      refine Or.inr ⟨rfl, .statementsEnd, ?_, rfl⟩
      simp [Bind.bind, Except.bind, hd]
    | some d =>
      cases ht : d.tokens[j]? with
      | none =>
        refine Or.inr ⟨by simp [ht], .tokensEnd, ?_, rfl⟩
        simp [Bind.bind, Except.bind, hd, ht]
      | some a =>
        refine Or.inl ⟨a, by simp [ht], ?_⟩
        simp [Bind.bind, Except.bind, hd, ht]

theorem argument_settles (s : NginxConfigStatement) (i j : ℕ) :
    Settles (argument? s i j ≠ none) (argument s i j) := by
  rcases argument_eq s i j with ⟨a, h, hrun⟩ | ⟨h, he⟩
  · exact ⟨fun _ => ⟨a, hrun⟩, fun hn => absurd (by simp [h]) hn⟩
  · exact ⟨fun hn => absurd h hn, fun _ => he⟩

theorem argument_ok {s : NginxConfigStatement} {i j : ℕ} {a : Str} (h : argument s i j = .ok a) :
    argument? s i j = some a := by
  rcases argument_eq s i j with ⟨b, hb, hrun⟩ | ⟨-, e, he, -⟩
  · rw [hrun] at h
    cases h
    exact hb
  · rw [he] at h
    cases h

/-- An argument in front of another one is there, if the other one is. -/
theorem argument_le {s : NginxConfigStatement} {i j k : ℕ} (hk : k ≤ j)
    (h : argument? s i j ≠ none) : argument? s i k ≠ none := by
  unfold argument? at *
  cases hb : s.childBlock with
  | none => simp [hb] at h
  | some block =>
    cases hd : block[i]? with
    | none => simp [hb, hd] at h
    | some d =>
      simp only [hb, hd, Option.bind_eq_bind, Option.bind_some, ne_eq, List.getElem?_eq_none_iff] at *
      omega

/-- **The authorizer** is assigned, or there is undefined behaviour. -/
theorem authorizer_settles (s : NginxConfigStatement) : Settles (HasAuthorizer s) (authorizer s) := by
  have hother : some "OAUTH".toList ≠ some "FAKE".toList := by decide
  unfold authorizer
  refine (argument_settles s 1 1).bind ?_ fun authType h => ?_
  · rintro (⟨h, -⟩ | h) <;> simp [h]
  have hauth := argument_ok h
  by_cases hoauth : authType = "OAUTH".toList
  · subst hoauth
    have hthree : HasAuthorizer s → argument? s 1 3 ≠ none := by
      rintro (⟨-, h3⟩ | h1)
      · exact h3
      · exact absurd (hauth.symm.trans h1) hother
    rw [if_pos rfl]
    refine (argument_settles s 1 2).bind (fun h => argument_le (by omega) (hthree h)) fun _ _ => ?_
    refine (argument_settles s 1 3).bind hthree fun key hkey => ?_
    exact settles_pure (Or.inl ⟨hauth, by simp [argument_ok hkey]⟩) _
  · rw [if_neg hoauth]
    by_cases hfake : authType = "FAKE".toList
    · rw [if_pos hfake]
      exact settles_pure (Or.inr (hfake ▸ hauth)) _
    · rw [if_neg hfake]
      refine ⟨?_, fun _ => ⟨.unassigned, rfl, rfl⟩⟩
      rintro (⟨h1, -⟩ | h1)
      · exact absurd (Option.some.inj (hauth.symm.trans h1)) hoauth
      · exact absurd (Option.some.inj (hauth.symm.trans h1)) hfake

/-- **The factory of a location** is known, or there is undefined behaviour. -/
theorem factoryKind_settles (s : NginxConfigStatement) (name : Str) :
    Settles (HasArguments s name) (factoryKind s name) := by
  have hfile : ∀ f : Str → FactoryKind,
      name = "StaticHandler".toList ∨ name = "APIHandler".toList ∨ name = "LoginHandler".toList →
      Settles (HasArguments s name)
        (argument s 0 1 >>= fun root => pure (some (f root)) : Except StartFault _) := by
    intro f hname
    have h : HasArguments s name ↔ argument? s 0 1 ≠ none := by
      unfold HasArguments
      rw [if_pos hname]
    refine (argument_settles s 0 1).bind h.mp fun root hr => settles_pure (h.mpr ?_) _
    simp [argument_ok hr]
  have hplain : ¬ (name = "StaticHandler".toList ∨ name = "APIHandler".toList ∨
      name = "LoginHandler".toList) → ¬ name = "SecureAPIHandler".toList → HasArguments s name := by
    intro h h'
    unfold HasArguments
    rw [if_neg h, if_neg h']
    trivial
  unfold factoryKind
  split_ifs with h1 h2 h3 h4 h5 h6 h7 h8
  · exact settles_pure (hplain (by rw [h1]; decide) (by rw [h1]; decide)) _
  · exact hfile _ (Or.inl h2)
  · exact settles_pure (hplain (by rw [h3]; decide) (by rw [h3]; decide)) _
  · exact hfile _ (Or.inr (Or.inl h4))
  · have h : HasArguments s name ↔ argument? s 0 1 ≠ none ∧ HasAuthorizer s := by
      unfold HasArguments
      rw [if_neg (by rw [h5]; decide), if_pos h5]
    refine (argument_settles s 0 1).bind (fun ha => (h.mp ha).1) fun root hr => ?_
    refine (authorizer_settles s).bind (fun ha => (h.mp ha).2) fun a ha => settles_pure ?_ _
    have hauth : HasAuthorizer s := by
      by_contra hno
      obtain ⟨e, he, -⟩ := (authorizer_settles s).2 hno
      rw [he] at ha
      cases ha
    exact h.mpr ⟨by simp [argument_ok hr], hauth⟩
  · exact settles_pure (hplain (by rw [h6]; decide) (by rw [h6]; decide)) _
  · exact settles_pure (hplain (by rw [h7]; decide) (by rw [h7]; decide)) _
  · exact hfile _ (Or.inr (Or.inr h8))
  · exact settles_pure (hplain (by simp only [h2, h4, h8, or_self, not_false_iff]) h5) _

/-- What a factory scans when it is made: nothing, or its root directory. -/
theorem newFactory_cases (kind : FactoryKind) (h : Heap) :
    (∃ t, (newFactory it cwd kind).run h = .ok ⟨kind, h.made⟩ t ∧
      scanned it cwd (apiRoot kind).toList h.memory.disk = some t.memory.disk) ∨
    (∃ t, (newFactory it cwd kind).run h = .error .exception t ∧
      scanned it cwd (apiRoot kind).toList h.memory.disk = none) := by
  have hconstruct : (construct it cwd kind).run h = match apiRoot kind with
      | some root => (scanRoot it cwd root).run h
      | none => .ok () h := by
    cases kind <;> rfl
  have hscan : ∀ root, (scanRoot it cwd root).run h =
      match (scanFS it cwd ⟨root⟩).run ⟨h.memory.disk, ∅⟩ with
      | .ok _ w =>
        .ok () ⟨⟨w.disk, Function.update h.memory.entityIdMaps h.made w.entityIdMap⟩, h.made⟩
      | .error _ w => .error .exception ⟨⟨w.disk, h.memory.entityIdMaps⟩, h.made⟩ := by
    intro root
    cases hs : scanFS it cwd ⟨root⟩ ⟨h.memory.disk, ∅⟩ <;> simp [scanRoot, EStateM.run, hs]
  unfold newFactory
  rw [EStateM.run_bind, hconstruct]
  cases apiRoot kind with
  | none => exact Or.inl ⟨_, rfl, rfl⟩
  | some root =>
    simp only [hscan, Option.toList_some, scanned]
    cases (scanFS it cwd ⟨root⟩).run ⟨h.memory.disk, ∅⟩ with
    | ok b w => exact Or.inl ⟨_, rfl, rfl⟩
    | error e w => exact Or.inr ⟨_, rfl, rfl⟩

/-- A step of `generateRoutes`. -/
def walkStep (it : DirectoryIterator) (cwd : Loc Str) (routes : RouteMap) :
    Option NginxConfigStatement → EStateM StartFault Heap RouteMap
  | some s => addLocation it cwd routes s
  | none => reading (.error .nullBlock)

/-- **`generateRoutes` goes over what there is to come by.** -/
theorem generateRoutes_eq : ∀ {config : NginxConfig} {routes : RouteMap}, Worded config →
    config.foldlM (addServer it cwd) routes = (walk config).foldlM (walkStep it cwd) routes
  | [], _, _ => rfl
  | s :: config, routes, h => by
    obtain ⟨directive, htok, hhead⟩ := token_zero (h.words s List.mem_cons_self)
    have hrest : Worded config := ⟨fun x hx => h.words x (List.mem_cons_of_mem _ hx),
      fun x hx => h.blocks x (List.mem_cons_of_mem _ hx)⟩
    have hserver : addServer it cwd routes s = (opened s).foldlM (walkStep it cwd) routes := by
      unfold addServer opened
      rw [htok, hhead]
      show (if directive = "server".toList then _ else _) = _
      by_cases hs : directive = "server".toList
      · rw [if_pos hs, if_pos (congrArg some hs)]
        unfold childBlock
        cases s.childBlock with
        | none => rfl
        | some block =>
          rw [List.foldlM_map]
          rfl
      · rw [if_neg hs, if_neg fun h => hs (Option.some.inj h)]
        rfl
    have hwalk : walk (s :: config) = opened s ++ walk config := rfl
    rw [List.foldlM_cons, hserver, hwalk, List.foldlM_append]
    exact bind_congr fun routes' => generateRoutes_eq hrest

/-- What `generateRoutes` comes by has a token. -/
theorem mem_walk {config : NginxConfig} (h : Worded config) {s : NginxConfigStatement}
    (hs : some s ∈ walk config) : s.tokens ≠ [] := by
  unfold walk at hs
  obtain ⟨x, hx, hmem⟩ := List.mem_flatMap.mp hs
  unfold opened at hmem
  split_ifs at hmem
  · cases hb : x.childBlock with
    | none => simp [hb] at hmem
    | some block =>
      simp only [hb, List.mem_map, Option.some.injEq, exists_eq_right] at hmem
      exact (h.blocks x hx block hb).words s hmem
  · cases hmem

/-- The statement of a location, whose directive is read. -/
theorem addLocation_location {s : NginxConfigStatement} (h0 : token s 0 = .ok "location".toList)
    (routes : RouteMap) : addLocation it cwd routes s = (do
      let location ← reading (token s 1)
      let name ← reading (token s 2)
      match ← reading (factoryKind s name) with
      | some kind =>
        let f ← newFactory it cwd kind
        pure (insertRoute routes location f)
      | none => pure routes) := by
  unfold addLocation
  rw [h0]
  rfl

/-- Other statements add nothing. -/
theorem addLocation_other {s : NginxConfigStatement} {directive : Str}
    (h0 : token s 0 = .ok directive) (hne : directive ≠ "location".toList) (routes : RouteMap) :
    addLocation it cwd routes s = pure routes := by
  unfold addLocation
  rw [h0]
  exact if_neg hne

/-- **One step**: undefined behaviour, a new factory whose directory is scanned, or nothing. -/
theorem walkStep_cases {x : Option NginxConfigStatement} (hw : ∀ s, x = some s → s.tokens ≠ [])
    (routes : RouteMap) (h : Heap) :
    (¬ Complete x ∧ ∃ e t, (walkStep it cwd routes x).run h = .error e t ∧ isUndefined e = true) ∨
    (Complete x ∧ ∃ routes' t, (walkStep it cwd routes x).run h = .ok routes' t ∧
      scanned it cwd (rootsOf [x]) h.memory.disk = some t.memory.disk) ∨
    (Complete x ∧ ∃ t, (walkStep it cwd routes x).run h = .error .exception t ∧
      scanned it cwd (rootsOf [x]) h.memory.disk = none) := by
  cases x with
  | none => exact Or.inl ⟨id, _, h, rfl, rfl⟩
  | some s =>
    obtain ⟨directive, htok, hhead⟩ := token_zero (hw s rfl)
    have hstep : (walkStep it cwd routes (some s)).run h = (addLocation it cwd routes s).run h := rfl
    have hplain : locationOf s = none → rootsOf [some s] = [] := fun hn => by
      simp [rootsOf, hn]
    by_cases hloc : directive = "location".toList
    · have hcomplete : Complete (some s) ↔ ∃ name, s.tokens[2]? = some name ∧ HasArguments s name := by
        unfold Complete
        simp [hhead, hloc]
      rw [hstep, addLocation_location (hloc ▸ htok), hcomplete]
      cases h2 : s.tokens[2]? with
      | none =>
        refine Or.inl ⟨by simp, .tokensEnd, h, ?_, rfl⟩
        cases h1 : s.tokens[1]? <;> simp [token, h1, h2]
      | some name =>
        obtain ⟨location, h1⟩ : ∃ location, s.tokens[1]? = some location := by
          have hlen := (List.getElem?_eq_some_iff.mp h2).1
          exact ⟨_, List.getElem?_eq_getElem (by omega)⟩
        by_cases hargs : HasArguments s name
        · obtain ⟨kind, hkind⟩ := (factoryKind_settles s name).1 hargs
          have hdone : ∃ name', some name = some name' ∧ HasArguments s name' := ⟨name, rfl, hargs⟩
          right
          cases kind with
          | none =>
            have hnone : locationOf s = none := by
              unfold locationOf
              simp only [hhead, hloc, if_true, h1, h2, hkind]
            refine Or.inl ⟨hdone, routes, h, by simp [token, h1, h2, hkind], ?_⟩
            rw [hplain hnone]
            rfl
          | some kind =>
            have hsome : locationOf s = some (location, kind) := by
              unfold locationOf
              simp only [hhead, hloc, if_true, h1, h2, hkind]
            have hroots : rootsOf [some s] = (apiRoot kind).toList := by
              cases hk : apiRoot kind <;> simp [rootsOf, hsome, hk]
            rw [hroots]
            rcases @newFactory_cases it cwd kind h with ⟨t, hrun, hscan⟩ | ⟨t, hrun, hscan⟩
            · exact Or.inl ⟨hdone, insertRoute routes location ⟨kind, h.made⟩, t,
                by simp [token, h1, h2, hkind, hrun], hscan⟩
            · exact Or.inr ⟨hdone, t, by simp [token, h1, h2, hkind, hrun], hscan⟩
        · obtain ⟨e, he, hu⟩ := (factoryKind_settles s name).2 hargs
          refine Or.inl ⟨?_, e, h, by simp [token, h1, h2, he], hu⟩
          rintro ⟨name', hn, ha⟩
          obtain rfl := Option.some.inj hn
          exact hargs ha
    · have hcomplete : Complete (some s) := fun hl => absurd (Option.some.inj (hhead.symm.trans hl)) hloc
      have hnone : locationOf s = none := by
        unfold locationOf
        rw [if_neg fun hl => hloc (Option.some.inj (hhead.symm.trans hl))]
      rw [addLocation_other htok hloc] at hstep
      refine Or.inr (Or.inl ⟨hcomplete, routes, h, hstep, ?_⟩)
      rw [hplain hnone]
      rfl

/-- **The locations**: no undefined behaviour exactly if all is complete. -/
theorem avoids_walk_iff : ∀ {xs : List (Option NginxConfigStatement)} {routes : RouteMap} {h : Heap},
    (∀ s, some s ∈ xs → s.tokens ≠ []) →
      (Avoids isUndefined (xs.foldlM (walkStep it cwd) routes) h ↔
        AllComplete it cwd xs h.memory.disk)
  | [], routes, h, _ => iff_of_true (avoids_of_ok rfl) fun before x behind hs => by simp at hs
  | x :: xs, routes, h, hw => by
    rw [List.foldlM_cons, allComplete_cons]
    rcases @walkStep_cases it cwd x (fun s hs => hw s (hs ▸ List.mem_cons_self)) routes h with
      ⟨hno, e, t, hrun, hu⟩ | ⟨hyes, routes', t, hrun, hscan⟩ | ⟨hyes, t, hrun, hscan⟩
    · refine iff_of_false (fun ha => ?_) fun ha => hno ha.1
      exact not_avoids hrun hu (avoids_bind.mp ha).1
    · rw [avoids_bind_of_ok hrun, avoids_walk_iff fun s hs => hw s (List.mem_cons_of_mem _ hs)]
      constructor
      · intro ha
        refine ⟨hyes, fun t' ht => ?_⟩
        obtain rfl := Option.some.inj (hscan.symm.trans ht)
        exact ha
      · exact fun ha => ha.2 _ hscan
    · refine iff_of_true (avoids_bind.mpr ⟨(avoids_of_error hrun).mpr rfl, fun a u hu => ?_⟩)
        ⟨hyes, fun t' ht => ?_⟩
      · rw [hrun] at hu
        cases hu
      · rw [hscan] at ht
        cases ht

end Locations

/-! ### The start -/

/-- **What is read before the start stops is complete.** -/
def StartsCleanly (it : DirectoryIterator) (cwd : Loc Str) (server : ℤ → Str → Str → ℤ → Bool)
    (config : NginxConfig) (t : Tree) : Prop :=
  Readable "listen".toList config ∧ ∀ port, intValue "listen".toList config = some port → port ≠ -1 →
  Readable "threads".toList config ∧ ∀ threads, intValue "threads".toList config = some threads →
  Readable "pk_file".toList config ∧ (stringValue "pk_file".toList config ≠ [] →
  Readable "pem_file".toList config ∧ (stringValue "pem_file".toList config ≠ [] →
  server port (stringValue "pk_file".toList config) (stringValue "pem_file".toList config)
    (if threads = -1 then 1 else threads) = true → AllComplete it cwd (walk config) t))

/-- The text is a decimal numeral, with or without a sign. -/
def IsNumeral (v : Str) : Prop := (takeSign v).2 ≠ [] ∧ ∀ c ∈ (takeSign v).2, c.isDigit = true

instance (v : Str) : Decidable (IsNumeral v) := by unfold IsNumeral; infer_instance

/-- **A malformed number is reported**: what `main` asks for is a numeral that has been written, or the
failure value `-1`, or the start ends there. -/
structure ReportsNumbers (config : NginxConfig) : Prop where
  port : ∀ port, portNumber config = .ok port → port ≠ -1 →
    ∃ v, value "listen".toList config = some v ∧ IsNumeral v ∧ stoi v = some port
  threads : ∀ port threads, portNumber config = .ok port → port ≠ -1 →
    numberOfThreads config = .ok threads → threads ≠ -1 →
      ∃ v, value "threads".toList config = some v ∧ IsNumeral v ∧ stoi v = some threads

/-- A value at the front of which there is a number other than `-1` is a numeral. -/
def WrittenOut (name : Str) (config : NginxConfig) : Prop :=
  ∀ v, value name config = some v → stoi v ≠ none → stoi v ≠ some (-1) → IsNumeral v

/-- The numbers the start reads are written out. -/
def NumbersWritten (config : NginxConfig) : Prop :=
  Readable "listen".toList config → WrittenOut "listen".toList config ∧
    (∀ port, intValue "listen".toList config = some port → port ≠ -1 →
      Readable "threads".toList config → WrittenOut "threads".toList config)

section Main
variable {it : DirectoryIterator} {cwd : Loc Str} {server : ℤ → Str → Str → ℤ → Bool}
  {config : NginxConfig} {h : Heap}

theorem avoids_reading_bind {α β : Type} {x : Except StartFault α}
    {f : α → EStateM StartFault Heap β} : Avoids isUndefined (reading x >>= f) h ↔
      (∀ e, x = .error e → isUndefined e = false) ∧ ∀ a, x = .ok a → Avoids isUndefined (f a) h := by
  cases x with
  | ok a =>
    have hrun : (reading (.ok a)).run h = .ok a h := rfl
    rw [avoids_bind_of_ok hrun]
    simp
  | error e =>
    have hrun : (reading (.error e) >>= f).run h = .error e h := rfl
    rw [avoids_of_error hrun]
    simp

/-- A number is read: without it the start goes no further. -/
theorem avoids_int {β : Type} {name : Str} {f : ℤ → EStateM StartFault Heap β} (hw : Worded config) :
    Avoids isUndefined (reading (intDirective name config) >>= f) h ↔
      Readable name config ∧ ∀ k, intValue name config = some k → Avoids isUndefined (f k) h := by
  rw [avoids_reading_bind]
  rcases @intDirective_cases config name hw with ⟨hr, k, hv, hrun⟩ | ⟨hr, hv, hrun⟩ | ⟨hr, e, hrun, hu⟩
  · rw [hrun, hv]
    simp [hr]
  · rw [hrun, hv]
    simp [hr, isUndefined]
  · rw [hrun]
    simp [hr, hu]

theorem avoids_string {β : Type} {name : Str} {f : Str → EStateM StartFault Heap β}
    (hw : Worded config) : Avoids isUndefined (reading (stringDirective name config) >>= f) h ↔
      Readable name config ∧ Avoids isUndefined (f (stringValue name config)) h := by
  rw [avoids_reading_bind]
  rcases @stringDirective_cases config name hw with ⟨hr, hrun⟩ | ⟨hr, e, hrun, hu⟩
  · rw [hrun]
    simp [hr]
  · rw [hrun]
    simp [hr, hu]

theorem avoids_ite {β : Type} {c : Prop} [Decidable c] {a : β} {x : EStateM StartFault Heap β} :
    Avoids isUndefined (if c then pure a else x) h ↔ (¬ c → Avoids isUndefined x h) := by
  split_ifs with hc
  · exact iff_of_true (avoids_of_ok rfl) fun hn => absurd hc hn
  · exact ⟨fun hx _ => hx, fun hx => hx hc⟩

/-- **When the start is without undefined behaviour.** -/
theorem avoids_main_iff (hw : Worded config) :
    Avoids isUndefined (main it cwd server config) h ↔
      StartsCleanly it cwd server config h.memory.disk := by
  have hroutes : ∀ {b : Bool}, Avoids isUndefined (if b then do
      let routes ← generateRoutes it cwd config
      pure (some routes)
    else throw .exception : EStateM StartFault Heap (Option RouteMap)) h ↔
      (b = true → AllComplete it cwd (walk config) h.memory.disk) := by
    intro b
    have hgen : Avoids isUndefined (generateRoutes it cwd config) h ↔
        AllComplete it cwd (walk config) h.memory.disk := by
      unfold generateRoutes
      rw [generateRoutes_eq hw]
      exact avoids_walk_iff fun s hs => mem_walk hw hs
    cases b with
    | true =>
      rw [if_pos rfl, avoids_bind, hgen]
      exact ⟨fun ha _ => ha.1, fun ha => ⟨ha rfl, fun _ _ _ => avoids_of_ok rfl⟩⟩
    | false =>
      have hthrow : (throw .exception : EStateM StartFault Heap (Option RouteMap)).run h =
          .error .exception h := rfl
      exact iff_of_true ((avoids_of_error hthrow).mpr rfl) fun hb => by cases hb
  unfold main portNumber numberOfThreads keyFileName certFileName StartsCleanly
  simp only [avoids_int hw, avoids_string hw, avoids_ite, hroutes, ne_eq]

/-- A number other than `-1` is the one at the front of the value. -/
theorem intDirective_value {name : Str} (hw : Worded config) {k : ℤ} (hk : k ≠ -1) :
    intDirective name config = .ok k ↔
      Readable name config ∧ ∃ v, value name config = some v ∧ stoi v = some k := by
  have hint : intValue name config = some k ↔ ∃ v, value name config = some v ∧ stoi v = some k := by
    unfold intValue
    cases value name config with
    | none => simp [hk.symm]
    | some v => simp
  rw [← hint]
  rcases @intDirective_cases config name hw with ⟨hr, k', hv, hrun⟩ | ⟨hr, hv, hrun⟩ | ⟨hr, e, hrun, -⟩
  · rw [hrun, hv]
    simp [hr]
  · rw [hrun, hv]
    simp
  · rw [hrun]
    simp [hr]

/-- The number that is read is written out. -/
theorem writtenOut_iff {name : Str} (hw : Worded config) (hr : Readable name config) :
    WrittenOut name config ↔ ∀ k, intDirective name config = .ok k → k ≠ -1 →
      ∃ v, value name config = some v ∧ IsNumeral v ∧ stoi v = some k := by
  constructor
  · intro hwritten k hrun hk
    obtain ⟨-, v, hv, hstoi⟩ := (intDirective_value hw hk).mp hrun
    exact ⟨v, hv, hwritten v hv (by simp [hstoi]) (by simp [hstoi, hk]), hstoi⟩
  · intro hall v hv hsome hminus
    obtain ⟨k, hstoi⟩ := Option.ne_none_iff_exists'.mp hsome
    have hk : k ≠ -1 := by
      rintro rfl
      exact hminus hstoi
    obtain ⟨v', hv', hnumeral, -⟩ := hall k ((intDirective_value hw hk).mpr ⟨hr, v, hv, hstoi⟩) hk
    obtain rfl := Option.some.inj (hv.symm.trans hv')
    exact hnumeral

/-- **When malformed numbers are reported.** -/
theorem reportsNumbers_iff (hw : Worded config) : ReportsNumbers config ↔ NumbersWritten config := by
  have hport : ∀ {port : ℤ}, port ≠ -1 → (portNumber config = .ok port ↔
      Readable "listen".toList config ∧ intValue "listen".toList config = some port) := by
    intro port hp
    unfold portNumber
    rw [intDirective_value hw hp]
    unfold intValue
    cases value "listen".toList config with
    | none => simp [hp.symm]
    | some v => simp
  constructor
  · intro h hlisten
    refine ⟨(writtenOut_iff hw hlisten).mpr h.port, fun port hv hp hthreads => ?_⟩
    exact (writtenOut_iff hw hthreads).mpr fun k => h.threads port k ((hport hp).mpr ⟨hlisten, hv⟩) hp
  · intro h
    refine ⟨fun port hrun hp => ?_, fun port k hrun hp hthreads hk => ?_⟩
    · have hlisten := ((hport hp).mp hrun).1
      exact (writtenOut_iff hw hlisten).mp (h hlisten).1 port hrun hp
    · obtain ⟨hlisten, hv⟩ := (hport hp).mp hrun
      have hr := ((intDirective_value hw hk).mp hthreads).1
      exact (writtenOut_iff hw hr).mp ((h hlisten).2 port hv hp hr) k hthreads hk

/-- A directive that is missing has the documented value. -/
theorem intDirective_missing {name : Str} (hw : Worded config) (hs : seek name config = none) :
    intDirective name config = .ok (-1) := by
  have hv : value name config = none := by
    unfold value
    rw [hs]
    rfl
  rcases @intDirective_cases config name hw with ⟨-, k, hk, hrun⟩ | ⟨-, hk, -⟩ | ⟨hr, -⟩
  · unfold intValue at hk
    rw [hv] at hk
    obtain rfl := Option.some.inj hk
    exact hrun
  · unfold intValue at hk
    rw [hv] at hk
    cases hk
  · exact absurd (fun x hx => absurd (hs.symm.trans hx) (by simp)) hr

theorem stringDirective_missing {name : Str} (hw : Worded config) (hs : seek name config = none) :
    stringDirective name config = .ok [] := by
  rcases @stringDirective_cases config name hw with ⟨-, hrun⟩ | ⟨hr, -⟩
  · have hv : stringValue name config = [] := by
      unfold stringValue value
      rw [hs]
      rfl
    rwa [hv] at hrun
  · exact absurd (fun x hx => absurd (hs.symm.trans hx) (by simp)) hr

end Main

/-- **The start of the server.** The configuration is that of an accepted text, and the constructor of the
server may throw. Then behaviour is defined and a malformed number is reported exactly if what is read
before the start stops is complete, and the numbers among it are written out; and a directive that is
missing has the documented value. -/
theorem startup_iff {text : Str} {config : NginxConfig} (hp : parse text [] = .returned true config)
    (it : DirectoryIterator) (cwd : Loc Str) (server : ℤ → Str → Str → ℤ → Bool) (h : Heap) :
    (Avoids isUndefined (main it cwd server config) h ∧ ReportsNumbers config ↔
      StartsCleanly it cwd server config h.memory.disk ∧ NumbersWritten config) ∧
    (seek "listen".toList config = none → portNumber config = .ok (-1)) ∧
    (seek "threads".toList config = none → numberOfThreads config = .ok (-1)) ∧
    (seek "pk_file".toList config = none → keyFileName config = .ok []) ∧
    (seek "pem_file".toList config = none → certFileName config = .ok []) := by
  have hw := worded_of_parse hp
  exact ⟨and_congr (avoids_main_iff hw) (reportsNumbers_iff hw), intDirective_missing hw,
    intDirective_missing hw, stringDirective_missing hw, stringDirective_missing hw⟩

/-- The text was accepted. -/
def accepted : Outcome → Bool
  | .returned valid _ => valid
  | _ => false

/-- A server with all directives, and a location for files. -/
def fullText : Str :=
  ("server \x7b listen 8080; threads 4; pk_file key.pem; pem_file cert.pem; " ++
    "location /static StaticHandler \x7b root data; \x7d \x7d").toList

theorem startup_full : ∃ config, parse fullText [] = .returned true config ∧
    ∀ h : Heap, (Avoids isUndefined (main inOrder [] (fun _ _ _ _ => true) config) h ∧
        ReportsNumbers config ↔
      StartsCleanly inOrder [] (fun _ _ _ _ => true) config h.memory.disk ∧ NumbersWritten config) := by
  have haccepted : accepted (parse fullText []) = true := by decide +kernel
  obtain ⟨config, hp⟩ : ∃ config, parse fullText [] = .returned true config := by
    unfold accepted at haccepted
    split at haccepted
    · next heq =>
      subst haccepted
      exact ⟨_, heq⟩
    · cases haccepted
  exact ⟨config, hp, fun h => (startup_iff hp inOrder [] (fun _ _ _ _ => true) h).1⟩

/-- **The start may fault**: the block of the server is missing. -/
theorem null_block : ¬ ∀ (text : Str) (config : NginxConfig) (h : Heap),
    parse text [] = .returned true config →
      Avoids isUndefined (main inOrder [] (fun _ _ _ _ => true) config) h := by
  intro hall
  have h := hall "server;".toList [.mk ["server".toList] none] ⟨⟨FileTree.empty, fun _ => ∅⟩, 0⟩ rfl
  exact absurd (h .nullBlock ⟨⟨FileTree.empty, fun _ => ∅⟩, 0⟩ rfl) (by decide)

end Kachow.Server.Startup
