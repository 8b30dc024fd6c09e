import Kachow.Config.Lexer

/-! # The parser of the configuration

A configuration is a list of statements; a statement has tokens and may have a block, which is a
configuration again. The parser keeps a stack of the blocks that are open. They lie on one path: each
is the block of the last statement of the one below, so the stack is the configuration and its height
(`ParserState`), and `modify` changes the block on top.

What the source leaves undefined, `top` or `pop` of an empty stack and `back` of an empty vector, is a
fault of its own here. The loop reads a token and takes a step; as every token takes a character, the
fuel given to it is enough (`parse_eq`). -/

namespace Kachow.Config.Parser

open Kachow.Lib.Text Kachow.Config.Lexer

/-! ### The tree -/

/-- `NginxConfigStatement`; the block is an `NginxConfig`. -/
inductive NginxConfigStatement where
  | mk (tokens : List Str) (childBlock : Option (List NginxConfigStatement))

/-- `NginxConfig`: its statements. -/
abbrev NginxConfig := List NginxConfigStatement

namespace NginxConfigStatement

/-- `tokens_`. -/
def tokens : NginxConfigStatement → List Str
  | .mk tokens _ => tokens

/-- `child_block_`. -/
def childBlock : NginxConfigStatement → Option NginxConfig
  | .mk _ childBlock => childBlock

/-- `tokens_.push_back`. -/
def pushToken (token : Str) : NginxConfigStatement → NginxConfigStatement
  | .mk tokens childBlock => .mk (tokens ++ [token]) childBlock

/-- `child_block_.reset`. -/
def setBlock (config : NginxConfig) : NginxConfigStatement → NginxConfigStatement
  | .mk tokens _ => .mk tokens (some config)

/-- Changing the block, if there is one. -/
def mapBlock (f : NginxConfig → NginxConfig) : NginxConfigStatement → NginxConfigStatement
  | .mk tokens childBlock => .mk tokens (childBlock.map f)

end NginxConfigStatement

/-! ### The open blocks -/

/-- Changing the last statement. -/
def onBack (f : NginxConfigStatement → NginxConfigStatement) : NginxConfig → NginxConfig
  | [] => []
  | [s] => [f s]
  | s :: t :: config => s :: onBack f (t :: config)

/-- Changing the block `n` levels down the last statements. -/
def modify : ℕ → (NginxConfig → NginxConfig) → NginxConfig → NginxConfig
  | 0, f => f
  | n + 1, f => onBack (NginxConfigStatement.mapBlock (modify n f))

/-- The block `n` levels down the last statements. -/
def block : ℕ → NginxConfig → Option NginxConfig
  | 0, config => some config
  | n + 1, config => config.getLast?.bind fun s => s.childBlock.bind (block n)

/-- The state of `Parse`: the configuration, the height of the stack, and the type of the last token. -/
structure ParserState where
  config : NginxConfig
  stack : ℕ
  lastTokenType : TokenType

/-- Before the first token: the stack holds the configuration. -/
def ParserState.init (config : NginxConfig) : ParserState := ⟨config, 1, .start⟩

/-- What the source leaves undefined. -/
inductive Fault where
  /-- `top` or `pop` of an empty stack. -/
  | emptyStack
  /-- `back` of an empty vector. -/
  | emptyBack
  deriving DecidableEq, Repr

/-- How `Parse` ends. -/
inductive Outcome where
  | returned (valid : Bool) (config : NginxConfig)
  | fault (e : Fault)
  | outOfFuel

/-- What a token does: the loop goes on, or it ends. -/
inductive Step where
  | next (st : ParserState)
  | stop (o : Outcome)

/-- Changing the last statement of the block on top of the stack. -/
def changeBack (st : ParserState) (f : NginxConfigStatement → NginxConfigStatement) :
    Except Fault NginxConfig :=
  match st.stack with
  | 0 => .error .emptyStack
  | n + 1 =>
    if (block n st.config).all List.isEmpty then .error .emptyBack
    else .ok (modify n (onBack f) st.config)

/-- A new statement in the block on top of the stack. -/
def emplaceBack (st : ParserState) : Except Fault NginxConfig :=
  match st.stack with
  | 0 => .error .emptyStack
  | n + 1 => .ok (modify n (· ++ [.mk [] none]) st.config)

/-- A statement may begin after a token of this type. -/
def beginsStatement (last : TokenType) : Bool :=
  last = .start || last = .statementEnd || last = .startBlock || last = .endBlock

/-- A block or the text may end after a token of this type. -/
def endsStatement (last : TokenType) : Bool := last = .statementEnd || last = .endBlock

/-- `Parse` on a token of type `normal`. -/
def onNormal (st : ParserState) (token : Str) : Except Fault ParserState := do
  let config ← if st.lastTokenType = .normal then pure st.config else emplaceBack st
  let config ← changeBack { st with config := config } (.pushToken token)
  pure ⟨config, st.stack, .normal⟩

/-- `Parse` on an opening brace. -/
def onStartBlock (st : ParserState) : Except Fault ParserState := do
  let config ← changeBack st (.setBlock [])
  pure ⟨config, st.stack + 1, .startBlock⟩

/-- `Parse` on a closing brace. -/
def onEndBlock (st : ParserState) : Except Fault ParserState :=
  match st.stack with
  | 0 => .error .emptyStack
  | n + 1 => .ok ⟨st.config, n, .endBlock⟩

/-- Going on, unless there was a fault. -/
def proceed : Except Fault ParserState → Step
  | .ok st => .next st
  | .error e => .stop (.fault e)

/-- The body of the loop of `Parse`. -/
def parseStep (st : ParserState) (token : Token) : Step :=
  match token.1 with
  | .error | .start => .stop (.returned false st.config)
  | .comment => .next st
  | .normal =>
    if beginsStatement st.lastTokenType || st.lastTokenType = .normal then
      proceed (onNormal st token.2)
    else .stop (.returned false st.config)
  | .statementEnd =>
    if st.lastTokenType = .normal then .next { st with lastTokenType := .statementEnd }
    else .stop (.returned false st.config)
  | .startBlock =>
    if st.lastTokenType = .normal then proceed (onStartBlock st)
    else .stop (.returned false st.config)
  | .endBlock =>
    if endsStatement st.lastTokenType then proceed (onEndBlock st)
    else .stop (.returned false st.config)
  | .eof => .stop (.returned (endsStatement st.lastTokenType) st.config)

/-- The loop of `Parse`. -/
def parseLoop : ℕ → ParserState → Str → Outcome
  | 0, _, _ => .outOfFuel
  | fuel + 1, st, input =>
    let (token, rest) := parseToken input
    match parseStep st token with
    | .next st => parseLoop fuel st rest
    | .stop o => o

/-- `Parse` into `config`. -/
def parse (input : Str) (config : NginxConfig) : Outcome :=
  parseLoop (input.length + 1) (.init config) input

/-! ### The loop over the tokens -/

/-- The loop of `Parse` on the tokens of a text. -/
def run (st : ParserState) : List Token → Outcome
  | [] => .outOfFuel
  | token :: tokens =>
    match parseStep st token with
    | .next st => run st tokens
    | .stop o => o

/-- At the last token `Parse` returns. -/
theorem parseStep_of_isLast {st : ParserState} {token : Token} (h : token.1.isLast = true) :
    ∃ valid, parseStep st token = .stop (.returned valid st.config) := by
  simp only [TokenType.isLast, Bool.or_eq_true, decide_eq_true_eq] at h
  unfold parseStep
  rcases h with h | h <;> rw [h] <;> exact ⟨_, rfl⟩

/-- A token after which the loop goes on is not the last. -/
theorem isLast_of_next {st st' : ParserState} {token : Token} (h : parseStep st token = .next st') :
    token.1.isLast = false := by
  by_contra hlast
  obtain ⟨valid, hstop⟩ := @parseStep_of_isLast st _ (eq_true_of_ne_false hlast)
  rw [hstop] at h
  cases h

theorem run_next {st st' : ParserState} {token : Token} (h : parseStep st token = .next st')
    (tokens : List Token) : run st (token :: tokens) = run st' tokens := by
  rw [run, h]

theorem run_stop {st : ParserState} {token : Token} {o : Outcome} (h : parseStep st token = .stop o)
    (tokens : List Token) : run st (token :: tokens) = o := by
  rw [run, h]

theorem parseStep_comment {st : ParserState} {token : Token} (h : token.1 = .comment) :
    parseStep st token = .next st := by
  unfold parseStep
  rw [h]

theorem parseLoop_eq : ∀ (fuel : ℕ) (st : ParserState) (input : Str),
    parseLoop fuel st input = run st (tokensFrom fuel input)
  | 0, _, _ => rfl
  | fuel + 1, st, input => by
    unfold parseLoop tokensFrom
    cases hl : (parseToken input).1.1.isLast with
    | true =>
      obtain ⟨valid, hstop⟩ := @parseStep_of_isLast st _ hl
      simp [hl, hstop, run]
    | false =>
      simp only [hl, Bool.false_eq_true, if_false, run]
      cases parseStep st (parseToken input).1 with
      | next st' => exact parseLoop_eq fuel st' _
      | stop o => rfl

/-- **`parse` takes the tokens of the text one after the other.** -/
theorem parse_eq (input : Str) (config : NginxConfig) :
    parse input config = run (.init config) (tokenize input) := parseLoop_eq _ _ _

/-! ### The block on top -/

theorem onBack_concat (f : NginxConfigStatement → NginxConfigStatement) :
    ∀ (config : NginxConfig) (s : NginxConfigStatement), onBack f (config ++ [s]) = config ++ [f s]
  | [], _ => rfl
  | [_], _ => rfl
  | x :: y :: config, s => congrArg (x :: ·) (onBack_concat f (y :: config) s)

theorem onBack_onBack (f g : NginxConfigStatement → NginxConfigStatement) (config : NginxConfig) :
    onBack f (onBack g config) = onBack (f ∘ g) config := by
  rcases List.eq_nil_or_concat config with rfl | ⟨c, s, rfl⟩
  · rfl
  · simp only [List.concat_eq_append, onBack_concat, Function.comp_apply]

theorem mapBlock_comp (f g : NginxConfig → NginxConfig) :
    NginxConfigStatement.mapBlock f ∘ NginxConfigStatement.mapBlock g =
      NginxConfigStatement.mapBlock (f ∘ g) := by
  funext s
  obtain ⟨tokens, block⟩ := s
  simp [NginxConfigStatement.mapBlock]

theorem onBack_ne_nil {f : NginxConfigStatement → NginxConfigStatement} {config : NginxConfig}
    (h : config ≠ []) : onBack f config ≠ [] := by
  obtain ⟨c, s, rfl⟩ := List.eq_nil_or_concat config |>.resolve_left h
  rw [List.concat_eq_append, onBack_concat]
  simp

/-- Two changes of one block. -/
theorem modify_modify (f g : NginxConfig → NginxConfig) : ∀ (n : ℕ) (config : NginxConfig),
    modify n f (modify n g config) = modify n (f ∘ g) config
  | 0, _ => rfl
  | n + 1, config => by
    have ih : modify n f ∘ modify n g = modify n (f ∘ g) := funext (modify_modify f g n)
    simp only [modify]
    rw [onBack_onBack, mapBlock_comp, ih]

theorem modify_congr {f g : NginxConfig → NginxConfig} (h : ∀ c, f c = g c) (n : ℕ)
    (config : NginxConfig) : modify n f config = modify n g config := by rw [funext h]

/-- Changing nothing. -/
theorem modify_id : ∀ (n : ℕ) (config : NginxConfig), modify n id config = config
  | 0, _ => rfl
  | n + 1, config => by
    have ih : modify n id = id := funext (modify_id n)
    rw [modify, ih]
    rcases List.eq_nil_or_concat config with rfl | ⟨c, ⟨tokens, b⟩, rfl⟩
    · rfl
    · rw [List.concat_eq_append, onBack_concat]
      simp [NginxConfigStatement.mapBlock]

/-- A block is changed by changing the last statement of the block around it. -/
theorem modify_succ (f : NginxConfig → NginxConfig) : ∀ n : ℕ,
    modify (n + 1) f = modify n (onBack (NginxConfigStatement.mapBlock f))
  | 0 => rfl
  | n + 1 => by
    rw [modify, modify_succ f n]
    rfl

theorem block_modify (f : NginxConfig → NginxConfig) : ∀ (n : ℕ) (config : NginxConfig),
    block n (modify n f config) = (block n config).map f
  | 0, _ => rfl
  | n + 1, config => by
    rcases List.eq_nil_or_concat config with rfl | ⟨c, ⟨tokens, b⟩, rfl⟩
    · rfl
    · simp only [List.concat_eq_append, modify, onBack_concat, block, List.getLast?_append,
        List.getLast?_singleton, Option.some_or, Option.bind_some, NginxConfigStatement.mapBlock,
        NginxConfigStatement.childBlock]
      cases b with
      | none => rfl
      | some b => exact block_modify f n b

/-- A block is the block of the last statement of the one below it. -/
theorem block_succ : ∀ (n : ℕ) (config : NginxConfig),
    block (n + 1) config = (block n config).bind fun b => b.getLast?.bind (·.childBlock)
  | 0, config => by
    simp only [block, Option.bind_some]
    congr
    funext s
    cases s.childBlock <;> rfl
  | n + 1, config => by
    have ih : block (n + 1) = fun c => (block n c).bind fun b => b.getLast?.bind (·.childBlock) :=
      funext (block_succ n)
    show (config.getLast?.bind fun s => s.childBlock.bind (block (n + 1))) =
      (config.getLast?.bind fun s => s.childBlock.bind (block n)).bind _
    rw [ih]
    cases config.getLast? with
    | none => rfl
    | some s =>
      obtain ⟨tokens, b⟩ := s
      cases b <;> rfl

/-- The block on top of the stack is there, and after a `normal` token it has a statement. -/
def Ready (st : ParserState) : Prop := ∀ n, st.stack = n + 1 →
  ∃ b, block n st.config = some b ∧ (st.lastTokenType = .normal → b ≠ [])

theorem ready_init (config : NginxConfig) : Ready (.init config) := fun n hn => by
  obtain rfl : n = 0 := by simpa [ParserState.init] using hn.symm
  exact ⟨config, rfl, fun h => absurd h (by simp [ParserState.init])⟩

/-- **In a ready state `back` is defined.** -/
theorem changeBack_of_block {config b : NginxConfig} {n : ℕ} {last : TokenType}
    (f : NginxConfigStatement → NginxConfigStatement) (hb : block n config = some b) (hne : b ≠ []) :
    changeBack ⟨config, n + 1, last⟩ f = .ok (modify n (onBack f) config) := by
  unfold changeBack
  simp [hb, hne]

/-- A token may follow one of type `last`. -/
def follows (last : TokenType) : TokenType → Bool
  | .normal => beginsStatement last || last = .normal
  | .statementEnd | .startBlock => last = .normal
  | .endBlock | .eof => endsStatement last
  | .start | .comment | .error => false

theorem begins_of_ends {last : TokenType} (h : endsStatement last = true) :
    beginsStatement last = true := by
  cases last <;> simp_all [endsStatement, beginsStatement]

section Step
variable {config b : NginxConfig} {n : ℕ} {last : TokenType} {st : ParserState}

/-- A token that may not follow ends the loop. -/
theorem parseStep_of_not_follows {token : Token} (hc : token.1 ≠ .comment)
    (h : follows st.lastTokenType token.1 = false) :
    parseStep st token = .stop (.returned false st.config) := by
  obtain ⟨t, value⟩ := token
  unfold parseStep
  cases t <;> simp_all [follows]

/-- A token after which the loop goes on may follow. -/
theorem follows_of_next {token : Token} {st' : ParserState} (hc : token.1 ≠ .comment)
    (h : parseStep st token = .next st') : follows st.lastTokenType token.1 = true := by
  by_contra hf
  rw [parseStep_of_not_follows hc (by simpa using hf)] at h
  simp at h

/-- A word begins a statement, or is added to it. -/
theorem parseStep_normal (value : Str) (hb : block n config = some b)
    (hne : last = .normal → b ≠ []) (h : follows last .normal = true) :
    parseStep ⟨config, n + 1, last⟩ (.normal, value) = .next ⟨modify n
      (fun b => onBack (.pushToken value) (if last = .normal then b else b ++ [.mk [] none])) config,
      n + 1, .normal⟩ := by
  unfold parseStep
  simp only [follows] at h
  simp only [h, if_true, onNormal]
  by_cases hl : last = .normal
  · subst hl
    simp only [if_true]
    have := @changeBack_of_block _ _ _ .normal (.pushToken value) hb (hne rfl)
    simp only [pure_bind, this]
    rfl
  · have hb' : block n (modify n (· ++ [.mk [] none]) config) = some (b ++ [.mk [] none]) := by
      rw [block_modify, hb]
      rfl
    have := @changeBack_of_block _ _ _ last (.pushToken value) hb' (by simp)
    simp only [hl, if_false, emplaceBack]
    change proceed (changeBack _ _ >>= _) = _
    rw [this, modify_modify]
    rfl

theorem parseStep_startBlock (value : Str) (hb : block n config = some b) (hne : b ≠ []) :
    parseStep ⟨config, n + 1, .normal⟩ (.startBlock, value) =
      .next ⟨modify n (onBack (.setBlock [])) config, n + 2, .startBlock⟩ := by
  have := @changeBack_of_block _ _ _ .normal (.setBlock []) hb hne
  unfold parseStep
  simp only [if_true, onStartBlock, this]
  rfl

theorem parseStep_endBlock (value : Str) (h : endsStatement last = true) :
    parseStep ⟨config, n + 1, last⟩ (.endBlock, value) = .next ⟨config, n, .endBlock⟩ := by
  unfold parseStep
  simp only [h, if_true]
  rfl

theorem parseStep_statementEnd (value : Str) :
    parseStep ⟨config, n, .normal⟩ (.statementEnd, value) = .next ⟨config, n, .statementEnd⟩ := rfl

theorem parseStep_eof (value : Str) (h : endsStatement last = true) :
    parseStep ⟨config, n, last⟩ (.eof, value) = .stop (.returned true config) := by
  unfold parseStep
  simp only [h]

/-- The height of the stack after a token. -/
def height (h : ℕ) : TokenType → ℕ
  | .startBlock => h + 1
  | .endBlock => h - 1
  | _ => h

/-- **One step**: a token that may follow is taken, and the state stays ready. -/
theorem parseStep_next {token : Token} (hst : Ready st) (h0 : st.stack ≠ 0)
    (h : follows st.lastTokenType token.1 = true) (hl : token.1.isLast = false) :
    ∃ st', parseStep st token = .next st' ∧ st'.lastTokenType = token.1 ∧
      st'.stack = height st.stack token.1 ∧ Ready st' := by
  obtain ⟨config, stack, last⟩ := st
  obtain ⟨n, rfl⟩ := Nat.exists_eq_succ_of_ne_zero h0
  obtain ⟨b, hb, hne⟩ := hst n rfl
  obtain ⟨t, value⟩ := token
  simp only at h hb hne
  cases t with
  | start => simp [follows] at h
  | comment => simp [follows] at h
  | error => simp [follows] at h
  | eof => simp [TokenType.isLast] at hl
  | normal =>
    refine ⟨_, parseStep_normal value hb hne h, rfl, rfl, fun m hm => ?_⟩
    obtain rfl : n = m := by simpa using hm
    refine ⟨_, by rw [block_modify, hb]; rfl, fun _ => ?_⟩
    apply onBack_ne_nil
    split_ifs with hlast
    · exact hne hlast
    · simp
  | statementEnd =>
    obtain rfl : last = .normal := by simpa [follows] using h
    exact ⟨_, parseStep_statementEnd value, rfl, rfl, fun m hm => by
      obtain rfl : n = m := by simpa using hm
      exact ⟨b, hb, fun h => by simp at h⟩⟩
  | startBlock =>
    obtain rfl : last = .normal := by simpa [follows] using h
    refine ⟨_, parseStep_startBlock value hb (hne rfl), rfl, rfl, fun m hm => ?_⟩
    obtain rfl : n + 1 = m := by simpa using hm
    refine ⟨[], ?_, fun h => by simp at h⟩
    obtain ⟨c, s, rfl⟩ := List.eq_nil_or_concat b |>.resolve_left (hne rfl)
    obtain ⟨tokens, child⟩ := s
    rw [block_succ, block_modify, hb, List.concat_eq_append]
    simp [onBack_concat, NginxConfigStatement.setBlock, NginxConfigStatement.childBlock]
  | endBlock =>
    refine ⟨_, parseStep_endBlock value (by simpa [follows] using h), rfl, rfl, fun m hm => ?_⟩
    obtain rfl : n = m + 1 := by simpa using hm
    rw [block_succ] at hb
    obtain ⟨b', hb', -⟩ := Option.bind_eq_some_iff.mp hb
    exact ⟨b', hb', fun h => by simp at h⟩

/-- Without a block on the stack only a semicolon or the end of the text can be taken. -/
theorem parseStep_zero {token : Token} (ht : token.1 = .normal ∨ token.1 = .endBlock)
    (h : follows last token.1 = true) :
    parseStep ⟨config, 0, last⟩ token = .stop (.fault .emptyStack) := by
  obtain ⟨t, value⟩ := token
  unfold parseStep
  rcases ht with ht | ht <;> simp only at ht <;> subst ht
  · simp only [follows] at h
    simp only [h, if_true, onNormal]
    by_cases hl : last = .normal
    · subst hl; rfl
    · simp only [hl, if_false]; rfl
  · simp only [follows] at h
    simp only [h, if_true]
    rfl

/-- Accepting means: the text ends after a statement. -/
theorem parseStep_accepts {st : ParserState} {token : Token} {c : NginxConfig}
    (h : parseStep st token = .stop (.returned true c)) :
    endsStatement st.lastTokenType = true ∧ c = st.config := by
  obtain ⟨t, value⟩ := token
  cases hf : follows st.lastTokenType t with
  | false =>
    by_cases hc : t = .comment
    · rw [parseStep_comment hc] at h
      simp at h
    · rw [parseStep_of_not_follows hc hf] at h
      simp at h
  | true =>
    have hcases : ∀ x : Except Fault ParserState, proceed x ≠ .stop (.returned true c) := fun x => by
      cases x <;> simp [proceed]
    cases t with
    | start => simp [follows] at hf
    | comment => simp [follows] at hf
    | error => simp [follows] at hf
    | normal =>
      simp only [follows] at hf
      simp only [parseStep, hf, if_true] at h
      exact absurd h (hcases _)
    | statementEnd =>
      simp only [follows, decide_eq_true_eq] at hf
      simp [parseStep, hf] at h
    | startBlock =>
      simp only [follows, decide_eq_true_eq] at hf
      simp only [parseStep, hf, if_true] at h
      exact absurd h (hcases _)
    | endBlock =>
      simp only [follows] at hf
      simp only [parseStep, hf, if_true] at h
      exact absurd h (hcases _)
    | eof =>
      simp only [parseStep, Step.stop.injEq, Outcome.returned.injEq] at h
      exact ⟨h.1, h.2.symm⟩

end Step

end Kachow.Config.Parser
