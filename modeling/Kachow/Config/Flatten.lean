import Kachow.Config.Grammar
import Kachow.Config.Lossless

/-! # The tree is the list of tokens

The tokens of a tree are those of its statements, each with its semicolon or its block in braces
(`flat`). While the parser runs, the blocks on the stack have no closing brace yet, and after a word the
last statement of the block on top has no semicolon (`flatWith`). A token that is taken adds itself at
the end of what has been read so far (`flat_step`): a word in the block on top, a brace by opening a
block there or by closing it. So the tokens of an accepted tree, without the closing braces of the blocks
that are open at the end of the text, are the tokens that were read (`parse_flat`). -/

namespace Kachow.Config.Flatten

open Kachow.Lib.Text Kachow.Config.Lexer Kachow.Config.Parser Kachow.Config.Grammar
open Kachow.Config.RoundTrip Kachow.Config.Layout Kachow.Config.Lossless

/-! ### The tokens of a tree with open blocks -/

/-- The words of the last statement. -/
def lastWords (config : NginxConfig) : List Token :=
  (config.getLast?.elim [] NginxConfigStatement.tokens).map (Prod.mk .normal)

/-- The last statement without what ends it. -/
def unfinished (config : NginxConfig) : List Token := flat config.dropLast ++ lastWords config

/-- The last `n` levels of blocks are open, and the innermost is as `f` says. -/
def flatWith (f : NginxConfig → List Token) : ℕ → NginxConfig → List Token
  | 0, config => f config
  | n + 1, config => unfinished config ++
      (config.getLast?.bind NginxConfigStatement.childBlock).elim [] fun b =>
        (.startBlock, ['{']) :: flatWith f n b

/-- **The tokens of a tree** whose last `n` levels of blocks are open. -/
def flatOpen : ℕ → NginxConfig → List Token := flatWith flat

/-- The blocks that are open at the end of the text. -/
def openAtEnd (tokens : List Token) : ℕ :=
  (types tokens).count .startBlock - (types tokens).count .endBlock

theorem flat_append : ∀ c d : NginxConfig, flat (c ++ d) = flat c ++ flat d
  | [], _ => rfl
  | s :: c, d => by
    rw [List.cons_append, flat, flat, flat_append c d, List.append_assoc]

theorem flat_concat (c : NginxConfig) (s : NginxConfigStatement) :
    flat (c ++ [s]) = flat c ++ flatStatement s := by
  rw [flat_append, flat, flat, List.append_nil]

theorem unfinished_concat (c : NginxConfig) (tokens : List Str) (child : Option NginxConfig) :
    unfinished (c ++ [NginxConfigStatement.mk tokens child]) =
      flat c ++ tokens.map (Prod.mk .normal) := by
  simp [unfinished, lastWords, NginxConfigStatement.tokens]

theorem flatWith_succ_concat (f : NginxConfig → List Token) (n : ℕ) (c b : NginxConfig)
    (tokens : List Str) : flatWith f (n + 1) (c ++ [NginxConfigStatement.mk tokens (some b)]) =
      flat c ++ tokens.map (Prod.mk .normal) ++ (.startBlock, ['{']) :: flatWith f n b := by
  rw [flatWith, unfinished_concat]
  simp [NginxConfigStatement.childBlock]

/-- Opening a block on top of `n` open ones. -/
theorem flatWith_flatWith (f : NginxConfig → List Token) (m : ℕ) : ∀ n : ℕ,
    flatWith f (n + m) = flatWith (flatWith f m) n
  | 0 => by rw [Nat.zero_add]; rfl
  | n + 1 => by
    funext config
    have hsum : n + 1 + m = n + m + 1 := by omega
    rw [hsum, flatWith, flatWith, flatWith_flatWith f m n]

/-- **Changing the block on top** changes the tokens at their end. -/
theorem flatWith_modify {f f' : NginxConfig → List Token} {g : NginxConfig → NginxConfig}
    {xs : List Token} : ∀ {n : ℕ} {config b : NginxConfig}, block n config = some b →
      f' (g b) = f b ++ xs → flatWith f' n (modify n g config) = flatWith f n config ++ xs
  | 0, config, b, hb, h => by
    obtain rfl : config = b := by simpa [block] using hb
    exact h
  | n + 1, config, b, hb, h => by
    rcases List.eq_nil_or_concat config with rfl | ⟨c, ⟨tokens, child⟩, rfl⟩
    · simp [block] at hb
    · rw [List.concat_eq_append] at hb ⊢
      rcases child with - | child
      · simp [block, NginxConfigStatement.childBlock] at hb
      · have hchild : block n child = some b := by
          simpa [block, NginxConfigStatement.childBlock] using hb
        have ih := flatWith_modify hchild h
        rw [Parser.modify, onBack_concat, NginxConfigStatement.mapBlock, Option.map_some,
          flatWith_succ_concat, flatWith_succ_concat, ih]
        simp

/-- Reading the block on top in another way. -/
theorem flatWith_block {f f' : NginxConfig → List Token} {xs : List Token} {n : ℕ}
    {config b : NginxConfig} (hb : block n config = some b) (h : f' b = f b ++ xs) :
    flatWith f' n config = flatWith f n config ++ xs := by
  have hid := @flatWith_modify f f' id xs n config b hb h
  rwa [modify_id] at hid

/-! ### One token -/

/-- A symbol has its own text. -/
def Spelled (x : Token) : Prop :=
  (x.1 = .statementEnd → x.2 = [';']) ∧ (x.1 = .startBlock → x.2 = ['{']) ∧
    (x.1 = .endBlock → x.2 = ['}'])

theorem spelled_of_reads {input rest : Str} {x : Token} (h : Reads input x rest) : Spelled x := by
  induction h with
  | blank _ _ ih => exact ih
  | symbol hw => rcases hw with rfl | rfl | rfl <;> simp [Spelled, typed, typeOf]
  | comment => simp [Spelled]
  | token => simp [Spelled]
  | eof => simp [Spelled]
  | error => simp [Spelled]

theorem spelled_tokenize (input : Str) : ∀ x ∈ tokenize input, Spelled x := by
  induction input using tokenize_induction with
  | last input h =>
    intro x hx
    rw [tokenize_eq, if_pos h, List.mem_singleton] at hx
    rw [hx]
    exact spelled_of_reads (reads_parseToken input)
  | next input h ih =>
    intro x hx
    rw [tokenize_eq, if_neg (by simp [h]), List.mem_cons] at hx
    rcases hx with rfl | hx
    · exact spelled_of_reads (reads_parseToken input)
    · exact ih x hx

/-- The tokens read so far: after a word the last statement is not finished. -/
def flatState (st : ParserState) : List Token :=
  flatWith (if st.lastTokenType = .normal then unfinished else flat) (st.stack - 1) st.config

theorem flatState_mk (config : NginxConfig) (n : ℕ) (last : TokenType) :
    flatState ⟨config, n + 1, last⟩ =
      flatWith (if last = .normal then unfinished else flat) n config := rfl

section Step
variable {config b : NginxConfig} {n : ℕ} {last : TokenType}

/-- A word is added to the last statement, or begins one. -/
theorem flat_normal (value : Str) (hb : block n config = some b)
    (hbare : last = .normal → ∃ c tokens, b = c ++ [NginxConfigStatement.mk tokens none]) :
    flatState ⟨modify n (fun b => onBack (.pushToken value)
      (if last = .normal then b else b ++ [NginxConfigStatement.mk [] none])) config, n + 1, .normal⟩ =
    flatState ⟨config, n + 1, last⟩ ++ [(TokenType.normal, value)] := by
  rw [flatState_mk, flatState_mk]
  refine flatWith_modify hb ?_
  by_cases hl : last = .normal
  · obtain ⟨c, tokens, rfl⟩ := hbare hl
    have hpush : onBack (.pushToken value) (c ++ [NginxConfigStatement.mk tokens none]) =
        c ++ [NginxConfigStatement.mk (tokens ++ [value]) none] := onBack_concat _ _ _
    simp only [hl, if_true]
    rw [hpush, unfinished_concat, unfinished_concat]
    simp
  · have hpush : onBack (.pushToken value) (b ++ [NginxConfigStatement.mk [] none]) =
        b ++ [NginxConfigStatement.mk [value] none] := onBack_concat _ _ _
    simp only [hl, if_true, if_false]
    rw [hpush, unfinished_concat]
    rfl

/-- A semicolon ends the last statement. -/
theorem flat_statementEnd (hb : block n config = some b)
    (hbare : ∃ c tokens, b = c ++ [NginxConfigStatement.mk tokens none]) :
    flatState ⟨config, n + 1, .statementEnd⟩ =
      flatState ⟨config, n + 1, .normal⟩ ++ [(TokenType.statementEnd, [';'])] := by
  obtain ⟨c, tokens, rfl⟩ := hbare
  rw [flatState_mk, flatState_mk]
  refine flatWith_block hb ?_
  simp only [reduceCtorEq, if_false, if_true]
  rw [unfinished_concat, flat_concat, flatStatement, List.append_assoc]

/-- An opening brace gives the last statement a block without statements. -/
theorem flat_startBlock (hb : block n config = some b)
    (hbare : ∃ c tokens, b = c ++ [NginxConfigStatement.mk tokens none]) :
    flatState ⟨modify n (onBack (.setBlock [])) config, n + 2, .startBlock⟩ =
      flatState ⟨config, n + 1, .normal⟩ ++ [(TokenType.startBlock, ['{'])] := by
  obtain ⟨c, tokens, rfl⟩ := hbare
  have hopen : flatWith flat 1 (onBack (.setBlock []) (c ++ [NginxConfigStatement.mk tokens none])) =
      unfinished (c ++ [NginxConfigStatement.mk tokens none]) ++ [(TokenType.startBlock, ['{'])] := by
    rw [onBack_concat, unfinished_concat, NginxConfigStatement.setBlock, flatWith_succ_concat]
    rfl
  have hflat := flatWith_modify hb hopen
  rw [flatState_mk, flatState_mk]
  rwa [← flatWith_flatWith] at hflat

/-- A closing brace ends the block on top. -/
theorem flat_endBlock (hb : block (n + 1) config = some b) (hl : endsStatement last = true) :
    flatState ⟨config, n + 1, .endBlock⟩ =
      flatState ⟨config, n + 2, last⟩ ++ [(TokenType.endBlock, ['}'])] := by
  have hlast : last ≠ .normal := by
    rintro rfl
    simp [endsStatement] at hl
  rw [block_succ] at hb
  obtain ⟨b', hb', hchild⟩ := Option.bind_eq_some_iff.mp hb
  have hclose : flat b' = flatWith flat 1 b' ++ [(TokenType.endBlock, ['}'])] := by
    obtain ⟨⟨tokens, child⟩, hs, hsome⟩ := Option.bind_eq_some_iff.mp hchild
    obtain rfl : child = some b := hsome
    obtain ⟨c, rfl⟩ := List.getLast?_eq_some_iff.mp hs
    rw [flat_concat, flatStatement, flatWith_succ_concat]
    simp [flatWith]
  have hflat := flatWith_block hb' hclose
  rw [flatState_mk, flatState_mk, if_neg hlast]
  rwa [← flatWith_flatWith] at hflat

/-- **One token** adds itself at the end. -/
theorem flat_step {st st' : ParserState} {x : Token} (hst : Bare st) (hx : Spelled x)
    (hc : x.1 ≠ .comment) (h : parseStep st x = .next st') (h0 : st.stack ≠ 0) (h0' : st'.stack ≠ 0) :
    flatState st' = flatState st ++ [x] ∧ st'.stack = height st.stack x.1 := by
  have hf := follows_of_next hc h
  obtain ⟨config, stack, last⟩ := st
  obtain ⟨n, rfl⟩ := Nat.exists_eq_succ_of_ne_zero h0
  obtain ⟨b, hb, hbare⟩ := hst n rfl
  obtain ⟨t, value⟩ := x
  have hne : last = .normal → b ≠ [] := by
    rintro hl rfl
    obtain ⟨c, tokens, hb'⟩ := hbare hl
    simp at hb'
  cases t with
  | comment => simp at hc
  | start => simp [follows] at hf
  | error => simp [follows] at hf
  | eof => simp [parseStep] at h
  | normal =>
    rw [parseStep_normal value hb hne hf] at h
    obtain rfl := Step.next.inj h
    exact ⟨flat_normal value hb hbare, rfl⟩
  | statementEnd =>
    obtain rfl : last = .normal := by simpa [follows] using hf
    obtain rfl : value = [';'] := hx.1 rfl
    rw [parseStep_statementEnd] at h
    obtain rfl := Step.next.inj h
    exact ⟨flat_statementEnd hb (hbare rfl), rfl⟩
  | startBlock =>
    obtain rfl : last = .normal := by simpa [follows] using hf
    obtain rfl : value = ['{'] := hx.2.1 rfl
    rw [parseStep_startBlock ['{'] hb (hne rfl)] at h
    obtain rfl := Step.next.inj h
    exact ⟨flat_startBlock hb (hbare rfl), rfl⟩
  | endBlock =>
    have hl : endsStatement last = true := by simpa [follows] using hf
    obtain rfl : value = ['}'] := hx.2.2 rfl
    rw [parseStep_endBlock ['}'] hl] at h
    obtain rfl := Step.next.inj h
    obtain ⟨m, rfl⟩ := Nat.exists_eq_succ_of_ne_zero h0'
    exact ⟨flat_endBlock hb hl, rfl⟩

end Step

/-! ### The last statement of the block on top -/

/-- The steps of the loop: the state before a token, and the token. -/
def visits (st : ParserState) : List Token → List (ParserState × Token)
  | [] => []
  | x :: xs => (st, x) ::
      match parseStep st x with
      | .next st' => visits st' xs
      | .stop _ => []

/-- The step calls `statements_.back()`: for a word that may follow, and for a brace behind a word. -/
def callsBack (st : ParserState) (x : Token) : Bool :=
  (x.1 = .normal || x.1 = .startBlock) && follows st.lastTokenType x.1

/-- The statements whose `back` is called: a word that begins a statement has put an empty one there. -/
def statementsAtBack (st : ParserState) (x : Token) : Option NginxConfig :=
  (block (st.stack - 1) st.config).map fun b =>
    if x.1 = .normal ∧ st.lastTokenType ≠ .normal then b ++ [NginxConfigStatement.mk [] none] else b

/-- Where `back` is called there is a last statement, and it has no block. -/
def BackIsBare (v : ParserState × Token) : Prop :=
  callsBack v.1 v.2 = true →
    ∃ c tokens, statementsAtBack v.1 v.2 = some (c ++ [NginxConfigStatement.mk tokens none])

theorem backIsBare {st : ParserState} (hst : Bare st) (h0 : st.stack ≠ 0) (x : Token) :
    BackIsBare (st, x) := by
  intro hcall
  obtain ⟨config, stack, last⟩ := st
  obtain ⟨n, rfl⟩ := Nat.exists_eq_succ_of_ne_zero h0
  obtain ⟨b, hb, hbare⟩ := hst n rfl
  by_cases hl : last = .normal
  · obtain ⟨c, tokens, rfl⟩ := hbare hl
    exact ⟨c, tokens, by simpa [statementsAtBack, hl] using hb⟩
  · have hx : x.1 = .normal := by
      simp only [callsBack, Bool.and_eq_true, Bool.or_eq_true, decide_eq_true_eq] at hcall
      obtain ⟨hx | hx, hf⟩ := hcall
      · exact hx
      · rw [hx] at hf
        simp [follows, hl] at hf
    exact ⟨b, [], by simpa [statementsAtBack, hl, hx] using hb⟩

theorem backIsBare_run : ∀ {xs : List Token} {st : ParserState}, Bare st →
    (∀ s ∈ states st xs, s.stack ≠ 0) → ∀ v ∈ visits st xs, BackIsBare v
  | [], _, _, _, v, hv => by simp [visits] at hv
  | x :: xs, st, hst, hs, v, hv => by
    have h0 : st.stack ≠ 0 := hs st (mem_states st _)
    rw [visits, List.mem_cons] at hv
    rcases hv with rfl | hv
    · exact backIsBare hst h0 x
    · rcases hstep : parseStep st x with st' | o
      · rw [hstep] at hv
        have hs' : ∀ s ∈ states st' xs, s.stack ≠ 0 := fun s hm =>
          hs s (by rw [states, hstep]; simp [hm])
        exact backIsBare_run (bare_step hst hstep).1 hs' v hv
      · rw [hstep] at hv
        simp at hv

/-! ### The whole text -/

/-- **The tokens of an accepted tree** are those read before, and those of the rest of the text. -/
theorem flat_of_run {c : NginxConfig} : ∀ {xs : List Token} {st : ParserState}, Stream xs → Bare st →
    (∀ x ∈ xs, Spelled x) → (∀ s ∈ states st xs, s.stack ≠ 0) → run st xs = .returned true c →
      ∃ k, k + 1 + (types xs).count .endBlock = st.stack + (types xs).count .startBlock ∧
        flatOpen k c = flatState st ++ content xs
  | [], _, _, _, _, _, h => by simp [run] at h
  | x :: xs, st, hstream, hst, hx, hs, h => by
    have h0 : st.stack ≠ 0 := hs st (mem_states st _)
    rcases hstep : parseStep st x with st' | o
    · rw [run_next hstep] at h
      have hs' : ∀ s ∈ states st' xs, s.stack ≠ 0 := fun s hm =>
        hs s (by rw [states, hstep]; simp [hm])
      have hlast : x.1.isLast = false := isLast_of_next hstep
      have hrest : Stream xs := by
        rcases hstream with hl | ⟨-, hrest⟩
        · rw [hlast] at hl
          simp at hl
        · exact hrest
      obtain ⟨k, hk, hflat⟩ := flat_of_run hrest (bare_step hst hstep).1
        (fun y hy => hx y (by simp [hy])) hs' h
      by_cases hc : x.1 = .comment
      · rw [parseStep_comment hc] at hstep
        obtain rfl := Step.next.inj hstep
        refine ⟨k, ?_, ?_⟩
        · rw [types_comment hc]
          exact hk
        · rw [content_comment hc]
          exact hflat
      · obtain ⟨hadd, hstack⟩ := flat_step hst (hx x (by simp)) hc hstep h0 (hs' st' (mem_states st' _))
        obtain ⟨d, e, h1, h2, h3⟩ := count_height h0 x.1 (types xs)
        have heof : x.1 ≠ .eof := by
          intro he
          rw [he] at hlast
          simp [TokenType.isLast] at hlast
        refine ⟨k, ?_, ?_⟩
        · rw [types_cons hc]
          omega
        · rw [hflat, hadd, content_cons ⟨hc, heof⟩, List.append_assoc]
          rfl
    · rw [run_stop hstep] at h
      subst h
      obtain ⟨hl, rfl⟩ := parseStep_accepts hstep
      have heof := eof_of_accepts hstep
      have hxs : xs = [] := by
        rcases hstream with hl | ⟨hl, -⟩
        · rfl
        · rw [heof] at hl
          simp [TokenType.isLast] at hl
      have hlast : st.lastTokenType ≠ .normal := by
        intro hn
        rw [hn] at hl
        simp [endsStatement] at hl
      refine ⟨st.stack - 1, ?_, ?_⟩
      · rw [hxs, types_cons (by simp [heof]), heof]
        have hnone : (types []).count .endBlock = 0 ∧ (types []).count .startBlock = 0 := ⟨rfl, rfl⟩
        simp only [List.count_cons, hnone, beq_iff_eq, reduceCtorEq, if_false]
        omega
      · simp [flatState, hlast, hxs, content, heof, flatOpen]

/-- **The tree is the list of tokens.** What the parser accepts while it keeps the root block has the
tokens that were read, in their order and each in its block; and wherever the last statement of the block
on top is used, there is one and it has no block yet. -/
theorem parse_flat {input : Str} {c : NginxConfig} (h : parse input [] = .returned true c)
    (hk : KeepsRoot input []) :
    flatOpen (openAtEnd (tokenize input)) c = content (tokenize input) ∧
      ∀ v ∈ visits (.init []) (tokenize input), BackIsBare v := by
  refine ⟨?_, backIsBare_run (bare_init []) hk⟩
  rw [parse_eq] at h
  obtain ⟨k, hcount, hflat⟩ := flat_of_run (stream_tokenize input) (bare_init [])
    (spelled_tokenize input) hk h
  have hstack : (ParserState.init []).stack = 1 := rfl
  have hopen : openAtEnd (tokenize input) = k := by
    unfold openAtEnd
    omega
  have hnone : flatState (.init []) = [] := rfl
  rw [hopen, hflat, hnone, List.nil_append]

/-- A block that is never closed, with a comment in it. -/
def openText : Str := "a \x7b b \x7b c 1; \x7d # d\n e;".toList

/-- Its tree. -/
def openTree : NginxConfig :=
  [.mk ["a".toList] (some [.mk ["b".toList] (some [.mk ["c".toList, "1".toList] none]),
    .mk ["e".toList] none])]

/-- The block `a` is open at the end, so its tokens have no closing brace. -/
theorem parse_flat_open : flatOpen (openAtEnd (tokenize openText)) openTree = content (tokenize openText) ∧
    ∀ v ∈ visits (.init []) (tokenize openText), BackIsBare v :=
  parse_flat rfl (by decide +kernel)

example : openAtEnd (tokenize openText) = 1 := by decide +kernel

end Kachow.Config.Flatten
