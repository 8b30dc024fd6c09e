import Kachow.Config.Layout
import Kachow.Server.Startup

/-! # What a rejected configuration leaves

The parser changes the caller's configuration as it goes, and where it rejects a text it leaves what it
has built. So the settings of a `server` block in front of the error are there (`port_survives`), and a
statement `server` that has no block yet is one without a block, which the readers of the settings
dereference.

What is left is what the tokens say up to the first that may not follow the one before it (`outline`): how
deep the blocks are, whether the last statement at the top begins with `server` and has a block, and which
statements lie directly in the blocks of `server`. The settings are missing, as the tests of rejected texts
have it, exactly if this says so (`rejected_iff`). -/

namespace Kachow.Server.Rejected

open Kachow.Lib.Text Kachow.Lib.Decimal Kachow.Config.Lexer Kachow.Config.Parser Kachow.Config.Layout
open Kachow.Server.Factories Kachow.Server.Startup

/-- There is no port, no file of a key and none of a certificate. -/
structure NoSettings (config : NginxConfig) : Prop where
  portNumber : Startup.portNumber config = .ok (-1)
  keyFileName : Startup.keyFileName config = .ok []
  certFileName : Startup.certFileName config = .ok []

/-! ### What the tokens say -/

/-- The words begin with `server`. -/
def isServer (tokens : List Str) : Bool := decide (tokens.head? = some "server".toList)

/-- What the tokens that are taken say of the `server` blocks. -/
structure Outline where
  /-- The type of the last token. -/
  last : TokenType
  /-- How many blocks are open. -/
  depth : ℕ
  /-- The last statement at the top begins with `server`. -/
  server : Bool
  /-- It has a block. -/
  opened : Bool
  /-- A statement before it begins with `server` and has no block. -/
  lost : Bool
  /-- The words of the statements directly in the blocks of `server`. -/
  settings : List (List Str)

namespace Outline

/-- Before the first token. -/
def init : Outline := ⟨.start, 0, false, true, false, []⟩

/-- A word that begins a statement. -/
def begin (o : Outline) (w : Str) : Outline :=
  match o.depth with
  | 0 => { o with
      last := .normal, server := isServer [w], opened := false
      lost := o.lost || (o.server && !o.opened) }
  | 1 => { o with last := .normal, settings := if o.server then o.settings ++ [[w]] else o.settings }
  | _ + 2 => { o with last := .normal }

/-- A further word of the last statement. -/
def extend (o : Outline) (w : Str) : Outline :=
  if o.depth = 1 ∧ o.server = true then
    { o with settings := o.settings.dropLast ++ [o.settings.getLastD [] ++ [w]] }
  else o

/-- A token that is taken. -/
def read (o : Outline) (x : Token) : Outline :=
  match x.1 with
  | .normal => if o.last = .normal then o.extend x.2 else o.begin x.2
  | .startBlock => { o with
      last := .startBlock, depth := o.depth + 1, opened := o.opened || decide (o.depth = 0) }
  | .endBlock => { o with last := .endBlock, depth := o.depth - 1 }
  | .statementEnd => { o with last := .statementEnd }
  | _ => o

end Outline

/-- What the tokens say up to the first that may not follow the one before it. -/
def outline (o : Outline) : List Token → Outline
  | [] => o
  | x :: xs =>
    if x.1 = .comment then outline o xs
    else if follows o.last x.1 then outline (o.read x) xs
    else o

/-- The first setting of this name, if there is one, reads as `-1`. -/
def ReadsAsMissing (name : Str) (settings : List (List Str)) : Prop :=
  ∀ words, settings.find? (fun ws => decide (ws.head? = some name)) = some words →
    ∃ v, words[1]? = some v ∧ stoi v = some (-1)

/-- **The tokens leave no settings**: every statement `server` has a block, none of the statements in these
blocks names a file, and the first port, if there is one, reads as `-1`. -/
structure Settingless (o : Outline) : Prop where
  lost : o.lost = false
  opened : o.server = true → o.opened = true
  noKey : ∀ ws ∈ o.settings, ws.head? ≠ some "pk_file".toList
  noCert : ∀ ws ∈ o.settings, ws.head? ≠ some "pem_file".toList
  noPort : ReadsAsMissing "listen".toList o.settings

/-! ### What the tree says -/

/-- The words of the statements in a block. -/
def wordsIn (block : Option NginxConfig) : List (List Str) :=
  block.elim [] (List.map NginxConfigStatement.tokens)

/-- The last statement at the top begins with `server`. -/
def lastServer (config : NginxConfig) : Bool := config.getLast?.any fun s => isServer s.tokens

/-- The last statement at the top, if there is one, has a block. -/
def lastOpened (config : NginxConfig) : Bool := config.getLast?.all fun s => s.childBlock.isSome

/-- The readers of the settings come by a missing block. -/
def missesBlock (config : NginxConfig) : Bool := (walk config).any Option.isNone

/-- The statements the readers of the settings come by. -/
def settingsOf (config : NginxConfig) : List (List Str) :=
  (walk config).filterMap (Option.map NginxConfigStatement.tokens)

/-- What the tree under construction says. -/
def outlineOf (st : ParserState) : Outline where
  last := st.lastTokenType
  depth := st.stack - 1
  server := lastServer st.config
  opened := lastOpened st.config
  lost := missesBlock st.config.dropLast
  settings := settingsOf st.config

section Tree
variable {c b : NginxConfig} {tokens : List Str} {child : Option NginxConfig}

theorem walk_concat (c : NginxConfig) (s : NginxConfigStatement) : walk (c ++ [s]) = walk c ++ opened s := by
  simp [walk]

/-- The statements in the block of the last statement count if it begins with `server`. -/
theorem settingsOf_concat (c : NginxConfig) (tokens : List Str) (child : Option NginxConfig) :
    settingsOf (c ++ [NginxConfigStatement.mk tokens child]) =
      settingsOf c ++ if isServer tokens then wordsIn child else [] := by
  rw [settingsOf, walk_concat, List.filterMap_append]
  unfold opened isServer
  rw [NginxConfigStatement.tokens]
  by_cases hs : tokens.head? = some "server".toList
  · rw [if_pos hs, if_pos (decide_eq_true hs)]
    rcases child with - | b
    · rfl
    · simp [settingsOf, wordsIn, NginxConfigStatement.childBlock, List.filterMap_map]
  · rw [if_neg hs, if_neg fun hd => hs (of_decide_eq_true hd)]
    rfl

/-- **The last statement at the top**, and those before it. -/
theorem outlineOf_concat (c : NginxConfig) (tokens : List Str) (child : Option NginxConfig) (n : ℕ)
    (last : TokenType) : outlineOf ⟨c ++ [NginxConfigStatement.mk tokens child], n + 1, last⟩ =
      ⟨last, n, isServer tokens, child.isSome, missesBlock c,
        settingsOf c ++ if isServer tokens then wordsIn child else []⟩ := by
  have hserver : lastServer (c ++ [NginxConfigStatement.mk tokens child]) = isServer tokens := by
    simp [lastServer, NginxConfigStatement.tokens]
  have hopened : lastOpened (c ++ [NginxConfigStatement.mk tokens child]) = child.isSome := by
    simp [lastOpened, NginxConfigStatement.childBlock]
  simp only [outlineOf]
  rw [hserver, hopened, List.dropLast_concat, settingsOf_concat]
  rfl

/-- A missing block is in front of the last statement, or is its own. -/
theorem missesBlock_eq (config : NginxConfig) : missesBlock config =
    (missesBlock config.dropLast || (lastServer config && !lastOpened config)) := by
  rcases List.eq_nil_or_concat config with rfl | ⟨c, ⟨tokens, child⟩, rfl⟩
  · rfl
  · rw [List.concat_eq_append, List.dropLast_concat, missesBlock, walk_concat, List.any_append]
    refine congrArg (missesBlock c || ·) ?_
    have hserver : lastServer (c ++ [NginxConfigStatement.mk tokens child]) = isServer tokens := by
      simp [lastServer, NginxConfigStatement.tokens]
    rw [hserver]
    unfold opened isServer
    rw [NginxConfigStatement.tokens]
    by_cases hs : tokens.head? = some "server".toList
    · rw [if_pos hs, decide_eq_true hs]
      rcases child with - | b
      · simp [lastOpened, NginxConfigStatement.childBlock]
      · simp [lastOpened, NginxConfigStatement.childBlock]
    · rw [if_neg hs, decide_eq_false hs]
      rfl

/-- Changing a block two levels down changes no words here. -/
theorem tokens_modify (f : NginxConfig → NginxConfig) (n : ℕ) (b : NginxConfig) :
    (modify (n + 1) f b).map NginxConfigStatement.tokens = b.map NginxConfigStatement.tokens := by
  rcases List.eq_nil_or_concat b with rfl | ⟨c, ⟨tokens, child⟩, rfl⟩
  · rfl
  · rw [Config.Parser.modify, List.concat_eq_append, onBack_concat, List.map_append, List.map_append]
    rfl

/-- A block that is open is that of the last statement. -/
theorem exists_last_of_block {n : ℕ} {config : NginxConfig} (hb : block (n + 1) config = some b) :
    ∃ c tokens child, config = c ++ [NginxConfigStatement.mk tokens (some child)] ∧
      block n child = some b := by
  rcases List.eq_nil_or_concat config with rfl | ⟨c, ⟨tokens, child⟩, rfl⟩
  · simp [block] at hb
  · rcases child with - | child
    · simp [block, NginxConfigStatement.childBlock] at hb
    · refine ⟨c, tokens, child, by simp, ?_⟩
      simpa [block, NginxConfigStatement.childBlock] using hb

/-- Changing an open block changes the last statement at the top. -/
theorem modify_concat (f : NginxConfig → NginxConfig) (n : ℕ) (c child : NginxConfig)
    (tokens : List Str) : modify (n + 1) f (c ++ [NginxConfigStatement.mk tokens (some child)]) =
      c ++ [NginxConfigStatement.mk tokens (some (modify n f child))] := by
  rw [Config.Parser.modify, onBack_concat]
  rfl

end Tree

/-! ### The tree says what the tokens say -/

section Step
variable {config b : NginxConfig} {n : ℕ} {last : TokenType}

/-- A word that begins a statement. -/
theorem outlineOf_begin (w : Str) (hb : block n config = some b) :
    outlineOf ⟨modify n (· ++ [NginxConfigStatement.mk [w] none]) config, n + 1, .normal⟩ =
      (outlineOf ⟨config, n + 1, last⟩).begin w := by
  rcases n with - | - | n
  · have hmodify : modify 0 (· ++ [NginxConfigStatement.mk [w] none]) config =
        config ++ [NginxConfigStatement.mk [w] none] := rfl
    rw [hmodify, outlineOf_concat, missesBlock_eq config]
    simp [Outline.begin, outlineOf, wordsIn]
  · obtain ⟨c, tokens, child, rfl, -⟩ := exists_last_of_block hb
    have hmodify : modify 0 (· ++ [NginxConfigStatement.mk [w] none]) child =
        child ++ [NginxConfigStatement.mk [w] none] := rfl
    rw [modify_concat, outlineOf_concat, outlineOf_concat, hmodify]
    rcases hs : isServer tokens with - | -
    · simp [Outline.begin]
    · simp [Outline.begin, wordsIn, NginxConfigStatement.tokens]
  · obtain ⟨c, tokens, child, rfl, -⟩ := exists_last_of_block hb
    rw [modify_concat, outlineOf_concat, outlineOf_concat]
    simp [Outline.begin, wordsIn, tokens_modify]

/-- A further word of the last statement. -/
theorem outlineOf_extend (w : Str) (hw : Worded config) (hb : block n config = some b)
    (hbare : ∃ c tokens, b = c ++ [NginxConfigStatement.mk tokens none]) :
    outlineOf ⟨modify n (onBack (.pushToken w)) config, n + 1, .normal⟩ =
      (outlineOf ⟨config, n + 1, .normal⟩).extend w := by
  rcases n with - | - | n
  · obtain rfl : config = b := by simpa [block] using hb
    obtain ⟨c, tokens, rfl⟩ := hbare
    have hmodify : modify 0 (onBack (.pushToken w)) (c ++ [NginxConfigStatement.mk tokens none]) =
        c ++ [NginxConfigStatement.mk (tokens ++ [w]) none] := onBack_concat _ _ _
    have hne : tokens ≠ [] := hw.words (.mk tokens none) (by simp)
    have hserver : isServer (tokens ++ [w]) = isServer tokens := by
      obtain ⟨v, rest, rfl⟩ := List.exists_cons_of_ne_nil hne
      rfl
    rw [hmodify, outlineOf_concat, outlineOf_concat, hserver]
    simp [Outline.extend]
  · obtain ⟨c, tokens, child, rfl, hchild⟩ := exists_last_of_block hb
    obtain rfl : child = b := by simpa [block] using hchild
    obtain ⟨d, us, rfl⟩ := hbare
    have hmodify : modify 0 (onBack (.pushToken w)) (d ++ [NginxConfigStatement.mk us none]) =
        d ++ [NginxConfigStatement.mk (us ++ [w]) none] := onBack_concat _ _ _
    rw [modify_concat, hmodify, outlineOf_concat, outlineOf_concat]
    rcases hs : isServer tokens with - | -
    · simp [Outline.extend]
    · simp [Outline.extend, wordsIn, NginxConfigStatement.tokens]
  · obtain ⟨c, tokens, child, rfl, -⟩ := exists_last_of_block hb
    rw [modify_concat, outlineOf_concat, outlineOf_concat]
    simp [Outline.extend, wordsIn, tokens_modify]

/-- An opening brace. -/
theorem outlineOf_startBlock (hb : block n config = some b)
    (hbare : ∃ c tokens, b = c ++ [NginxConfigStatement.mk tokens none]) :
    outlineOf ⟨modify n (onBack (.setBlock [])) config, n + 2, .startBlock⟩ =
      (outlineOf ⟨config, n + 1, .normal⟩).read (.startBlock, ['{']) := by
  rcases n with - | - | n
  · obtain rfl : config = b := by simpa [block] using hb
    obtain ⟨c, tokens, rfl⟩ := hbare
    have hmodify : modify 0 (onBack (.setBlock [])) (c ++ [NginxConfigStatement.mk tokens none]) =
        c ++ [NginxConfigStatement.mk tokens (some [])] := onBack_concat _ _ _
    rw [hmodify, outlineOf_concat, outlineOf_concat]
    simp [Outline.read, wordsIn]
  · obtain ⟨c, tokens, child, rfl, hchild⟩ := exists_last_of_block hb
    obtain rfl : child = b := by simpa [block] using hchild
    obtain ⟨d, us, rfl⟩ := hbare
    have hmodify : modify 0 (onBack (.setBlock [])) (d ++ [NginxConfigStatement.mk us none]) =
        d ++ [NginxConfigStatement.mk us (some [])] := onBack_concat _ _ _
    rw [modify_concat, hmodify, outlineOf_concat, outlineOf_concat]
    simp [Outline.read, wordsIn, NginxConfigStatement.tokens]
  · obtain ⟨c, tokens, child, rfl, -⟩ := exists_last_of_block hb
    rw [modify_concat, outlineOf_concat, outlineOf_concat]
    simp [Outline.read, wordsIn, tokens_modify]

/-- **One token** changes what the tree says as it changes what the tokens say. -/
theorem outlineOf_step {st st' : ParserState} {x : Token} (hst : Bare st) (hw : Worded st.config)
    (hc : x.1 ≠ .comment) (h : parseStep st x = .next st') : outlineOf st' = (outlineOf st).read x := by
  have hf := follows_of_next hc h
  obtain ⟨config, stack, last⟩ := st
  obtain ⟨t, value⟩ := x
  have hstep : ∀ {b : NginxConfig}, (last = .normal → ∃ c tokens, b = c ++ [.mk tokens none]) →
      last = .normal → b ≠ [] := by
    rintro b hbare hl rfl
    obtain ⟨c, tokens, hb'⟩ := hbare hl
    simp at hb'
  cases t with
  | comment => simp at hc
  | start => simp [follows] at hf
  | error => simp [follows] at hf
  | eof => simp [parseStep] at h
  | normal =>
    rcases stack with - | n
    · rw [parseStep_zero (Or.inl rfl) hf] at h
      simp at h
    obtain ⟨b, hb, hbare⟩ := hst n rfl
    rw [parseStep_normal value hb (hstep hbare) hf] at h
    obtain rfl := Step.next.inj h
    by_cases hl : last = .normal
    · subst hl
      simp only [if_true]
      exact outlineOf_extend value hw hb (hbare rfl)
    · have hpush : ∀ b, onBack (.pushToken value)
          (if last = .normal then b else b ++ [NginxConfigStatement.mk [] none]) =
          b ++ [NginxConfigStatement.mk [value] none] := fun b => by
        rw [if_neg hl, onBack_concat]
        rfl
      have hread : (outlineOf ⟨config, n + 1, last⟩).read (.normal, value) =
          (outlineOf ⟨config, n + 1, last⟩).begin value := if_neg hl
      rw [modify_congr hpush, outlineOf_begin value hb, hread]
  | statementEnd =>
    obtain rfl : last = .normal := by simpa [follows] using hf
    rw [parseStep_statementEnd] at h
    obtain rfl := Step.next.inj h
    rfl
  | startBlock =>
    obtain rfl : last = .normal := by simpa [follows] using hf
    rcases stack with - | n
    · simp [parseStep, onStartBlock, changeBack, proceed, bind, Except.bind] at h
    obtain ⟨b, hb, hbare⟩ := hst n rfl
    rw [parseStep_startBlock value hb (hstep hbare rfl)] at h
    obtain rfl := Step.next.inj h
    exact outlineOf_startBlock hb (hbare rfl)
  | endBlock =>
    have hl : endsStatement last = true := by simpa [follows] using hf
    rcases stack with - | n
    · rw [parseStep_zero (Or.inr rfl) hf] at h
      simp at h
    rw [parseStep_endBlock value hl] at h
    obtain rfl := Step.next.inj h
    rfl

end Step

/-- A token that may follow does not make the parser reject. -/
theorem follows_of_rejects {st : ParserState} {x : Token} {c : NginxConfig} (hc : x.1 ≠ .comment)
    (h : parseStep st x = .stop (.returned false c)) : follows st.lastTokenType x.1 = false := by
  obtain ⟨t, value⟩ := x
  have hproceed : ∀ x : Except Fault ParserState, proceed x ≠ .stop (.returned false c) := fun x => by
    cases x <;> simp [proceed]
  by_contra hf
  rw [Bool.not_eq_false] at hf
  cases t with
  | start => simp [follows] at hf
  | comment => simp at hc
  | error => simp [follows] at hf
  | normal =>
    simp only [follows] at hf
    simp only [parseStep, hf, if_true] at h
    exact absurd h (hproceed _)
  | statementEnd =>
    simp only [follows, decide_eq_true_eq] at hf
    simp [parseStep, hf] at h
  | startBlock =>
    simp only [follows, decide_eq_true_eq] at hf
    simp only [parseStep, hf, if_true] at h
    exact absurd h (hproceed _)
  | endBlock =>
    simp only [follows] at hf
    simp only [parseStep, hf, if_true] at h
    exact absurd h (hproceed _)
  | eof =>
    simp only [follows] at hf
    simp [parseStep, hf] at h

/-- **What a rejected text leaves** is what its tokens say. -/
theorem outline_of_run {c : NginxConfig} : ∀ {xs : List Token} {st : ParserState}, Bare st →
    Worded st.config → run st xs = .returned false c →
      Worded c ∧ ∃ st', st'.config = c ∧ outlineOf st' = outline (outlineOf st) xs
  | [], _, _, _, h => by simp [run] at h
  | x :: xs, st, hst, hw, h => by
    rcases hstep : parseStep st x with st' | o
    · rw [run_next hstep] at h
      have hrest := outline_of_run (bare_step hst hstep).1 (worded_parseStep hw hstep) h
      by_cases hc : x.1 = .comment
      · rw [parseStep_comment hc] at hstep
        obtain rfl := Step.next.inj hstep
        rwa [outline, if_pos hc]
      · have hlast : follows (outlineOf st).last x.1 = true := follows_of_next hc hstep
        rwa [outline, if_neg hc, if_pos hlast, ← outlineOf_step hst hw hc hstep]
    · rw [run_stop hstep] at h
      subst h
      have hc : x.1 ≠ .comment := by
        intro hc
        rw [parseStep_comment hc] at hstep
        simp at hstep
      have hf := follows_of_rejects hc hstep
      rw [parseStep_of_not_follows hc hf] at hstep
      obtain rfl : st.config = c := by simpa using hstep
      have hlast : ¬ follows (outlineOf st).last x.1 = true := by
        have hsame : (outlineOf st).last = st.lastTokenType := rfl
        rw [hsame, hf]
        simp
      exact ⟨hw, st, rfl, by rw [outline, if_neg hc, if_neg hlast]⟩

/-! ### Words are not empty -/

/-- The words of the settings are not empty. -/
def Filled (o : Outline) : Prop := ∀ ws ∈ o.settings, ∀ w ∈ ws, w ≠ []

theorem filled_read {o : Outline} {x : Token} (ho : Filled o) (hx : x.1 = .normal → x.2 ≠ []) :
    Filled (o.read x) := by
  obtain ⟨t, w⟩ := x
  cases t with
  | normal =>
    have hw : w ≠ [] := hx rfl
    unfold Outline.read
    simp only
    split_ifs with hl
    · unfold Outline.extend
      split_ifs with hd
      · intro ws hws v hv
        simp only [List.mem_append, List.mem_singleton] at hws
        rcases hws with hws | rfl
        · exact ho ws (List.dropLast_subset _ hws) v hv
        · rcases List.mem_append.mp hv with hv | hv
          · rcases hne : o.settings.getLast? with - | us
            · rw [List.getLastD_eq_getLast?, hne] at hv
              simp at hv
            · rw [List.getLastD_eq_getLast?, hne] at hv
              exact ho us (List.mem_of_getLast? hne) v hv
          · rw [List.mem_singleton.mp hv]
            exact hw
      · exact ho
    · unfold Outline.begin
      split
      · exact ho
      · intro ws hws v hv
        simp only at hws
        split_ifs at hws
        · rcases List.mem_append.mp hws with hws | hws
          · exact ho ws hws v hv
          · rw [List.mem_singleton.mp hws, List.mem_singleton] at hv
            rw [hv]
            exact hw
        · exact ho ws hws v hv
      · exact ho
  | start => exact ho
  | startBlock => exact ho
  | endBlock => exact ho
  | comment => exact ho
  | statementEnd => exact ho
  | eof => exact ho
  | error => exact ho

theorem filled_outline : ∀ {xs : List Token} {o : Outline}, Filled o →
    (∀ x ∈ xs, x.1 = .normal → x.2 ≠ []) → Filled (outline o xs)
  | [], _, ho, _ => ho
  | x :: xs, o, ho, hx => by
    have hxs : ∀ y ∈ xs, y.1 = .normal → y.2 ≠ [] := fun y hy => hx y (by simp [hy])
    rw [outline]
    split_ifs with hc hf
    · exact filled_outline ho hxs
    · exact filled_outline (filled_read ho (hx x (by simp))) hxs
    · exact ho

theorem ne_nil_of_isToken {w : Str} (hw : IsToken w) : w ≠ [] := by
  rcases hw with ⟨s, rfl, -⟩ | ⟨s, rfl, -⟩ | ⟨c, s, rfl, -⟩ <;> simp

/-! ### The readers of the settings -/

section Readers
variable {config : NginxConfig} {name : Str}

theorem mem_settingsOf {ws : List Str} :
    ws ∈ settingsOf config ↔ ∃ d, some d ∈ walk config ∧ d.tokens = ws := by
  unfold settingsOf
  rw [List.mem_filterMap]
  constructor
  · rintro ⟨x, hx, hws⟩
    obtain ⟨d, rfl, hd⟩ := Option.map_eq_some_iff.mp hws
    exact ⟨d, hx, hd⟩
  · rintro ⟨d, hd, rfl⟩
    exact ⟨some d, hd, rfl⟩

theorem missesBlock_eq_false : missesBlock config = false ↔ none ∉ walk config := by
  unfold missesBlock
  rw [List.any_eq_false]
  constructor
  · intro h hn
    exact h none hn rfl
  · intro h x hx
    rcases x with - | d
    · exact absurd hx h
    · simp

/-- A directive is not found if no block is missing and no statement has its name. -/
theorem seek_eq_none_iff : seek name config = none ↔
    missesBlock config = false ∧ ∀ ws ∈ settingsOf config, ws.head? ≠ some name := by
  rw [missesBlock_eq_false]
  unfold seek
  rw [List.find?_eq_none]
  constructor
  · intro h
    refine ⟨fun hn => h none hn rfl, fun ws hws hhead => ?_⟩
    obtain ⟨d, hd, rfl⟩ := mem_settingsOf.mp hws
    exact h (some d) hd (decide_eq_true hhead)
  · rintro ⟨hn, hname⟩ x hx
    rcases x with - | d
    · exact absurd hx hn
    · have hne := hname d.tokens (mem_settingsOf.mpr ⟨d, hx, rfl⟩)
      simpa using hne

/-- A file name is missing exactly if the directive is. -/
theorem stringDirective_iff (hw : Worded config)
    (hne : ∀ ws ∈ settingsOf config, ∀ w ∈ ws, w ≠ []) :
    stringDirective name config = .ok [] ↔ seek name config = none := by
  refine ⟨fun h => ?_, stringDirective_missing hw⟩
  rcases hs : seek name config with - | x
  · rfl
  rcases @stringDirective_cases config name hw with ⟨hr, hrun⟩ | ⟨-, e, hrun, -⟩
  · obtain ⟨d, v, rfl, hv⟩ := hr x hs
    have hvalue : stringValue name config = v := by
      unfold stringValue value
      rw [hs]
      simp [hv]
    have hmem : some d ∈ walk config := List.mem_of_find?_eq_some hs
    have hword := hne d.tokens (mem_settingsOf.mpr ⟨d, hmem, rfl⟩) v (List.mem_of_getElem? hv)
    rw [hrun, hvalue] at h
    exact absurd (Except.ok.inj h) hword
  · rw [hrun] at h
    simp at h

/-- Where no block is missing the first directive is the first of the settings. -/
theorem find_settings (hb : missesBlock config = false) : seek name config =
    none ∧ (settingsOf config).find? (fun ws => decide (ws.head? = some name)) = none ∨
    ∃ d, seek name config = some (some d) ∧
      (settingsOf config).find? (fun ws => decide (ws.head? = some name)) = some d.tokens := by
  rw [missesBlock_eq_false] at hb
  unfold seek settingsOf
  generalize walk config = xs at hb
  induction xs with
  | nil => exact Or.inl ⟨rfl, rfl⟩
  | cons x xs ih =>
    have hrest : none ∉ xs := fun hn => hb (by simp [hn])
    rcases x with - | d
    · exact absurd (by simp) hb
    · by_cases hname : d.tokens.head? = some name
      · exact Or.inr ⟨d, by simp [hname], by simp [hname]⟩
      · have hskip := ih hrest
        simpa [hname] using hskip

/-- A number is missing exactly if the directive is, or reads as `-1`. -/
theorem intDirective_iff (hw : Worded config) (hb : missesBlock config = false) :
    intDirective name config = .ok (-1) ↔ ReadsAsMissing name (settingsOf config) := by
  unfold ReadsAsMissing
  rcases @find_settings config name hb with ⟨hs, hfind⟩ | ⟨d, hs, hfind⟩
  · rw [hfind]
    exact iff_of_true (intDirective_missing hw hs) (by simp)
  · rw [hfind]
    have hvalue : value name config = d.tokens[1]? := by
      unfold value
      rw [hs]
      rfl
    rcases @intDirective_cases config name hw with ⟨hr, k, hk, hrun⟩ | ⟨hr, hk, hrun⟩ | ⟨hr, e, hrun, -⟩
    · obtain ⟨d', v, hd, hv⟩ := hr _ hs
      obtain rfl := Option.some.inj hd
      have hstoi : stoi v = some k := by
        unfold intValue at hk
        rw [hvalue, hv] at hk
        exact hk
      rw [hrun]
      constructor
      · intro h
        obtain rfl := Except.ok.inj h
        rintro ws hws
        obtain rfl := Option.some.inj hws
        exact ⟨v, hv, hstoi⟩
      · intro h
        obtain ⟨v', hv', hminus⟩ := h _ rfl
        obtain rfl := Option.some.inj (hv.symm.trans hv')
        rw [Option.some.inj (hstoi.symm.trans hminus)]
    · obtain ⟨d', v, hd, hv⟩ := hr _ hs
      obtain rfl := Option.some.inj hd
      have hstoi : stoi v = none := by
        unfold intValue at hk
        rw [hvalue, hv] at hk
        exact hk
      rw [hrun]
      refine iff_of_false (by simp) fun h => ?_
      obtain ⟨v', hv', hminus⟩ := h _ rfl
      obtain rfl := Option.some.inj (hv.symm.trans hv')
      rw [hstoi] at hminus
      simp at hminus
    · rw [hrun]
      refine iff_of_false (by simp) fun h => hr fun x hx => ?_
      obtain ⟨v, hv, -⟩ := h _ rfl
      exact ⟨d, v, Option.some.inj (hx.symm.trans hs), hv⟩

/-- **The settings are missing** exactly if the tree says so. -/
theorem noSettings_iff {st : ParserState} (hw : Worded st.config) (hfill : Filled (outlineOf st)) :
    NoSettings st.config ↔ Settingless (outlineOf st) := by
  have hmiss := missesBlock_eq st.config
  have hkey := @stringDirective_iff st.config "pk_file".toList hw hfill
  have hcert := @stringDirective_iff st.config "pem_file".toList hw hfill
  rw [seek_eq_none_iff] at hkey hcert
  constructor
  · rintro ⟨hport, hk, hc⟩
    obtain ⟨hb, hpk⟩ := hkey.mp hk
    obtain ⟨-, hpem⟩ := hcert.mp hc
    rw [hb] at hmiss
    obtain ⟨hlost, hopened⟩ := Bool.or_eq_false_iff.mp hmiss.symm
    refine ⟨hlost, fun hs => ?_, hpk, hpem, (intDirective_iff hw hb).mp hport⟩
    have hserver : lastServer st.config = true := hs
    rw [hserver] at hopened
    have hlast : lastOpened st.config = true := by simpa using hopened
    exact hlast
  · rintro ⟨hlost, hopened, hpk, hpem, hport⟩
    have hb : missesBlock st.config = false := by
      have hfront : missesBlock st.config.dropLast = false := hlost
      rw [hmiss, hfront]
      rcases hs : lastServer st.config with - | -
      · rfl
      · have hlast : lastOpened st.config = true := hopened hs
        rw [hlast]
        rfl
    exact ⟨(intDirective_iff hw hb).mpr hport, hkey.mpr ⟨hb, hpk⟩, hcert.mpr ⟨hb, hpem⟩⟩

end Readers

/-- **A rejected configuration leaves no settings** exactly if its tokens, up to the first that may not
follow, say so. -/
theorem rejected_iff {input : Str} {config : NginxConfig} (h : parse input [] = .returned false config) :
    NoSettings config ↔ Settingless (outline .init (tokenize input)) := by
  rw [parse_eq] at h
  have hinit : outlineOf (.init []) = .init := rfl
  obtain ⟨hw, st, rfl, hst⟩ := outline_of_run (bare_init []) Worded.nil h
  rw [hinit] at hst
  have hfill : Filled (outline .init (tokenize input)) := by
    refine filled_outline (fun ws hws => by simp [Outline.init] at hws) ?_
    rintro ⟨t, w⟩ hx ht
    obtain rfl : t = .normal := ht
    exact ne_nil_of_isToken (isToken_of_mem input w hx)
  rw [← hst] at hfill ⊢
  exact noSettings_iff hw hfill

/-- A text of the tests: the brace is doubled, so it is rejected before there is a setting. -/
def doubledBrace : Str := "server \x7b\x7b listen 80; \x7d".toList

/-- It leaves a `server` block without settings. -/
theorem rejected_early :
    ∃ config, parse doubledBrace [] = .returned false config ∧ NoSettings config := by
  have hparse : parse doubledBrace [] = .returned false [.mk ["server".toList] (some [])] := rfl
  have houtline : outline .init (tokenize doubledBrace) = ⟨.startBlock, 1, true, true, false, []⟩ := rfl
  refine ⟨_, hparse, (rejected_iff hparse).mpr ?_⟩
  rw [houtline]
  exact ⟨rfl, fun _ => rfl, by simp, by simp, fun ws hws => by cases hws⟩

/-- **A port in front of the error survives**, and a statement that has no block yet is one without. -/
theorem port_survives :
    (∃ config, parse "server \x7b listen 80; \x7d;".toList [] = .returned false config ∧
      portNumber config = .ok 80 ∧ ¬ NoSettings config) ∧
    ∃ config, parse "server ".toList [] = .returned false config ∧
      portNumber config = .error .nullBlock := by
  have hparse : parse "server \x7b listen 80; \x7d;".toList [] = .returned false
      [.mk ["server".toList] (some [.mk ["listen".toList, "80".toList] none])] := rfl
  have hport : portNumber [.mk ["server".toList] (some [.mk ["listen".toList, "80".toList] none])] =
      .ok 80 := rfl
  have hnull : parse "server ".toList [] = .returned false [.mk ["server".toList] none] := rfl
  refine ⟨⟨_, hparse, hport, fun h => ?_⟩, _, hnull, rfl⟩
  have hmissing := h.portNumber
  rw [hport] at hmissing
  simp at hmissing

end Kachow.Server.Rejected
