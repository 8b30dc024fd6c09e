import Kachow.Config.Grammar
import Kachow.Config.RoundTrip

/-! # Layout

A text lays out tokens, with gaps between them: white space and comments. Two texts that lay out the same
tokens are parsed alike as long as the lexer sees the gaps (`run_text`), up to the token at which the parser
stops. It does not see a carriage return right behind a word or a quoted string: the word goes on with it,
and the quoted string is an error (`parseToken_return`). So a line end `\r\n` behind a word changes the
word, and the parser then builds another tree, as the words of the tree are those of the text in their
order (`words_of_run`). -/

namespace Kachow.Config.Layout

open Kachow.Lib.Text Kachow.Config.Lexer Kachow.Config.Parser Kachow.Config.Grammar
open Kachow.Config.RoundTrip

/-! ### Texts with gaps -/

/-- A run of white space and of comments whose characters satisfy `body`, each up to a line end. -/
inductive IsGap (body : Char → Prop) : Str → Prop
  | nil : IsGap body []
  | blank {c : Char} {g : Str} (hc : isBlank c = true) (hg : IsGap body g) : IsGap body (c :: g)
  | comment {s g : Str} {c : Char} (hs : ∀ d ∈ s, body d) (hc : c = '\n' ∨ c = '\r')
      (hg : IsGap body g) : IsGap body ('#' :: (s ++ c :: g))

/-- The characters `; { }`. -/
def IsSymbol (w : Str) : Prop := w = [';'] ∨ w = ['{'] ∨ w = ['}']

instance (w : Str) : Decidable (IsSymbol w) :=
  inferInstanceAs (Decidable (w = [';'] ∨ w = ['{'] ∨ w = ['}']))

/-- A complete token and the gap behind it, which is empty or starts with white space. -/
structure Piece where
  token : Str
  gap : Str
  complete : IsSymbol token ∨ IsToken token
  isGap : IsGap (· ≠ '\n') gap
  startsBlank : ∀ c ∈ gap.head?, isBlank c = true

/-- Tokens laid out: a gap is empty only next to a symbol, and the last token is `;` or `}`. -/
structure Arrangement where
  lead : Str
  pieces : List Piece
  isGap : IsGap (· ≠ '\n') lead
  delimited : pieces.IsChain fun p q => p.gap = [] → IsSymbol p.token ∨ IsSymbol q.token
  ended : ∀ p ∈ pieces.getLast?, p.token = [';'] ∨ p.token = ['}']

/-- The text of tokens and gaps. -/
def piecesText (ps : List Piece) : Str := ps.flatMap fun p => p.token ++ p.gap

/-- The type of a complete token. -/
def typeOf (w : Str) : TokenType :=
  if w = [';'] then .statementEnd else if w = ['{'] then .startBlock
  else if w = ['}'] then .endBlock else .normal

/-- A complete token with its type. -/
def typed (w : Str) : Token := (typeOf w, w)

namespace Arrangement

/-- The text. -/
def text (l : Arrangement) : Str := l.lead ++ piecesText l.pieces

/-- The tokens. -/
def tokens (l : Arrangement) : List Str := l.pieces.map Piece.token

/-- Of every piece behind which the parser reads on `P` holds: up to its token, each may follow the one
before it. -/
def WhereRead (l : Arrangement) (P : Piece → Prop) : Prop :=
  ∀ ps p qs, l.pieces = ps ++ p :: qs →
    Legal .start ((ps ++ [p]).map fun q => typeOf q.token) → P p

/-- No gap behind a word or a quoted string starts with a carriage return, as far as the text is read. -/
def KeepsWords (l : Arrangement) : Prop :=
  l.WhereRead fun p => ¬ IsSymbol p.token → p.gap.head? ≠ some '\r'

/-- The gaps are gaps also if a carriage return ends a comment, as far as the text is read. -/
def KeepsComments (l : Arrangement) : Prop :=
  IsGap (fun c => c ≠ '\n' ∧ c ≠ '\r') l.lead ∧
    l.WhereRead fun p => IsGap (fun c => c ≠ '\n' ∧ c ≠ '\r') p.gap

end Arrangement

/-! ### The lexer between the tokens -/

theorem readComment {c : Char} (hc : c = '\n' ∨ c = '\r') (rest : Str) : ∀ {s : Str} (value : Str),
    (∀ d ∈ s, d ≠ '\n' ∧ d ≠ '\r') →
    parseTokenFrom .tokenTypeComment value (s ++ c :: rest) = ((.comment, value ++ s), rest)
  | [], value, _ => by simp [parseTokenFrom, hc]
  | d :: s, value, h => by
    have hd : ¬ (d = '\n' ∨ d = '\r') := by
      have := h d (by simp)
      tauto
    rw [List.cons_append, parseTokenFrom, if_neg hd,
      readComment hc rest (value ++ [d]) fun e he => h e (by simp [he])]
    simp

/-- **A gap is skipped.** -/
theorem run_gap {g : Str} (hg : IsGap (fun c => c ≠ '\n' ∧ c ≠ '\r') g) (st : ParserState)
    (rest : Str) : run st (tokenize (g ++ rest)) = run st (tokenize rest) := by
  induction hg with
  | nil => rfl
  | @blank c g hc hg ih =>
    have hskip : tokenize (c :: (g ++ rest)) = tokenize (g ++ rest) :=
      tokenize_blank (b := [c]) (by simpa using hc) (g ++ rest)
    rw [List.cons_append, hskip]
    exact ih
  | @comment s g c hs hc hg ih =>
    have hread : parseToken ('#' :: (s ++ c :: (g ++ rest))) = ((.comment, '#' :: s), g ++ rest) := by
      unfold parseToken
      rw [parseTokenFrom]
      exact readComment hc (g ++ rest) ['#'] hs
    have htext : ('#' :: (s ++ c :: g)) ++ rest = '#' :: (s ++ c :: (g ++ rest)) := by simp
    rw [htext, tokenize_eq, hread]
    exact (run_next (parseStep_comment rfl) _).trans ih

theorem typeOf_normal {w : Str} (h : ¬ IsSymbol w) : typeOf w = .normal := by
  simp only [IsSymbol, not_or] at h
  simp [typeOf, h.1, h.2.1, h.2.2]

/-- A symbol is read wherever it stands. -/
theorem tokenize_symbol {w : Str} (h : IsSymbol w) (rest : Str) :
    tokenize (w ++ rest) = typed w :: tokenize rest := by
  rw [tokenize_eq]
  rcases h with rfl | rfl | rfl <;> rfl

theorem tokenize_word {w : Str} (hs : ¬ IsSymbol w) (hw : IsToken w) {d : Char}
    (hd : isDelimiter d = true) (rest : Str) :
    tokenize (w ++ d :: rest) = typed w :: tokenize (d :: rest) := by
  rw [tokenize_eq, parseToken_token hw hd, typed, typeOf_normal hs]
  rfl

/-- White space other than a carriage return ends a word. -/
theorem isDelimiter_of_blank {c : Char} (h : isBlank c = true) (hr : c ≠ '\r') :
    isDelimiter c = true := by
  simp only [isBlank, Bool.or_eq_true, decide_eq_true_eq] at h
  simp only [isDelimiter, Bool.or_eq_true, decide_eq_true_eq]
  tauto

theorem symbol_delimits {w : Str} (h : IsSymbol w) : ∃ d, w = [d] ∧ isDelimiter d = true := by
  rcases h with rfl | rfl | rfl <;> exact ⟨_, rfl, rfl⟩

/-- What stands behind the token of a piece. -/
def Behind (p : Piece) (rest : Str) : Prop :=
  IsSymbol p.token ∨ ∃ d s, p.gap ++ rest = d :: s ∧ isDelimiter d = true

/-- **A token in its place** is read as it is. -/
theorem tokenize_piece {p : Piece} {rest : Str} (h : Behind p rest) :
    tokenize (p.token ++ (p.gap ++ rest)) = typed p.token :: tokenize (p.gap ++ rest) := by
  by_cases hs : IsSymbol p.token
  · exact tokenize_symbol hs _
  · obtain ⟨d, s, hd, hdel⟩ := h.resolve_left hs
    rw [hd]
    exact tokenize_word hs (p.complete.resolve_left hs) hdel s

/-- A gap that does not start with a carriage return delimits its token. -/
theorem behind_of_gap {p : Piece} (hk : ¬ IsSymbol p.token → p.gap.head? ≠ some '\r')
    (hne : p.gap ≠ []) (rest : Str) : Behind p rest := by
  by_cases hs : IsSymbol p.token
  · exact Or.inl hs
  · obtain ⟨c, g, hg⟩ := List.exists_cons_of_ne_nil hne
    have hc : isBlank c = true := p.startsBlank c (by simp [hg])
    have hr : c ≠ '\r' := by
      rintro rfl
      exact hk hs (by simp [hg])
    exact Or.inr ⟨c, g ++ rest, by simp [hg], isDelimiter_of_blank hc hr⟩

theorem behind_of_symbol {p q : Piece} (hp : p.gap = []) (hq : IsSymbol q.token) (rest : Str) :
    Behind p (q.token ++ rest) := by
  obtain ⟨d, hd, hdel⟩ := symbol_delimits hq
  exact Or.inr ⟨d, rest, by simp [hp, hd], hdel⟩

/-- Every piece is delimited by its gap or by the next one. -/
theorem behind {p : Piece} {ps : List Piece}
    (hd : (p :: ps).IsChain fun p q => p.gap = [] → IsSymbol p.token ∨ IsSymbol q.token)
    (he : ∀ q ∈ (p :: ps).getLast?, q.token = [';'] ∨ q.token = ['}'])
    (hk : ¬ IsSymbol p.token → p.gap.head? ≠ some '\r') : Behind p (piecesText ps) := by
  by_cases hne : p.gap = []
  · cases ps with
    | nil =>
      have := he p rfl
      exact Or.inl (by unfold IsSymbol; tauto)
    | cons q ps =>
      rcases (List.isChain_cons_cons.mp hd).1 hne with hs | hs
      · exact Or.inl hs
      · have htext : piecesText (q :: ps) = q.token ++ (q.gap ++ piecesText ps) := by
          simp [piecesText]
        rw [htext]
        exact behind_of_symbol hne hs _
  · exact behind_of_gap hk hne _

theorem tail_ended {p : Piece} {ps : List Piece} {P : Piece → Prop}
    (he : ∀ q ∈ (p :: ps).getLast?, P q) : ∀ q ∈ ps.getLast?, P q := by
  cases ps with
  | nil => simp
  | cons q ps => simpa [List.getLast?_cons_cons] using he

/-- The lexer sees the gap of a piece: it does not start with a carriage return behind a word, and holds
none in a comment that hides something. -/
def SeesGap (p : Piece) : Prop :=
  (¬ IsSymbol p.token → p.gap.head? ≠ some '\r') ∧ IsGap (fun c => c ≠ '\n' ∧ c ≠ '\r') p.gap

/-- It sees the gaps behind which the parser reads on, after a token of type `last`. -/
def SeesGaps : TokenType → List Piece → Prop
  | _, [] => True
  | last, p :: ps => follows last (typeOf p.token) = true → SeesGap p ∧ SeesGaps (typeOf p.token) ps

theorem seesGaps_of_legal : ∀ {ps : List Piece} {last : TokenType},
    (∀ qs p rs, ps = qs ++ p :: rs → Legal last ((qs ++ [p]).map fun q => typeOf q.token) → SeesGap p) →
      SeesGaps last ps
  | [], _, _ => trivial
  | p :: ps, last, h => fun hf => by
    refine ⟨h [] p ps rfl ⟨hf, trivial⟩, seesGaps_of_legal fun qs q rs hps hl => ?_⟩
    exact h (p :: qs) q rs (by rw [hps]; rfl) ⟨hf, hl⟩

theorem seesGaps_of_mem : ∀ {ps : List Piece} {last : TokenType}, (∀ p ∈ ps, SeesGap p) →
    SeesGaps last ps
  | [], _, _ => trivial
  | p :: _, _, h => fun _ =>
    ⟨h p List.mem_cons_self, seesGaps_of_mem fun q hq => h q (List.mem_cons_of_mem _ hq)⟩

/-- A word or a symbol is of a type after which a word may follow. -/
theorem follows_typeOf (w : Str) : follows (typeOf w) .normal = true := by
  unfold typeOf
  split_ifs <;> rfl

/-- After a token the loop takes, it is the last. -/
theorem lastTokenType_of_next {st st' : ParserState} {w : Str}
    (h : parseStep st (typed w) = .next st') : st'.lastTokenType = typeOf w := by
  have hproceed : ∀ {x : Except Fault ParserState}, proceed x = .next st' → x = .ok st' := by
    intro x hx
    cases x with
    | ok st'' =>
      cases hx
      rfl
    | error e => cases hx
  have hnormal : ∀ {c : Except Fault NginxConfig} {n : ℕ} {t : TokenType},
      (c >>= fun config => pure ⟨config, n, t⟩ : Except Fault ParserState) = .ok st' →
        st'.lastTokenType = t := by
    intro c n t hc
    cases c with
    | ok config =>
      cases hc
      rfl
    | error e => cases hc
  unfold parseStep typed at h
  cases ht : typeOf w <;> simp only [ht] at h
  case normal =>
    split_ifs at h
    have hs := hproceed h
    unfold onNormal at hs
    split_ifs at hs
    · exact hnormal hs
    · cases hc : emplaceBack st with
      | error e =>
        rw [hc] at hs
        cases hs
      | ok config =>
        rw [hc] at hs
        exact hnormal hs
  case statementEnd =>
    split_ifs at h
    cases h
    rfl
  case startBlock =>
    split_ifs at h
    exact hnormal (hproceed h)
  case endBlock =>
    split_ifs at h
    have hs := hproceed h
    unfold onEndBlock at hs
    split at hs
    · cases hs
    · cases hs
      rfl
  all_goals
    unfold typeOf at ht
    split_ifs at ht

/-- The parser runs over tokens and gaps as over the tokens, as far as the gaps are seen. -/
theorem run_pieces {qs : List Piece} : ∀ {ps : List Piece} (st : ParserState),
    (ps ++ qs).IsChain (fun p q => p.gap = [] → IsSymbol p.token ∨ IsSymbol q.token) →
    (∀ p ∈ (ps ++ qs).getLast?, p.token = [';'] ∨ p.token = ['}']) →
    follows st.lastTokenType .normal = true → SeesGaps st.lastTokenType ps →
    run st (tokenize (piecesText (ps ++ qs))) =
      run st (ps.map (typed ∘ Piece.token) ++ tokenize (piecesText qs))
  | [], _, _, _, _, _ => rfl
  | p :: ps, st, hd, he, hw, hg => by
    have htext : piecesText (p :: (ps ++ qs)) = p.token ++ (p.gap ++ piecesText (ps ++ qs)) := by
      simp [piecesText]
    rw [List.cons_append] at hd he ⊢
    rw [htext, List.map_cons, List.cons_append, Function.comp_apply]
    by_cases hf : follows st.lastTokenType (typeOf p.token) = true
    · obtain ⟨⟨hk, hgap⟩, hrest⟩ := hg hf
      rw [tokenize_piece (behind hd he hk), run, run]
      cases hstep : parseStep st (typed p.token) with
      | stop o => rfl
      | next st' =>
        have hlast := lastTokenType_of_next hstep
        simp only
        rw [run_gap hgap st']
        rw [← hlast] at hrest
        exact run_pieces st' hd.tail (tail_ended he) (by rw [hlast]; exact follows_typeOf _) hrest
    · -- the parser stops here, and a word never stops it
      have hs : IsSymbol p.token := by
        by_contra hs
        rw [typeOf_normal hs] at hf
        exact hf hw
      have hc : (typed p.token).1 ≠ .comment := by
        unfold typed typeOf
        split_ifs <;> simp
      have hstop := parseStep_of_not_follows hc (Bool.eq_false_iff.mpr hf)
      rw [tokenize_symbol hs, run_stop hstop, run_stop hstop]

/-- **The parser runs over a text as over its tokens.** -/
theorem run_text {l : Arrangement} (hk : l.KeepsWords) (hc : l.KeepsComments) (config : NginxConfig) :
    parse l.text config = run (.init config) (l.tokens.map typed ++ [(.eof, [])]) := by
  have hd := l.delimited
  have he := l.ended
  rw [← List.append_nil l.pieces] at hd he
  have hsees : SeesGaps (ParserState.init config).lastTokenType l.pieces :=
    seesGaps_of_legal fun ps p qs hps hl => ⟨hk ps p qs hps hl, hc.2 ps p qs hps hl⟩
  have hrun := run_pieces (.init config) hd he rfl hsees
  rw [List.append_nil] at hrun
  unfold Arrangement.tokens
  rw [parse_eq, Arrangement.text, run_gap hc.1, hrun, List.map_map]
  rfl

/-- The parser accepts at the end of the text only. -/
theorem eof_of_accepts {st : ParserState} {x : Token} {c : NginxConfig}
    (h : parseStep st x = .stop (.returned true c)) : x.1 = .eof := by
  obtain ⟨t, value⟩ := x
  have hproceed : ∀ x : Except Fault ParserState, proceed x ≠ .stop (.returned true c) := fun x => by
    cases x <;> simp [proceed]
  cases t <;> simp only [parseStep] at h
  case eof => rfl
  case comment => simp at h
  all_goals first
    | (split_ifs at h <;> first | exact absurd h (hproceed _) | simp at h)
    | simp at h

/-- A text that is accepted is read to its end. -/
theorem legal_of_run : ∀ {ws : List Str} {st : ParserState} {c : NginxConfig},
    run st (ws.map typed ++ [(.eof, [])]) = .returned true c → Legal st.lastTokenType (ws.map typeOf)
  | [], _, _, _ => trivial
  | w :: ws, st, c, h => by
    rw [List.map_cons, List.cons_append, run] at h
    cases hstep : parseStep st (typed w) with
    | stop o =>
      simp only [hstep] at h
      subst h
      have heof : (typed w).1 ≠ .eof := by
        unfold typed typeOf
        split_ifs <;> simp
      exact absurd (eof_of_accepts hstep) heof
    | next st' =>
      simp only [hstep] at h
      have hc : (typed w).1 ≠ .comment := by
        unfold typed typeOf
        split_ifs <;> simp
      refine ⟨follows_of_next hc hstep, ?_⟩
      rw [← lastTokenType_of_next hstep]
      exact legal_of_run h

/-! ### The words of the tree -/

mutual

/-- The words of a statement, in the order of the text. -/
def statementWords : NginxConfigStatement → List Str
  | .mk tokens none => tokens
  | .mk tokens (some config) => tokens ++ words config

/-- The words of a configuration. -/
def words : NginxConfig → List Str
  | [] => []
  | s :: config => statementWords s ++ words config

end

theorem words_append : ∀ c d : NginxConfig, words (c ++ d) = words c ++ words d
  | [], _ => rfl
  | s :: c, d => by
    rw [List.cons_append, words, words, words_append c d, List.append_assoc]

theorem words_concat (c : NginxConfig) (s : NginxConfigStatement) :
    words (c ++ [s]) = words c ++ statementWords s := by
  rw [words_append, words, words, List.append_nil]

/-- The block on top ends where the configuration ends. -/
theorem words_modify {f : NginxConfig → NginxConfig} {ws : List Str} :
    ∀ {n : ℕ} {config b : NginxConfig}, block n config = some b → words (f b) = words b ++ ws →
      words (modify n f config) = words config ++ ws
  | 0, config, b, hb, h => by
    obtain rfl : config = b := by simpa [block] using hb
    exact h
  | n + 1, config, b, hb, h => by
    rcases List.eq_nil_or_concat config with rfl | ⟨c, ⟨tokens, child⟩, rfl⟩
    · simp [block] at hb
    · rw [List.concat_eq_append] at hb ⊢
      cases child with
      | none => simp [block, NginxConfigStatement.childBlock] at hb
      | some child =>
        have hchild : block n child = some b := by
          simpa [block, NginxConfigStatement.childBlock] using hb
        rw [Parser.modify, onBack_concat, words_concat, words_concat, NginxConfigStatement.mapBlock,
          Option.map_some, statementWords, statementWords, words_modify hchild h]
        simp

/-- After a word the last statement of the block on top has no block yet. -/
def Bare (st : ParserState) : Prop := ∀ n, st.stack = n + 1 →
  ∃ b, block n st.config = some b ∧ (st.lastTokenType = .normal → ∃ c tokens, b = c ++ [.mk tokens none])

theorem bare_init (config : NginxConfig) : Bare (.init config) := fun n hn => by
  obtain rfl : n = 0 := by simpa [ParserState.init] using hn.symm
  exact ⟨config, rfl, fun h => absurd h (by simp [ParserState.init])⟩

/-- The word of a token. -/
def wordOf (x : Token) : List Str := if x.1 = .normal then [x.2] else []

section Step
variable {config b : NginxConfig} {n : ℕ} {last : TokenType}

/-- A word adds itself. -/
theorem bare_normal (value : Str) (hb : block n config = some b)
    (hbare : last = .normal → ∃ c tokens, b = c ++ [NginxConfigStatement.mk tokens none]) :
    Bare ⟨modify n (fun b => onBack (.pushToken value)
      (if last = .normal then b else b ++ [NginxConfigStatement.mk [] none])) config, n + 1, .normal⟩ ∧
    words (modify n (fun b => onBack (.pushToken value)
      (if last = .normal then b else b ++ [NginxConfigStatement.mk [] none])) config) =
        words config ++ [value] := by
  have hpush : ∃ c tokens, onBack (.pushToken value)
      (if last = .normal then b else b ++ [NginxConfigStatement.mk [] none]) =
        c ++ [NginxConfigStatement.mk tokens none] ∧
      words (c ++ [NginxConfigStatement.mk tokens none]) = words b ++ [value] := by
    by_cases hl : last = .normal
    · obtain ⟨c, tokens, rfl⟩ := hbare hl
      refine ⟨c, tokens ++ [value], ?_, ?_⟩
      · rw [if_pos hl, onBack_concat]
        rfl
      · simp [words_concat, statementWords]
    · refine ⟨b, [value], ?_, ?_⟩
      · rw [if_neg hl, onBack_concat]
        rfl
      · simp [words_concat, statementWords]
  obtain ⟨c, tokens, hback, hwords⟩ := hpush
  constructor
  · intro m hm
    obtain rfl : n = m := by simpa using hm
    exact ⟨_, by rw [block_modify, hb]; rfl, fun _ => ⟨c, tokens, hback⟩⟩
  · exact words_modify hb (by rw [hback, hwords])

/-- An opening brace adds no word. -/
theorem bare_startBlock (hb : block n config = some b)
    (hbare : ∃ c tokens, b = c ++ [NginxConfigStatement.mk tokens none]) :
    Bare ⟨modify n (onBack (.setBlock [])) config, n + 2, .startBlock⟩ ∧
    words (modify n (onBack (.setBlock [])) config) = words config := by
  obtain ⟨c, tokens, rfl⟩ := hbare
  constructor
  · intro m hm
    obtain rfl : n + 1 = m := by simpa using hm
    refine ⟨[], ?_, fun h => by simp at h⟩
    rw [block_succ, block_modify, hb]
    simp [onBack_concat, NginxConfigStatement.setBlock, NginxConfigStatement.childBlock]
  · have hset : words (onBack (.setBlock []) (c ++ [NginxConfigStatement.mk tokens none])) =
        words (c ++ [NginxConfigStatement.mk tokens none]) ++ [] := by
      rw [onBack_concat]
      simp [words_concat, statementWords, NginxConfigStatement.setBlock, words]
    simpa using words_modify hb hset

/-- **One token** adds its word, at the end. -/
theorem bare_step {st st' : ParserState} {x : Token} (hst : Bare st)
    (h : parseStep st x = .next st') : Bare st' ∧ words st'.config = words st.config ++ wordOf x := by
  obtain ⟨config, stack, last⟩ := st
  obtain ⟨t, value⟩ := x
  by_cases hc : t = .comment
  · subst hc
    obtain rfl := Step.next.inj h
    exact ⟨hst, by simp [wordOf]⟩
  cases hf : follows last t with
  | false =>
    rw [parseStep_of_not_follows hc hf] at h
    simp at h
  | true =>
    cases t with
    | comment => simp at hc
    | start => simp [follows] at hf
    | error => simp [follows] at hf
    | eof => simp [parseStep] at h
    | normal =>
      rcases stack with - | n
      · rw [parseStep_zero (Or.inl rfl) hf] at h
        simp at h
      obtain ⟨b, hb, hbare⟩ := hst n rfl
      have hne : last = .normal → b ≠ [] := by
        rintro hl rfl
        obtain ⟨c, tokens, hb'⟩ := hbare hl
        simp at hb'
      rw [parseStep_normal value hb hne hf] at h
      obtain rfl := Step.next.inj h
      exact bare_normal value hb hbare
    | statementEnd =>
      obtain rfl : last = .normal := by simpa [follows] using hf
      rw [parseStep_statementEnd] at h
      obtain rfl := Step.next.inj h
      refine ⟨fun n hn => ?_, by simp [wordOf]⟩
      obtain ⟨b, hb, -⟩ := hst n hn
      exact ⟨b, hb, fun h => by simp at h⟩
    | startBlock =>
      obtain rfl : last = .normal := by simpa [follows] using hf
      rcases stack with - | n
      · simp [parseStep, onStartBlock, changeBack, proceed, bind, Except.bind] at h
      obtain ⟨b, hb, hbare⟩ := hst n rfl
      have hne : b ≠ [] := by
        rintro rfl
        obtain ⟨c, tokens, hb'⟩ := hbare rfl
        simp at hb'
      rw [parseStep_startBlock value hb hne] at h
      obtain rfl := Step.next.inj h
      have := bare_startBlock hb (hbare rfl)
      exact ⟨this.1, by simpa [wordOf] using this.2⟩
    | endBlock =>
      have hl : endsStatement last = true := by simpa [follows] using hf
      rcases stack with - | n
      · rw [parseStep_zero (Or.inr rfl) hf] at h
        simp at h
      rw [parseStep_endBlock value hl] at h
      obtain rfl := Step.next.inj h
      refine ⟨fun m hm => ?_, by simp [wordOf]⟩
      obtain rfl : n = m + 1 := by simpa using hm
      obtain ⟨b, hb, -⟩ := hst (m + 1) rfl
      rw [block_succ] at hb
      obtain ⟨b', hb', -⟩ := Option.bind_eq_some_iff.mp hb
      exact ⟨b', hb', fun h => by simp at h⟩

end Step

/-- The words up to the end of the text. -/
def wordsRead : List Token → List Str
  | [] => []
  | x :: xs => if x.1.isLast then [] else wordOf x ++ wordsRead xs

/-- **The words of an accepted tree** are those of the text, in their order. -/
theorem words_of_run {c : NginxConfig} : ∀ {xs : List Token} {st : ParserState}, Bare st →
    run st xs = .returned true c → words c = words st.config ++ wordsRead xs
  | [], _, _, h => by simp [run] at h
  | x :: xs, st, hst, h => by
    cases hstep : parseStep st x with
    | stop o =>
      rw [run_stop hstep] at h
      subst h
      obtain ⟨-, rfl⟩ := parseStep_accepts hstep
      have hlast : x.1.isLast = true := by
        rw [eof_of_accepts hstep]
        rfl
      simp [wordsRead, hlast]
    | next st' =>
      rw [run_next hstep] at h
      obtain ⟨hst', hwords⟩ := bare_step hst hstep
      have hlast : x.1.isLast = false := isLast_of_next hstep
      rw [words_of_run hst' h, hwords, List.append_assoc, wordsRead, hlast]
      rfl

theorem wordsRead_typed (ws : List Str) (xs : List Token) :
    wordsRead (ws.map typed ++ xs) = ws.filter (fun w => ¬ IsSymbol w) ++ wordsRead xs := by
  induction ws with
  | nil => rfl
  | cons w ws ih =>
    have hlast : (typed w).1.isLast = false := by
      unfold typed typeOf
      split_ifs <;> rfl
    rw [List.map_cons, List.cons_append, wordsRead, hlast, ih]
    by_cases hw : IsSymbol w
    · have hword : wordOf (typed w) = [] := by
        rcases hw with rfl | rfl | rfl <;> rfl
      simp [hword, hw]
    · have hword : wordOf (typed w) = [w] := by simp [wordOf, typed, typeOf_normal hw]
      simp [hword, hw]

/-! ### A carriage return behind a word -/

theorem readWord_grows : ∀ {input value v rest : Str} {t : TokenType},
    parseTokenFrom .tokenTypeNormal value input = ((t, v), rest) →
    t = .eof ∨ t = .normal ∧ value <+: v
  | [], _, _, _, _, h => by
    simp only [parseTokenFrom, Prod.mk.injEq] at h
    exact Or.inl h.1.1.symm
  | c :: input, value, v, rest, t, h => by
    rw [parseTokenFrom] at h
    split_ifs at h with hc
    · simp only [Prod.mk.injEq] at h
      exact Or.inr ⟨h.1.1.symm, h.1.2 ▸ List.prefix_rfl⟩
    · exact (readWord_grows h).imp_right (And.imp_right (List.prefix_append value [c]).trans)

theorem readWord_append : ∀ {s : Str} (value rest : Str), (∀ d ∈ s, isDelimiter d = false) →
    parseTokenFrom .tokenTypeNormal value (s ++ rest) =
      parseTokenFrom .tokenTypeNormal (value ++ s) rest
  | [], value, rest, _ => by simp
  | c :: s, value, rest, h => by
    rw [List.cons_append, parseTokenFrom, if_neg (by simp [h c (by simp)]),
      readWord_append (value ++ [c]) rest fun d hd => h d (by simp [hd])]
    simp

/-- **A carriage return behind a token**: a word goes on with it, and a quoted string is an error. -/
theorem parseToken_return {w : Str} (hw : IsToken w) (rest : Str) :
    (parseToken (w ++ '\r' :: rest)).1.1.isLast = true ∨
      ∃ v, v ≠ w ∧ (parseToken (w ++ '\r' :: rest)).1 = (.normal, v) := by
  obtain ⟨s, rfl, hs⟩ | ⟨s, rfl, hs⟩ | ⟨c, s, rfl, hc, hs⟩ := hw
  · left
    have := readSingle ('\r' :: rest) ['\''] hs
    have hread : parseToken ('\'' :: (s ++ ['\'']) ++ '\r' :: rest) =
        ((.error, '\'' :: (s ++ ['\''])), '\r' :: rest) := by
      simpa [parseToken, parseTokenFrom, afterQuote, isDelimiter] using this
    rw [hread]
    rfl
  · left
    have := readDouble ('\r' :: rest) ['"'] hs
    have hread : parseToken ('"' :: (s ++ ['"']) ++ '\r' :: rest) =
        ((.error, '"' :: (s ++ ['"'])), '\r' :: rest) := by
      simpa [parseToken, parseTokenFrom, afterQuote, isDelimiter] using this
    rw [hread]
    rfl
  · -- the word is read to its end, and the carriage return after it
    have hread : parseToken (c :: s ++ '\r' :: rest) =
        parseTokenFrom .tokenTypeNormal (c :: s ++ ['\r']) rest := by
      have hword : c :: s ++ '\r' :: rest = c :: (s ++ ['\r']) ++ rest := by simp
      have hmore := readWord_append (s := s ++ ['\r']) [c] rest fun d hd => by
        rcases List.mem_append.mp hd with hd | hd
        · exact hs d hd
        · rw [List.mem_singleton.mp hd]
          rfl
      simp only [beginsWord, Bool.not_eq_true', Bool.or_eq_false_iff,
        decide_eq_false_iff_not] at hc
      obtain ⟨⟨⟨⟨⟨⟨hb, h1⟩, h2⟩, h3⟩, h4⟩, h5⟩, h6⟩ := hc
      rw [hword, parseToken, List.cons_append, parseTokenFrom]
      simp only [h1, h2, h3, h4, h5, h6, hb, Bool.false_eq_true, if_false, List.nil_append]
      exact hmore
    rw [hread]
    obtain ⟨⟨t, v⟩, rest', ht⟩ : ∃ x rest', parseTokenFrom .tokenTypeNormal (c :: s ++ ['\r']) rest =
        (x, rest') := ⟨_, _, rfl⟩
    rw [ht]
    rcases readWord_grows ht with rfl | ⟨rfl, hv⟩
    · exact Or.inl rfl
    · refine Or.inr ⟨v, ?_, rfl⟩
      rintro rfl
      have := hv.length_le
      simp at this

/-- What the parser reads of a token with a carriage return behind it is not the token. -/
theorem wordsRead_return {p : Piece} (hs : ¬ IsSymbol p.token) (hr : p.gap.head? = some '\r')
    (rest : Str) : wordsRead (tokenize (p.token ++ (p.gap ++ rest))) = [] ∨
      ∃ v ws, v ≠ p.token ∧ wordsRead (tokenize (p.token ++ (p.gap ++ rest))) = v :: ws := by
  obtain ⟨g, hg⟩ : ∃ g, p.gap = '\r' :: g := List.head?_eq_some_iff.mp hr
  rw [hg, List.cons_append, tokenize_eq]
  rcases parseToken_return (p.complete.resolve_left hs) (g ++ rest) with hl | ⟨v, hv, hx⟩
  · left
    rw [if_pos hl, wordsRead, if_pos hl]
  · right
    refine ⟨v, wordsRead (tokenize (parseToken (p.token ++ '\r' :: (g ++ rest))).2), hv, ?_⟩
    simp [hx, TokenType.isLast, wordsRead, wordOf]

/-! ### Layout -/

/-- Where all tokens may follow each other, the text is read to its end. -/
theorem Arrangement.WhereRead.all {l : Arrangement} {P : Piece → Prop} (h : l.WhereRead P)
    (hl : Legal .start (l.tokens.map typeOf)) : ∀ p ∈ l.pieces, P p := by
  intro p hp
  obtain ⟨ps, qs, hps⟩ := List.append_of_mem hp
  refine h ps p qs hps (@Legal.of_append _ (qs.map fun q => typeOf q.token) _ ?_)
  unfold Arrangement.tokens at hl
  rw [hps] at hl
  simpa [Function.comp_def] using hl

/-- **A word with a carriage return behind it** is not among the words of an accepted tree. -/
theorem words_of_return {l : Arrangement} (hlead : IsGap (fun c => c ≠ '\n' ∧ c ≠ '\r') l.lead)
    (hc : ∀ p ∈ l.pieces, IsGap (fun c => c ≠ '\n' ∧ c ≠ '\r') p.gap)
    (hk : ∃ p ∈ l.pieces, ¬ IsSymbol p.token ∧ p.gap.head? = some '\r')
    {config c : NginxConfig} (h : parse l.text config = .returned true c) :
    words c ≠ words config ++ l.tokens.filter (fun w => ¬ IsSymbol w) := by
  obtain ⟨ps₁, p, ps₂, hps, ⟨hs, hr⟩, h₁⟩ := @exists_first _
    (fun p : Piece => ¬ IsSymbol p.token ∧ p.gap.head? = some '\r') l.pieces hk
  have hd := l.delimited
  have he := l.ended
  rw [hps] at hd he hc
  have hsees : SeesGaps (ParserState.init config).lastTokenType ps₁ :=
    seesGaps_of_mem fun q hq => ⟨fun hqs hqr => h₁ q hq ⟨hqs, hqr⟩, hc q (by simp [hq])⟩
  have hrun : parse l.text config = run (.init config)
      ((ps₁.map Piece.token).map typed ++ tokenize (piecesText (p :: ps₂))) := by
    rw [parse_eq, Arrangement.text, hps, run_gap hlead, List.map_map]
    exact run_pieces _ hd he rfl hsees
  rw [hrun] at h
  have hwords := words_of_run (bare_init config) h
  have htext : piecesText (p :: ps₂) = p.token ++ (p.gap ++ piecesText ps₂) := by simp [piecesText]
  rw [wordsRead_typed, htext] at hwords
  have htokens : l.tokens.filter (fun w => ¬ IsSymbol w) =
      (ps₁.map Piece.token).filter (fun w => ¬ IsSymbol w) ++
        p.token :: (ps₂.map Piece.token).filter (fun w => ¬ IsSymbol w) := by
    simp [Arrangement.tokens, hps, hs]
  rw [hwords, htokens]
  intro heq
  have heq' := List.append_cancel_left (List.append_cancel_left heq)
  rcases wordsRead_return hs hr (piecesText ps₂) with hnil | ⟨v, ws, hv, hcons⟩
  · rw [hnil] at heq'
    simp at heq'
  · rw [hcons] at heq'
    exact hv (List.cons.inj heq').1

/-- **Layout.** Two texts that lay out the same tokens are parsed alike if, as far as the parser reads them,
no gap behind a word or a quoted string starts with a carriage return and none hides behind one in a
comment. Where the second is accepted, and nothing hides in a comment of the first, this is parsed to the
same tree only if no gap behind a word or a quoted string starts so. -/
theorem layout {l₁ l₂ : Arrangement} (h : l₁.tokens = l₂.tokens) (config : NginxConfig) :
    (l₁.KeepsWords → l₁.KeepsComments → l₂.KeepsWords → l₂.KeepsComments →
      parse l₁.text config = parse l₂.text config) ∧
    (l₁.KeepsComments → l₂.KeepsWords → l₂.KeepsComments →
      (∃ c, parse l₂.text config = .returned true c) →
        (parse l₁.text config = parse l₂.text config ↔ l₁.KeepsWords)) := by
  have henough : l₁.KeepsWords → l₁.KeepsComments → l₂.KeepsWords → l₂.KeepsComments →
      parse l₁.text config = parse l₂.text config := fun hk₁ hc₁ hk₂ hc₂ => by
    rw [run_text hk₁ hc₁, run_text hk₂ hc₂, h]
  refine ⟨henough, ?_⟩
  rintro hc₁ hk₂ hc₂ ⟨c, hacc⟩
  refine ⟨fun heq => ?_, fun hk₁ => henough hk₁ hc₁ hk₂ hc₂⟩
  by_contra hk₁
  have hacc' := hacc
  rw [run_text hk₂ hc₂] at hacc'
  have hlegal : Legal .start (l₁.tokens.map typeOf) := h ▸ legal_of_run hacc'
  have hwords : words c = words config ++ l₂.tokens.filter (fun w => ¬ IsSymbol w) := by
    have := words_of_run (bare_init config) hacc'
    simpa [wordsRead_typed, wordsRead, TokenType.isLast, ParserState.init] using this
  have hbad : ∃ p ∈ l₁.pieces, ¬ IsSymbol p.token ∧ p.gap.head? = some '\r' := by
    simp only [Arrangement.KeepsWords, Arrangement.WhereRead, not_forall, not_not] at hk₁
    obtain ⟨ps, p, qs, hps, -, hs, hr⟩ := hk₁
    exact ⟨p, by simp [hps], hs, hr⟩
  exact words_of_return hc₁.1 (hc₁.2.all hlegal) hbad (heq.trans hacc) (h ▸ hwords)

/-- A line end. -/
structure LineEnd where
  eol : Str
  isGap : IsGap (fun c => c ≠ '\n' ∧ c ≠ '\r') eol
  startsBlank : ∀ c ∈ eol.head?, isBlank c = true
  ne_nil : eol ≠ []

theorem IsGap.mono {P Q : Char → Prop} (h : ∀ c, P c → Q c) {g : Str} (hg : IsGap P g) :
    IsGap Q g := by
  induction hg with
  | nil => exact .nil
  | blank hc _ ih => exact .blank hc ih
  | comment hs hc _ ih => exact .comment (fun d hd => h d (hs d hd)) hc ih

/-- A word or a symbol with a line end behind it. -/
def line (e : LineEnd) (w : Str) (h : IsSymbol w ∨ IsToken w) : Piece :=
  ⟨w, e.eol, h, e.isGap.mono fun _ h => h.1, e.startsBlank⟩

theorem isToken_server : IsToken "server".toList :=
  Or.inr (Or.inr ⟨'s', "erver".toList, rfl, rfl, by simp [isDelimiter]⟩)

theorem isToken_listen : IsToken "listen".toList :=
  Or.inr (Or.inr ⟨'l', "isten".toList, rfl, rfl, by simp [isDelimiter]⟩)

/-- A server, one token a line. -/
def serverLines (e : LineEnd) : Arrangement where
  lead := []
  pieces := [line e "server".toList (Or.inr isToken_server), line e ['{'] (Or.inl (by decide)),
    line e "listen".toList (Or.inr isToken_listen), line e [';'] (Or.inl (by decide)),
    line e ['}'] (Or.inl (by decide))]
  isGap := .nil
  delimited := by simp [line, e.ne_nil]
  ended := by simp [line]

/-- The line end `\n`. -/
def lf : LineEnd := ⟨['\n'], .blank rfl .nil, by simp [isBlank], by simp⟩

/-- A line end with a comment. -/
def lfComment : LineEnd :=
  ⟨" #;\n".toList, .blank rfl (.comment (s := [';']) (by simp) (Or.inl rfl) .nil),
    by simp [isBlank], by simp⟩

/-- The line end `\r\n`. -/
def crlf : LineEnd := ⟨"\r\n".toList, .blank rfl (.blank rfl .nil), by simp [isBlank], by simp⟩

/-- The gap behind each of them is the line end. -/
theorem gap_lines {e : LineEnd} {ps : List Piece} {p : Piece} {qs : List Piece}
    (h : (serverLines e).pieces = ps ++ p :: qs) : p.gap = e.eol := by
  have hp : p ∈ (serverLines e).pieces := by simp [h]
  simp only [serverLines, List.mem_cons, List.not_mem_nil, or_false] at hp
  rcases hp with rfl | rfl | rfl | rfl | rfl <;> rfl

theorem keepsComments_lines (e : LineEnd) : (serverLines e).KeepsComments :=
  ⟨.nil, fun _ _ _ hps _ => by
    simp only [gap_lines hps]
    exact e.isGap⟩

theorem keepsWords_lines (e : LineEnd) : (serverLines e).KeepsWords ↔ e.eol.head? ≠ some '\r' := by
  constructor
  · intro h
    have hword : ¬ IsSymbol "server".toList := by decide
    have hlegal : Legal .start [typeOf "server".toList] := ⟨by decide, trivial⟩
    exact h [] (line e "server".toList (Or.inr isToken_server)) _ rfl hlegal hword
  · intro h _ _ _ hps _ _
    rwa [gap_lines hps]

/-- A comment behind each token changes nothing, and another line end does. -/
theorem layout_lines :
    parse (serverLines lfComment).text [] = parse (serverLines lf).text [] ∧
    parse (serverLines crlf).text [] ≠ parse (serverLines lf).text [] := by
  have hlf : (serverLines lf).KeepsWords := (keepsWords_lines lf).mpr (by decide)
  have hacc : ∃ c, parse (serverLines lf).text [] = .returned true c := ⟨_, rfl⟩
  constructor
  · exact (@layout (serverLines lfComment) (serverLines lf) rfl []).1
      ((keepsWords_lines _).mpr (by decide)) (keepsComments_lines _) hlf (keepsComments_lines _)
  · rw [ne_eq, (@layout (serverLines crlf) (serverLines lf) rfl []).2 (keepsComments_lines _) hlf
      (keepsComments_lines _) hacc, keepsWords_lines]
    decide

/-- **The line end matters**: with `\r\n` the word is `server\r`. -/
theorem crlf_changes : ¬ ∀ l₁ l₂ : Arrangement, l₁.tokens = l₂.tokens →
    ∀ c, parse l₂.text [] = .returned true c → parse l₁.text [] = .returned true c := by
  intro h
  have := h (serverLines crlf) (serverLines lf) rfl _ rfl
  have hwords := congrArg (fun o => match o with
    | .returned _ c => words c
    | _ => []) this
  exact absurd hwords (by decide +kernel)

end Kachow.Config.Layout
