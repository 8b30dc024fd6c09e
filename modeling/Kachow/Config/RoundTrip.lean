import Kachow.Config.Parser

/-! # Printing and parsing

`toString` prints a configuration, two blanks deeper for each block around it. What it puts between two
tokens is what the lexer takes for a boundary there: a blank between words, a semicolon right after
the last one, and a blank before a brace. So the tokens of a printed configuration are its own
(`tokenize_toString`), and the parser builds it again (`parse_of_toString`). The other way round, every
tree the parser accepts while the root block is open is well formed (`wellFormed_of_run`). -/

namespace Kachow.Config.RoundTrip

open Kachow.Lib.Text Kachow.Config.Lexer Kachow.Config.Parser

/-! ### Printing -/

/-- The indentation: two blanks for each level. -/
def indent (depth : ℕ) : Str := (List.replicate depth "  ".toList).flatten

/-- The tokens behind the first, each with a blank before it. -/
def moreTokens (tokens : List Str) : Str := tokens.flatMap (' ' :: ·)

/-- The tokens with blanks between them. -/
def joinTokens : List Str → Str
  | [] => []
  | token :: tokens => token ++ moreTokens tokens

mutual

/-- `NginxConfigStatement::ToString`. -/
def toStringStatement (depth : ℕ) : NginxConfigStatement → Str
  | .mk tokens none => indent depth ++ joinTokens tokens ++ ";\n".toList
  | .mk tokens (some config) => indent depth ++ joinTokens tokens ++ " \x7b\n".toList ++
      toString (depth + 1) config ++ indent depth ++ "\x7d\n".toList

/-- `NginxConfig::ToString`. -/
def toString (depth : ℕ) : NginxConfig → Str
  | [] => []
  | statement :: config => toStringStatement depth statement ++ toString depth config

end

/-! ### Well-formed configurations -/

/-- A statement has tokens the lexer can produce, and its block, if there is one, has statements. -/
inductive WellFormedStatement : NginxConfigStatement → Prop
  | mk {tokens : List Str} {childBlock : Option NginxConfig} (ne : tokens ≠ [])
      (token : ∀ w ∈ tokens, IsToken w)
      (blockNe : ∀ c, childBlock = some c → c ≠ [])
      (block : ∀ c, childBlock = some c → ∀ s ∈ c, WellFormedStatement s) :
      WellFormedStatement (.mk tokens childBlock)

/-- A configuration has statements, and all are well formed. -/
def WellFormed (config : NginxConfig) : Prop := config ≠ [] ∧ ∀ s ∈ config, WellFormedStatement s

/-! ### The tokens of a printed configuration -/

mutual

/-- The tokens of a statement. -/
def flatStatement : NginxConfigStatement → List Token
  | .mk tokens none => tokens.map (Prod.mk .normal) ++ [(.statementEnd, [';'])]
  | .mk tokens (some config) => tokens.map (Prod.mk .normal) ++
      (.startBlock, ['{']) :: (flat config ++ [(.endBlock, ['}'])])

/-- The tokens of a configuration. -/
def flat : NginxConfig → List Token
  | [] => []
  | statement :: config => flatStatement statement ++ flat config

end

theorem blank_indent (depth : ℕ) : ∀ c ∈ indent depth, isBlank c = true := by
  intro c hc
  obtain ⟨l, hl, hc⟩ := List.mem_flatten.mp hc
  obtain rfl := List.eq_of_mem_replicate hl
  obtain rfl : c = ' ' := by simpa using hc
  rfl

theorem tokenize_token {w : Str} (hw : IsToken w) {d : Char} (hd : isDelimiter d = true) (rest : Str) :
    tokenize (w ++ d :: rest) = (.normal, w) :: tokenize (d :: rest) := by
  rw [tokenize_eq, parseToken_token hw hd]
  rfl

theorem tokenize_moreTokens {d : Char} (hd : isDelimiter d = true) (rest : Str) :
    ∀ {tokens : List Str}, (∀ w ∈ tokens, IsToken w) →
      tokenize (moreTokens tokens ++ d :: rest) =
        tokens.map (Prod.mk .normal) ++ tokenize (d :: rest) ∧
      ∃ d' rest', moreTokens tokens ++ d :: rest = d' :: rest' ∧ isDelimiter d' = true
  | [], _ => ⟨rfl, d, rest, rfl, hd⟩
  | w :: tokens, h => by
    obtain ⟨h1, d', rest', h2, hd'⟩ := tokenize_moreTokens hd rest fun v hv => h v (List.mem_cons_of_mem _ hv)
    have hsplit : moreTokens (w :: tokens) ++ d :: rest =
        [' '] ++ (w ++ (moreTokens tokens ++ d :: rest)) := by simp [moreTokens]
    refine ⟨?_, ' ', w ++ (moreTokens tokens ++ d :: rest), hsplit, rfl⟩
    rw [hsplit, tokenize_blank (by simp [isBlank]), h2, tokenize_token (h w (by simp)) hd', ← h2, h1]
    rfl

theorem tokenize_joinTokens {d : Char} (hd : isDelimiter d = true) (rest : Str) {tokens : List Str}
    (hne : tokens ≠ []) (h : ∀ w ∈ tokens, IsToken w) :
    tokenize (joinTokens tokens ++ d :: rest) =
      tokens.map (Prod.mk .normal) ++ tokenize (d :: rest) := by
  obtain ⟨w, tokens, rfl⟩ := List.exists_cons_of_ne_nil hne
  obtain ⟨h1, d', rest', h2, hd'⟩ := tokenize_moreTokens hd rest fun v hv => h v (List.mem_cons_of_mem _ hv)
  rw [joinTokens, List.append_assoc, h2, tokenize_token (h w (by simp)) hd', ← h2, h1]
  rfl

theorem tokenize_newline (rest : Str) : tokenize ('\n' :: rest) = tokenize rest :=
  tokenize_blank (b := ['\n']) (by simp [isBlank]) rest

theorem tokenize_semicolon (rest : Str) :
    tokenize (';' :: '\n' :: rest) = (.statementEnd, [';']) :: tokenize rest := by
  rw [tokenize_eq, ← tokenize_newline rest]
  rfl

theorem tokenize_openBrace (rest : Str) :
    tokenize (' ' :: '{' :: '\n' :: rest) = (.startBlock, ['{']) :: tokenize rest := by
  rw [← List.singleton_append, tokenize_blank (by simp [isBlank]), tokenize_eq, ← tokenize_newline rest]
  rfl

theorem tokenize_closeBrace (rest : Str) :
    tokenize ('}' :: '\n' :: rest) = (.endBlock, ['}']) :: tokenize rest := by
  rw [tokenize_eq, ← tokenize_newline rest]
  rfl

/-- The tokens of printed statements, if those of each statement are its own. -/
theorem tokenize_statements {depth : ℕ} : ∀ {config : NginxConfig},
    (∀ s ∈ config, ∀ rest, tokenize (toStringStatement depth s ++ rest) =
      flatStatement s ++ tokenize rest) →
    ∀ rest, tokenize (toString depth config ++ rest) = flat config ++ tokenize rest
  | [], _, _ => rfl
  | s :: config, h, rest => by
    rw [toString, flat, List.append_assoc, h s (by simp),
      tokenize_statements (fun s hs => h s (by simp [hs])) rest, List.append_assoc]

theorem tokenize_statement {s : NginxConfigStatement} (hs : WellFormedStatement s) :
    ∀ (depth : ℕ) (rest : Str),
      tokenize (toStringStatement depth s ++ rest) = flatStatement s ++ tokenize rest := by
  induction hs with
  | @mk tokens childBlock ne token _ _ ih =>
    intro depth rest
    cases childBlock with
    | none =>
      rw [toStringStatement, flatStatement]
      simp only [List.append_assoc]
      rw [tokenize_blank (blank_indent depth)]
      have := tokenize_joinTokens (d := ';') rfl ('\n' :: rest) ne token
      rw [tokenize_semicolon] at this
      exact this
    | some config =>
      rw [toStringStatement, flatStatement]
      simp only [List.append_assoc]
      rw [tokenize_blank (blank_indent depth)]
      have hwords := tokenize_joinTokens (d := ' ') rfl
        ('{' :: '\n' :: (toString (depth + 1) config ++ (indent depth ++ ("\x7d\n".toList ++ rest))))
        ne token
      rw [tokenize_openBrace, tokenize_statements (fun s hs => ih config rfl s hs (depth + 1)),
        tokenize_blank (blank_indent depth)] at hwords
      refine hwords.trans ?_
      rw [show "\x7d\n".toList ++ rest = '}' :: '\n' :: rest from rfl, tokenize_closeBrace]
      simp

/-- **The tokens of a printed configuration are its own.** -/
theorem tokenize_toString {config : NginxConfig} (h : WellFormed config) (depth : ℕ) :
    tokenize (toString depth config) = flat config ++ [(.eof, [])] := by
  have := tokenize_statements (fun s hs => tokenize_statement (h.2 s hs) depth) []
  rwa [List.append_nil] at this

/-! ### Parsing a printed configuration -/

section Build
variable {config b : NginxConfig} {n : ℕ} {last : TokenType}

/-- A further statement in the block `n` levels down. -/
def addTo (n : ℕ) (s : NginxConfigStatement) (config : NginxConfig) : NginxConfig :=
  modify n (· ++ [s]) config

theorem block_addTo (hb : block n config = some b) (s : NginxConfigStatement) :
    block n (addTo n s config) = some (b ++ [s]) := by
  rw [addTo, block_modify, hb]
  rfl

/-- Changing the statement that was added. -/
theorem modify_addTo (f : NginxConfigStatement → NginxConfigStatement) (s : NginxConfigStatement) :
    modify n (onBack f) (addTo n s config) = addTo n (f s) config := by
  rw [addTo, modify_modify]
  exact modify_congr (fun c => onBack_concat f c s) n config

/-- The words behind the first. -/
theorem run_words (hb : block n config = some b) (ts : List Token) : ∀ (words tokens : List Str),
    run ⟨addTo n (.mk tokens none) config, n + 1, .normal⟩ (words.map (Prod.mk .normal) ++ ts) =
      run ⟨addTo n (.mk (tokens ++ words) none) config, n + 1, .normal⟩ ts
  | [], tokens => by simp
  | w :: words, tokens => by
    have hstep := parseStep_normal w (block_addTo hb (.mk tokens none)) (by simp)
      (rfl : follows .normal .normal = true)
    simp only [if_true] at hstep
    rw [modify_addTo] at hstep
    rw [List.map_cons, List.cons_append, run_next hstep]
    have := run_words hb ts words (tokens ++ [w])
    rwa [List.append_assoc] at this

/-- The words of a statement. -/
theorem run_tokens (hb : block n config = some b) (hbeg : beginsStatement last = true)
    (ts : List Token) {tokens : List Str} (hne : tokens ≠ []) :
    run ⟨config, n + 1, last⟩ (tokens.map (Prod.mk .normal) ++ ts) =
      run ⟨addTo n (.mk tokens none) config, n + 1, .normal⟩ ts := by
  obtain ⟨w, words, rfl⟩ := List.exists_cons_of_ne_nil hne
  have hlast : last ≠ .normal := by
    rintro rfl
    exact absurd hbeg (by decide)
  have hstep := parseStep_normal w hb (fun h => absurd h hlast) (by simp [follows, hbeg])
  have hfirst : modify n (fun b => onBack (.pushToken w)
      (if last = .normal then b else b ++ [.mk [] none])) config = addTo n (.mk [w] none) config := by
    refine modify_congr (fun c => ?_) n config
    rw [if_neg hlast, onBack_concat]
    rfl
  rw [hfirst] at hstep
  rw [List.map_cons, List.cons_append, run_next hstep]
  exact run_words hb ts words [w]

/-- Reading statements one after the other, if each is read as it is. -/
theorem run_statements (ts : List Token) {cs : NginxConfig}
    (h : ∀ s ∈ cs, ∀ {config b : NginxConfig} {last : TokenType} (ts : List Token),
      block n config = some b → beginsStatement last = true → ∃ e, endsStatement e = true ∧
        run ⟨config, n + 1, last⟩ (flatStatement s ++ ts) = run ⟨addTo n s config, n + 1, e⟩ ts) :
    ∀ {config b : NginxConfig} {last : TokenType}, block n config = some b →
      beginsStatement last = true → ∃ e, (e = last ∧ cs = [] ∨ endsStatement e = true) ∧
        run ⟨config, n + 1, last⟩ (flat cs ++ ts) = run ⟨modify n (· ++ cs) config, n + 1, e⟩ ts := by
  induction cs with
  | nil =>
    intro config b last hb hbeg
    refine ⟨last, Or.inl ⟨rfl, rfl⟩, ?_⟩
    rw [modify_congr (g := id) (fun c => List.append_nil c), modify_id]
    rfl
  | cons s cs ih =>
    intro config b last hb hbeg
    obtain ⟨e, he, h1⟩ := h s (by simp) (flat cs ++ ts) hb hbeg
    obtain ⟨e', he', h2⟩ := ih (fun s hs => h s (by simp [hs])) (block_addTo hb s)
      (begins_of_ends he)
    refine ⟨e', Or.inr ?_, ?_⟩
    · rcases he' with ⟨rfl, -⟩ | he'
      · exact he
      · exact he'
    · rw [flat, List.append_assoc, h1, h2, addTo, modify_modify]
      congr 2
      refine modify_congr (fun c => ?_) n config
      simp

theorem run_statement {s : NginxConfigStatement} (hs : WellFormedStatement s) :
    ∀ {n : ℕ} {config b : NginxConfig} {last : TokenType} (ts : List Token),
      block n config = some b → beginsStatement last = true → ∃ e, endsStatement e = true ∧
        run ⟨config, n + 1, last⟩ (flatStatement s ++ ts) = run ⟨addTo n s config, n + 1, e⟩ ts := by
  induction hs with
  | @mk tokens childBlock ne token blockNe _ ih =>
    intro n config b last ts hb hbeg
    cases childBlock with
    | none =>
      refine ⟨.statementEnd, rfl, ?_⟩
      rw [flatStatement, List.append_assoc, run_tokens hb hbeg _ ne]
      exact run_next (parseStep_statementEnd [';']) ts
    | some c =>
      refine ⟨.endBlock, rfl, ?_⟩
      have hopen := parseStep_startBlock ['{'] (block_addTo hb (.mk tokens none)) (by simp)
      rw [modify_addTo] at hopen
      have hblock : block (n + 1) (addTo n (.mk tokens (some [])) config) = some [] := by
        rw [block_succ, block_addTo hb]
        simp [NginxConfigStatement.childBlock]
      obtain ⟨e, he, hinner⟩ := run_statements ((.endBlock, ['}']) :: ts)
        (fun s hs => ih c rfl s hs) hblock
        (rfl : beginsStatement .startBlock = true)
      have hends : endsStatement e = true := by
        rcases he with ⟨-, hc⟩ | he
        · exact absurd hc (blockNe c rfl)
        · exact he
      have hbuilt : modify (n + 1) (· ++ c) (addTo n (.mk tokens (some [])) config) =
          addTo n (.mk tokens (some c)) config := by
        rw [modify_succ, modify_addTo]
        rfl
      rw [flatStatement, List.append_assoc, run_tokens hb hbeg _ ne, List.cons_append, run_next hopen,
        List.append_assoc]
      refine hinner.trans ?_
      rw [hbuilt]
      exact run_next (parseStep_endBlock ['}'] hends) ts

end Build

/-- **Printing and parsing** gives the configuration back. -/
theorem parse_of_toString {config : NginxConfig} (h : WellFormed config) (depth : ℕ) :
    parse (toString depth config) [] = .returned true config := by
  obtain ⟨e, he, hrun⟩ := run_statements [(.eof, [])] (fun s hs => run_statement (h.2 s hs))
    (rfl : block 0 [] = some []) (rfl : beginsStatement .start = true)
  have hends : endsStatement e = true := by
    rcases he with ⟨-, hc⟩ | he
    · exact absurd hc h.1
    · exact he
  rw [parse_eq, tokenize_toString h]
  refine hrun.trans ?_
  exact run_stop (parseStep_eof [] hends) []

/-! ### What the parser builds is well formed -/

/-- A block under construction, `n` levels up from the one on top of the stack: all its statements are
well formed but the last, which is as far as the last token has brought it. -/
def Grown : ℕ → TokenType → NginxConfig → Prop
  | 0, .start, c | 0, .startBlock, c => c = []
  | 0, .statementEnd, c | 0, .endBlock, c => WellFormed c
  | 0, .normal, c => ∃ c' tokens, c = c' ++ [.mk tokens none] ∧ (∀ s ∈ c', WellFormedStatement s) ∧
      tokens ≠ [] ∧ ∀ w ∈ tokens, IsToken w
  | 0, _, _ => False
  | n + 1, last, c => ∃ c' tokens b, c = c' ++ [.mk tokens (some b)] ∧
      (∀ s ∈ c', WellFormedStatement s) ∧ tokens ≠ [] ∧ (∀ w ∈ tokens, IsToken w) ∧ Grown n last b

/-- Changing the block on top. -/
theorem Grown.modify {last last' : TokenType} {f : NginxConfig → NginxConfig} {m : ℕ}
    (h : ∀ b, Grown 0 last b → Grown m last' (f b)) :
    ∀ {n : ℕ} {c : NginxConfig}, Grown n last c → Grown (m + n) last' (Parser.modify n f c)
  | 0, c, hc => h c hc
  | n + 1, c, hc => by
    obtain ⟨c', tokens, b, rfl, hc', hne, htok, hb⟩ := hc
    rw [Parser.modify, onBack_concat]
    exact ⟨c', tokens, _, rfl, hc', hne, htok, Grown.modify h hb⟩

theorem Grown.block {last : TokenType} : ∀ {n : ℕ} {c : NginxConfig}, Grown n last c →
    ∃ b, block n c = some b ∧ Grown 0 last b
  | 0, c, h => ⟨c, rfl, h⟩
  | n + 1, c, h => by
    obtain ⟨c', tokens, b, rfl, -, -, -, hb⟩ := h
    obtain ⟨b', h1, h2⟩ := Grown.block hb
    refine ⟨b', ?_, h2⟩
    simpa [Parser.block, NginxConfigStatement.childBlock] using h1

theorem wellFormed_concat {c : NginxConfig} {s : NginxConfigStatement}
    (h : ∀ s ∈ c, WellFormedStatement s) (hs : WellFormedStatement s) : WellFormed (c ++ [s]) := by
  refine ⟨by simp, fun x hx => ?_⟩
  rcases List.mem_append.mp hx with hx | hx
  · exact h x hx
  · rw [List.mem_singleton.mp hx]; exact hs

/-- A closed block makes its statement well formed. -/
theorem Grown.close {last : TokenType} (hl : endsStatement last = true) :
    ∀ {n : ℕ} {c : NginxConfig}, Grown (n + 1) last c → Grown n .endBlock c
  | 0, c, h => by
    obtain ⟨c', tokens, b, rfl, hc', hne, htok, hb⟩ := h
    have hwf : WellFormed b := by
      cases last <;> first | exact hb | simp [endsStatement] at hl
    exact wellFormed_concat hc' (.mk hne htok (fun c hc => Option.some.inj hc ▸ hwf.1)
      fun c hc => Option.some.inj hc ▸ hwf.2)
  | n + 1, c, h => by
    obtain ⟨c', tokens, b, rfl, hc', hne, htok, hb⟩ := h
    exact ⟨c', tokens, b, rfl, hc', hne, htok, Grown.close hl hb⟩

/-- At the end of the text every open block is well formed. -/
theorem Grown.wellFormed : ∀ {n : ℕ} {last : TokenType} {c : NginxConfig},
    endsStatement last = true → Grown n last c → WellFormed c
  | 0, last, c, hl, h => by cases last <;> first | exact h | simp [endsStatement] at hl
  | n + 1, last, c, hl, h => Grown.wellFormed (n := n) rfl (Grown.close hl h)

theorem wellFormed_of_begins {last : TokenType} {b : NginxConfig} (hl : beginsStatement last = true)
    (h : Grown 0 last b) : ∀ s ∈ b, WellFormedStatement s := by
  have hb : b = [] ∨ WellFormed b := by
    cases last <;> first | exact Or.inl h | exact Or.inr h | simp [beginsStatement] at hl
  rcases hb with rfl | hb
  · simp
  · exact hb.2

/-- A word in the block on top. -/
theorem grown_normal {last : TokenType} {b : NginxConfig} {w : Str} (hw : IsToken w)
    (hf : follows last .normal = true) (h : Grown 0 last b) : Grown 0 .normal
      (onBack (.pushToken w) (if last = .normal then b else b ++ [NginxConfigStatement.mk [] none])) := by
  by_cases hl : last = .normal
  · subst hl
    obtain ⟨c, tokens, rfl, hc, -, htok⟩ := h
    rw [if_pos rfl, onBack_concat]
    refine ⟨c, tokens ++ [w], rfl, hc, by simp, fun v hv => ?_⟩
    rcases List.mem_append.mp hv with hv | hv
    · exact htok v hv
    · rw [List.mem_singleton.mp hv]; exact hw
  · rw [if_neg hl, onBack_concat]
    have hbeg : beginsStatement last = true := by simpa [follows, hl] using hf
    exact ⟨b, [w], rfl, wellFormed_of_begins hbeg h, by simp, by simpa using hw⟩

/-- **One token** keeps the blocks well formed. -/
theorem grown_step {config : NginxConfig} {n : ℕ} {last : TokenType} {st' : ParserState}
    {token : Token} (hg : Grown n last config) (htok : ∀ w, token = (.normal, w) → IsToken w)
    (hf : follows last token.1 = true)
    (h : parseStep ⟨config, n + 1, last⟩ token = .next st') (h0 : st'.stack ≠ 0) :
    Grown (st'.stack - 1) st'.lastTokenType st'.config := by
  obtain ⟨b, hb, hgb⟩ := hg.block
  obtain ⟨t, value⟩ := token
  have hne : last = .normal → b ≠ [] := by
    rintro rfl
    obtain ⟨c, tokens, rfl, -⟩ := hgb
    simp
  cases t with
  | start => simp [follows] at hf
  | comment => simp [follows] at hf
  | error => simp [follows] at hf
  | eof => simp [parseStep] at h
  | normal =>
    rw [parseStep_normal value hb hne hf] at h
    obtain rfl := Step.next.inj h
    have := hg.modify (m := 0) fun b hb => grown_normal (htok value rfl) hf hb
    rwa [Nat.zero_add] at this
  | statementEnd =>
    obtain rfl : last = .normal := by simpa [follows] using hf
    rw [parseStep_statementEnd] at h
    obtain rfl := Step.next.inj h
    have hstep : ∀ b, Grown 0 .normal b → Grown 0 .statementEnd (id b) := by
      rintro b ⟨c, tokens, rfl, hc, hne, htok⟩
      exact wellFormed_concat hc (.mk hne htok (by simp) (by simp))
    have := hg.modify hstep
    rwa [Nat.zero_add, modify_id] at this
  | startBlock =>
    obtain rfl : last = .normal := by simpa [follows] using hf
    rw [parseStep_startBlock value hb (hne rfl)] at h
    obtain rfl := Step.next.inj h
    have hstep : ∀ b, Grown 0 .normal b → Grown 1 .startBlock (onBack (.setBlock []) b) := by
      rintro b ⟨c, tokens, rfl, hc, hne, htok⟩
      rw [onBack_concat]
      exact ⟨c, tokens, [], rfl, hc, hne, htok, rfl⟩
    have := hg.modify hstep
    rwa [Nat.add_comm] at this
  | endBlock =>
    have hl : endsStatement last = true := by simpa [follows] using hf
    rw [parseStep_endBlock value hl] at h
    obtain rfl := Step.next.inj h
    obtain ⟨k, rfl⟩ := Nat.exists_eq_succ_of_ne_zero h0
    exact hg.close hl

/-- The states of the loop. -/
def states (st : ParserState) : List Token → List ParserState
  | [] => [st]
  | token :: tokens =>
    match parseStep st token with
    | .next st' => st :: states st' tokens
    | .stop _ => [st]

/-- The root block stays on the stack. -/
def KeepsRoot (input : Str) (config : NginxConfig) : Prop :=
  ∀ st ∈ states (.init config) (tokenize input), st.stack ≠ 0

instance (input : Str) (config : NginxConfig) : Decidable (KeepsRoot input config) :=
  inferInstanceAs (Decidable (∀ st ∈ states (.init config) (tokenize input), st.stack ≠ 0))

theorem mem_states (st : ParserState) : ∀ tokens : List Token, st ∈ states st tokens
  | [] => by simp [states]
  | token :: tokens => by
    rw [states]
    split <;> simp

theorem grown_run : ∀ {tokens : List Token} {st : ParserState} {c : NginxConfig},
    (∀ w, (.normal, w) ∈ tokens → IsToken w) → (∀ s ∈ states st tokens, s.stack ≠ 0) →
    Grown (st.stack - 1) st.lastTokenType st.config → run st tokens = .returned true c →
    WellFormed c
  | [], _, _, _, _, _, h => by simp [run] at h
  | token :: tokens, st, c, htok, hs, hg, h => by
    have h0 : st.stack ≠ 0 := hs st (mem_states st _)
    cases hstep : parseStep st token with
    | stop o =>
      rw [run_stop hstep] at h
      subst h
      obtain ⟨hl, rfl⟩ := parseStep_accepts hstep
      exact hg.wellFormed hl
    | next st' =>
      rw [run_next hstep] at h
      have hs' : ∀ s ∈ states st' tokens, s.stack ≠ 0 := fun s hm =>
        hs s (by rw [states, hstep]; simp [hm])
      refine grown_run (fun w hw => htok w (List.mem_cons_of_mem _ hw)) hs' ?_ h
      by_cases hc : token.1 = .comment
      · rw [parseStep_comment hc] at hstep
        obtain rfl := Step.next.inj hstep
        exact hg
      · have hf := follows_of_next hc hstep
        obtain ⟨config, stack, last⟩ := st
        obtain ⟨n, rfl⟩ := Nat.exists_eq_succ_of_ne_zero h0
        exact grown_step hg (fun w hw => htok w (by simp [hw])) hf hstep (hs' st' (mem_states st' _))

/-- **What the parser accepts** while it keeps the root block is well formed. -/
theorem wellFormed_of_run {input : Str} {c : NginxConfig}
    (h : parse input [] = .returned true c) (hk : KeepsRoot input []) : WellFormed c := by
  rw [parse_eq] at h
  exact grown_run (isToken_of_mem input) hk rfl h

/-- **Round trip.** A printed configuration is parsed to itself, at every depth; and what the parser
accepts while it keeps the root block is well formed, so it can be printed. -/
theorem round_trip :
    (∀ (c : NginxConfig) (depth : ℕ), WellFormed c →
      parse (toString depth c) [] = .returned true c) ∧
    ∀ (input : Str) (c : NginxConfig), parse input [] = .returned true c → KeepsRoot input [] →
      WellFormed c :=
  ⟨fun _ depth h => parse_of_toString h depth, fun _ _ h hk => wellFormed_of_run h hk⟩

/-- A server with a port. -/
def serverConfig : NginxConfig :=
  [.mk ["server".toList] (some [.mk ["listen".toList, "'80'".toList] none])]

/-- The configuration of a server is printed and parsed. -/
theorem round_trip_server : parse (toString 1 serverConfig) [] = .returned true serverConfig ∧
    WellFormed serverConfig := by
  have hwords : ∀ w ∈ ["server".toList, "listen".toList, "'80'".toList], IsToken w := by
    intro w hw
    simp only [List.mem_cons, List.not_mem_nil, or_false] at hw
    rcases hw with rfl | rfl | rfl
    · exact Or.inr (Or.inr ⟨'s', ['e', 'r', 'v', 'e', 'r'], rfl, rfl, by simp [isDelimiter]⟩)
    · exact Or.inr (Or.inr ⟨'l', ['i', 's', 't', 'e', 'n'], rfl, rfl, by simp [isDelimiter]⟩)
    · exact Or.inl ⟨"80".toList, rfl, by decide⟩
  have hlisten : WellFormedStatement (.mk ["listen".toList, "'80'".toList] none) :=
    .mk (by simp) (fun w hw => hwords w (List.mem_cons_of_mem _ hw)) (by simp) (by simp)
  have hserver : WellFormed serverConfig := by
    refine ⟨by simp [serverConfig], fun s hs => ?_⟩
    rw [List.mem_singleton.mp hs]
    refine .mk (by simp) (fun w hw => hwords w (List.mem_cons.mpr (Or.inl (List.mem_singleton.mp hw))))
      (fun c hc => Option.some.inj hc ▸ by simp) fun c hc => Option.some.inj hc ▸ ?_
    intro s hs
    rw [List.mem_singleton.mp hs]
    exact hlisten
  have hparse := round_trip.1 serverConfig 1 hserver
  exact ⟨hparse, round_trip.2 _ _ hparse (by decide +kernel)⟩

end Kachow.Config.RoundTrip
