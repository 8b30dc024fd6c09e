import Kachow.Lib.Text

/-! # The lexer of the configuration

`parseToken` reads one token: it skips white space and then stays in one of four states until the token
ends. A word ends at white space or at one of `; { }`, which is given back to the stream. It may hold
quotes, `#` and carriage returns; a carriage return does not end it. A quoted string ends at its second
quote, and one of the characters that end a word has to follow.

Every token but the last takes at least one character (`length_rest_lt`), so a text has finitely many:
`tokenize` lists them, up to and including the first `eof` or `error`. -/

namespace Kachow.Config.Lexer

open Kachow.Lib.Text

/-- `TokenType`. -/
inductive TokenType where
  | start
  | normal
  | startBlock
  | endBlock
  | comment
  | statementEnd
  | eof
  | error
  deriving DecidableEq, Repr

/-- `TokenParserState`. -/
inductive TokenParserState where
  | initialWhitespace
  | singleQuote
  | doubleQuote
  | tokenTypeComment
  | tokenTypeNormal
  deriving DecidableEq, Repr

/-- A token: its type and its text. -/
abbrev Token := TokenType × Str

/-- The white space before a token. -/
def isBlank (c : Char) : Bool := c = ' ' || c = '\t' || c = '\n' || c = '\r'

/-- The characters that end a word. A carriage return is not one of them. -/
def isDelimiter (c : Char) : Bool :=
  c = ' ' || c = '\t' || c = '\n' || c = ';' || c = '{' || c = '}'

/-- The type of a quoted string, by the character after it; at the end of the text there is none. -/
def afterQuote (input : Str) : TokenType :=
  if input.head?.any isDelimiter then .normal else .error

/-- The loop of `ParseToken`: the token and what is left of the text. -/
def parseTokenFrom : TokenParserState → Str → Str → Token × Str
  | .singleQuote, value, [] => ((.error, value), [])
  | .doubleQuote, value, [] => ((.error, value), [])
  | .initialWhitespace, value, [] => ((.eof, value), [])
  | .tokenTypeComment, value, [] => ((.eof, value), [])
  | .tokenTypeNormal, value, [] => ((.eof, value), [])
  | .initialWhitespace, value, c :: input =>
    if c = '{' then ((.startBlock, [c]), input)
    else if c = '}' then ((.endBlock, [c]), input)
    else if c = '#' then parseTokenFrom .tokenTypeComment [c] input
    else if c = '"' then parseTokenFrom .doubleQuote [c] input
    else if c = '\'' then parseTokenFrom .singleQuote [c] input
    else if c = ';' then ((.statementEnd, [c]), input)
    else if isBlank c then parseTokenFrom .initialWhitespace value input
    else parseTokenFrom .tokenTypeNormal (value ++ [c]) input
  | .singleQuote, value, c :: input =>
    if c = '\'' then ((afterQuote input, value ++ [c]), input)
    else parseTokenFrom .singleQuote (value ++ [c]) input
  | .doubleQuote, value, c :: input =>
    if c = '"' then ((afterQuote input, value ++ [c]), input)
    else parseTokenFrom .doubleQuote (value ++ [c]) input
  | .tokenTypeComment, value, c :: input =>
    if c = '\n' ∨ c = '\r' then ((.comment, value), input)
    else parseTokenFrom .tokenTypeComment (value ++ [c]) input
  | .tokenTypeNormal, value, c :: input =>
    if isDelimiter c then ((.normal, value), c :: input)
    else parseTokenFrom .tokenTypeNormal (value ++ [c]) input

/-- `ParseToken`. -/
def parseToken (input : Str) : Token × Str := parseTokenFrom .initialWhitespace [] input

/-- The type ends the list of tokens. -/
def TokenType.isLast (t : TokenType) : Bool := t = .eof || t = .error

/-- At most `fuel` tokens of a text. -/
def tokensFrom : ℕ → Str → List Token
  | 0, _ => []
  | fuel + 1, input =>
    let (token, rest) := parseToken input
    if token.1.isLast then [token] else token :: tokensFrom fuel rest

/-- The tokens of a text, up to the first `eof` or `error`. -/
def tokenize (input : Str) : List Token := tokensFrom (input.length + 1) input

-- the loop computes on a state and the first character
attribute [local simp] parseTokenFrom

/-! ### Every token takes a character -/

theorem length_rest_le : ∀ (s : TokenParserState) (value input : Str),
    (parseTokenFrom s value input).2.length ≤ input.length
  | s, value, [] => by cases s <;> simp
  | s, value, c :: input => by
    have ih : ∀ s value, (parseTokenFrom s value input).2.length ≤ (c :: input).length :=
      fun s value => (length_rest_le s value input).trans (by simp)
    cases s with
    | initialWhitespace =>
      unfold parseTokenFrom
      split_ifs <;> first | exact ih _ _ | simp
    | singleQuote =>
      unfold parseTokenFrom
      split_ifs <;> first | exact ih _ _ | simp
    | doubleQuote =>
      unfold parseTokenFrom
      split_ifs <;> first | exact ih _ _ | simp
    | tokenTypeComment =>
      unfold parseTokenFrom
      split_ifs <;> first | exact ih _ _ | simp
    | tokenTypeNormal =>
      unfold parseTokenFrom
      split_ifs <;> first | exact ih _ _ | simp

/-- **Progress**: a call on a text that is not empty takes a character. -/
theorem length_rest_lt {input : Str} (h : input ≠ []) :
    (parseToken input).2.length < input.length := by
  obtain ⟨c, input, rfl⟩ := List.exists_cons_of_ne_nil h
  have ih : ∀ s value, (parseTokenFrom s value input).2.length < (c :: input).length :=
    fun s value => Nat.lt_succ_of_le (length_rest_le s value input)
  unfold parseToken parseTokenFrom
  split_ifs <;> first | exact ih _ _ | simp

theorem parseToken_nil : parseToken [] = ((.eof, []), []) := rfl

/-- **The end**: a call that gives `eof` has read the whole text. -/
theorem rest_of_eof : ∀ {s : TokenParserState} {value input : Str},
    (parseTokenFrom s value input).1.1 = .eof → (parseTokenFrom s value input).2 = []
  | s, value, [] => by cases s <;> simp
  | s, value, c :: input => by
    have hquote : afterQuote input ≠ .eof := by unfold afterQuote; split <;> simp
    cases s with
    | initialWhitespace =>
      unfold parseTokenFrom
      split_ifs <;> first | exact rest_of_eof | simp
    | singleQuote =>
      unfold parseTokenFrom
      split_ifs <;> first | exact rest_of_eof | exact fun h => absurd h hquote
    | doubleQuote =>
      unfold parseTokenFrom
      split_ifs <;> first | exact rest_of_eof | exact fun h => absurd h hquote
    | tokenTypeComment =>
      unfold parseTokenFrom
      split_ifs <;> first | exact rest_of_eof | simp
    | tokenTypeNormal =>
      unfold parseTokenFrom
      split_ifs <;> first | exact rest_of_eof | simp

/-- Enough fuel gives all tokens. -/
theorem tokensFrom_eq : ∀ {m n : ℕ} {input : Str}, input.length < m → input.length < n →
    tokensFrom m input = tokensFrom n input
  | m + 1, n + 1, input, hm, hn => by
    unfold tokensFrom
    by_cases hne : input = []
    · subst hne
      rw [parseToken_nil]
      rfl
    · have hlt := length_rest_lt hne
      simp only
      rw [tokensFrom_eq (m := m) (n := n) (by omega) (by omega)]

/-- **The tokens of a text**: the first one, and those of what is left. -/
theorem tokenize_eq (input : Str) : tokenize input =
    if (parseToken input).1.1.isLast then [(parseToken input).1]
    else (parseToken input).1 :: tokenize (parseToken input).2 := by
  have hfuel : ∀ h : (parseToken input).1.1.isLast = false,
      tokensFrom input.length (parseToken input).2 = tokenize (parseToken input).2 := fun h => by
    have hne : input ≠ [] := by
      rintro rfl
      exact absurd h (by decide)
    exact tokensFrom_eq (length_rest_lt hne) (by omega)
  unfold tokenize
  rw [tokensFrom]
  by_cases h : (parseToken input).1.1.isLast = true
  · simp only [h, if_true]
  · simp only [h]
    rw [hfuel (by simpa using h)]
    rfl

/-- The induction over the tokens of a text. -/
theorem tokenize_induction {P : Str → Prop}
    (last : ∀ input, (parseToken input).1.1.isLast = true → P input)
    (next : ∀ input, (parseToken input).1.1.isLast = false → P (parseToken input).2 → P input)
    (input : Str) : P input := by
  induction hn : input.length using Nat.strong_induction_on generalizing input with
  | _ n ih =>
    cases h : (parseToken input).1.1.isLast with
    | true => exact last input h
    | false =>
      have hne : input ≠ [] := by
        rintro rfl
        exact absurd h (by decide)
      exact next input h (ih _ (hn ▸ length_rest_lt hne) _ rfl)

/-! ### What the states read -/

/-- A character that begins a word. -/
def beginsWord (c : Char) : Bool :=
  !(isBlank c || c = '{' || c = '}' || c = '#' || c = '"' || c = '\'' || c = ';')

/-- An unquoted word. -/
def IsWord (w : Str) : Prop :=
  ∃ c s, w = c :: s ∧ beginsWord c = true ∧ ∀ d ∈ s, isDelimiter d = false

/-- A string in quotes `q`, with no such quote inside. -/
def IsQuoted (q : Char) (w : Str) : Prop := ∃ s, w = q :: (s ++ [q]) ∧ q ∉ s

/-- The texts of `normal` tokens. -/
def IsToken (w : Str) : Prop := IsQuoted '\'' w ∨ IsQuoted '"' w ∨ IsWord w

theorem parseTokenFrom_blank {c : Char} (hc : isBlank c = true) (value input : Str) :
    parseTokenFrom .initialWhitespace value (c :: input) =
      parseTokenFrom .initialWhitespace value input := by
  have hne : c ≠ '{' ∧ c ≠ '}' ∧ c ≠ '#' ∧ c ≠ '"' ∧ c ≠ '\'' ∧ c ≠ ';' := by
    refine ⟨?_, ?_, ?_, ?_, ?_, ?_⟩ <;> (rintro rfl; exact absurd hc (by decide))
  obtain ⟨h1, h2, h3, h4, h5, h6⟩ := hne
  rw [parseTokenFrom]
  simp only [h1, h2, h3, h4, h5, h6, hc, if_true, if_false]

/-- White space before a token is skipped. -/
theorem parseToken_blank {b : Str} (hb : ∀ c ∈ b, isBlank c = true) (input : Str) :
    parseToken (b ++ input) = parseToken input := by
  unfold parseToken
  induction b with
  | nil => rfl
  | cons c b ih =>
    rw [List.cons_append, parseTokenFrom_blank (hb c (by simp))]
    exact ih fun d hd => hb d (by simp [hd])

theorem tokenize_blank {b : Str} (hb : ∀ c ∈ b, isBlank c = true) (input : Str) :
    tokenize (b ++ input) = tokenize input := by
  rw [tokenize_eq, tokenize_eq input, parseToken_blank hb]

/-- A word ends at a delimiter, which stays in the text. -/
theorem readWord {d : Char} (hd : isDelimiter d = true) (rest : Str) : ∀ {s : Str} (value : Str),
    (∀ c ∈ s, isDelimiter c = false) →
    parseTokenFrom .tokenTypeNormal value (s ++ d :: rest) = ((.normal, value ++ s), d :: rest)
  | [], value, _ => by simp [hd]
  | c :: s, value, h => by
    rw [List.cons_append, parseTokenFrom, if_neg (by simp [h c (by simp)]),
      readWord hd rest (value ++ [c]) fun e he => h e (by simp [he])]
    simp

theorem readSingle (rest : Str) : ∀ {s : Str} (value : Str), '\'' ∉ s →
    parseTokenFrom .singleQuote value (s ++ '\'' :: rest) =
      ((afterQuote rest, value ++ (s ++ ['\''])), rest)
  | [], value, _ => by simp
  | c :: s, value, h => by
    have hc : c ≠ '\'' := fun e => h (by simp [e])
    rw [List.cons_append, parseTokenFrom, if_neg hc,
      readSingle rest (value ++ [c]) fun hs => h (by simp [hs])]
    simp

theorem readDouble (rest : Str) : ∀ {s : Str} (value : Str), '"' ∉ s →
    parseTokenFrom .doubleQuote value (s ++ '"' :: rest) =
      ((afterQuote rest, value ++ (s ++ ['"'])), rest)
  | [], value, _ => by simp
  | c :: s, value, h => by
    have hc : c ≠ '"' := fun e => h (by simp [e])
    rw [List.cons_append, parseTokenFrom, if_neg hc,
      readDouble rest (value ++ [c]) fun hs => h (by simp [hs])]
    simp

theorem afterQuote_cons {d : Char} (hd : isDelimiter d = true) (rest : Str) :
    afterQuote (d :: rest) = .normal := by simp [afterQuote, hd]

/-- **A token before a delimiter** is read as it is. -/
theorem parseToken_token {w : Str} (hw : IsToken w) {d : Char} (hd : isDelimiter d = true)
    (rest : Str) : parseToken (w ++ d :: rest) = ((.normal, w), d :: rest) := by
  unfold parseToken
  obtain ⟨s, rfl, hs⟩ | ⟨s, rfl, hs⟩ | ⟨c, s, rfl, hc, hs⟩ := hw
  · have := readSingle (d :: rest) ['\''] hs
    rw [afterQuote_cons hd] at this
    simpa using this
  · have := readDouble (d :: rest) ['"'] hs
    rw [afterQuote_cons hd] at this
    simpa using this
  · simp only [beginsWord, Bool.not_eq_true', Bool.or_eq_false_iff, decide_eq_false_iff_not] at hc
    obtain ⟨⟨⟨⟨⟨⟨hb, h1⟩, h2⟩, h3⟩, h4⟩, h5⟩, h6⟩ := hc
    rw [List.cons_append, parseTokenFrom]
    simp only [h1, h2, h3, h4, h5, h6, hb, Bool.false_eq_true, if_false, List.nil_append]
    exact readWord hd rest [c] hs

/-! ### What a `normal` token is -/

theorem normal_of_word : ∀ {input value w rest : Str}, IsWord value →
    parseTokenFrom .tokenTypeNormal value input = ((.normal, w), rest) → IsWord w
  | [], _, _, _, _, h => by simp at h
  | c :: input, value, w, rest, hv, h => by
    rw [parseTokenFrom] at h
    split_ifs at h with hc
    · simp only [Prod.mk.injEq] at h
      exact h.1.2 ▸ hv
    · obtain ⟨x, s, rfl, hx, hs⟩ := hv
      refine normal_of_word ⟨x, s ++ [c], by simp, hx, fun d hd => ?_⟩ h
      rcases List.mem_append.mp hd with hd | hd
      · exact hs d hd
      · rw [List.mem_singleton.mp hd]
        simpa using hc

theorem normal_of_single : ∀ {input s w rest : Str}, '\'' ∉ s →
    parseTokenFrom .singleQuote ('\'' :: s) input = ((.normal, w), rest) → IsQuoted '\'' w
  | [], _, _, _, _, h => by simp at h
  | c :: input, s, w, rest, hs, h => by
    rw [parseTokenFrom] at h
    split_ifs at h with hc
    · simp only [Prod.mk.injEq] at h
      exact ⟨s, by rw [← h.1.2, hc]; rfl, hs⟩
    · have hs' : '\'' ∉ s ++ [c] := by
        simp only [List.mem_append, List.mem_singleton, not_or]
        exact ⟨hs, fun e => hc e.symm⟩
      exact normal_of_single hs' h

theorem normal_of_double : ∀ {input s w rest : Str}, '"' ∉ s →
    parseTokenFrom .doubleQuote ('"' :: s) input = ((.normal, w), rest) → IsQuoted '"' w
  | [], _, _, _, _, h => by simp at h
  | c :: input, s, w, rest, hs, h => by
    rw [parseTokenFrom] at h
    split_ifs at h with hc
    · simp only [Prod.mk.injEq] at h
      exact ⟨s, by rw [← h.1.2, hc]; rfl, hs⟩
    · have hs' : '"' ∉ s ++ [c] := by
        simp only [List.mem_append, List.mem_singleton, not_or]
        exact ⟨hs, fun e => hc e.symm⟩
      exact normal_of_double hs' h

theorem comment_not_normal : ∀ {input value w rest : Str},
    parseTokenFrom .tokenTypeComment value input ≠ ((.normal, w), rest)
  | [], _, _, _ => by simp
  | c :: input, value, w, rest => by
    rw [parseTokenFrom]
    split_ifs
    · simp
    · exact comment_not_normal

/-- **A `normal` token** is a quoted string or a word. -/
theorem isToken_of_normal : ∀ {input w rest : Str},
    parseToken input = ((.normal, w), rest) → IsToken w
  | [], _, _, h => by simp [parseToken] at h
  | c :: input, w, rest, h => by
    unfold parseToken at h
    rw [parseTokenFrom] at h
    split_ifs at h with h1 h2 h3 h4 h5 h6 h7
    · simp at h
    · simp at h
    · exact absurd h comment_not_normal
    · subst h4
      exact Or.inr (Or.inl (normal_of_double (by simp) h))
    · subst h5
      exact Or.inl (normal_of_single (by simp) h)
    · simp at h
    · exact isToken_of_normal h
    · refine Or.inr (Or.inr (normal_of_word ⟨c, [], rfl, ?_, by simp⟩ h))
      simp [beginsWord, h1, h2, h3, h4, h5, h6, h7]

/-- The tokens of type `normal` in a text. -/
theorem isToken_of_mem (input : Str) : ∀ w, (.normal, w) ∈ tokenize input → IsToken w := by
  induction input using tokenize_induction with
  | last input h =>
    intro w hw
    rw [tokenize_eq, if_pos h, List.mem_singleton] at hw
    rw [← hw] at h
    simp [TokenType.isLast] at h
  | next input h ih =>
    intro w hw
    rw [tokenize_eq, if_neg (by simp [h]), List.mem_cons] at hw
    rcases hw with hw | hw
    · exact @isToken_of_normal input w (parseToken input).2 (by rw [hw])
    · exact ih w hw

/-- A word is what the lexer produces from unquoted text. -/
theorem isWord_iff {w : Str} : IsWord w ↔ w.head? ≠ some '\'' ∧ w.head? ≠ some '"' ∧
    ∃ input rest, parseToken input = ((.normal, w), rest) := by
  constructor
  · intro hw
    refine ⟨?_, ?_, w ++ [';'], [';'], parseToken_token (Or.inr (Or.inr hw)) (by decide) []⟩
    all_goals
      obtain ⟨c, s, rfl, hc, -⟩ := hw
      simp only [List.head?_cons, ne_eq, Option.some.injEq]
      rintro rfl
      exact absurd hc (by decide)
  · rintro ⟨h1, h2, input, rest, h⟩
    obtain ⟨s, rfl, -⟩ | ⟨s, rfl, -⟩ | hw := isToken_of_normal h
    · simp at h1
    · simp at h2
    · exact hw

end Kachow.Config.Lexer
