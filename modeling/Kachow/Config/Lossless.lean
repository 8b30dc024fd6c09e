import Kachow.Config.Layout

/-! # What the lexer leaves out

A call of `ParseToken` skips white space and reads a comment, a symbol, or a word or quoted string with
the character that ends it (`Reads`). Where the text ends in the middle of a quoted string the call
gives an error, but where it ends in the middle of a comment or of a word it gives `eof`, as at the end
of white space. So every character of a text is accounted for by the tokens (`Covered`), unless the
text ends in a word, which is dropped then (`lossless_iff`). -/

namespace Kachow.Config.Lossless

open Kachow.Lib.Text Kachow.Config.Lexer Kachow.Config.Layout

/-! ### What a call reads -/

/-- A comment without a line end. -/
def IsOpenComment (s : Str) : Prop := ∃ b, s = '#' :: b ∧ ∀ d ∈ b, d ≠ '\n' ∧ d ≠ '\r'

/-- What is left where a call finds the end of the text and gives no error. -/
def IsTail (s : Str) : Prop := s = [] ∨ IsOpenComment s ∨ IsWord s

/-- What a call of `ParseToken` reads: white space, and what makes the token. -/
inductive Reads : Str → Token → Str → Prop
  | blank {c : Char} {input rest : Str} {x : Token} (hc : isBlank c = true)
      (h : Reads input x rest) : Reads (c :: input) x rest
  | comment {b rest : Str} {c : Char} (hb : ∀ d ∈ b, d ≠ '\n' ∧ d ≠ '\r')
      (hc : c = '\n' ∨ c = '\r') : Reads ('#' :: (b ++ c :: rest)) (.comment, '#' :: b) rest
  | symbol {w rest : Str} (hw : IsSymbol w) : Reads (w ++ rest) (typed w) rest
  | token {w rest : Str} {d : Char} (hw : IsToken w) (hd : isDelimiter d = true) :
      Reads (w ++ d :: rest) (.normal, w) (d :: rest)
  | eof {tail value : Str} (ht : IsTail tail) : Reads tail (.eof, value) []
  | error {input value rest : Str} : Reads input (.error, value) rest

theorem readComment_open : ∀ {s : Str} (value : Str), (∀ d ∈ s, d ≠ '\n' ∧ d ≠ '\r') →
    parseTokenFrom .tokenTypeComment value s = ((.eof, value ++ s), [])
  | [], value, _ => by simp [parseTokenFrom]
  | c :: s, value, h => by
    have hc : ¬ (c = '\n' ∨ c = '\r') := by
      have := h c (by simp)
      tauto
    rw [parseTokenFrom, if_neg hc, readComment_open (value ++ [c]) fun d hd => h d (by simp [hd])]
    simp

theorem readSingle_open : ∀ {s : Str} (value : Str), '\'' ∉ s →
    parseTokenFrom .singleQuote value s = ((.error, value ++ s), [])
  | [], value, _ => by simp [parseTokenFrom]
  | c :: s, value, h => by
    have hc : c ≠ '\'' := fun e => h (by simp [e])
    rw [parseTokenFrom, if_neg hc, readSingle_open (value ++ [c]) fun hs => h (by simp [hs])]
    simp

theorem readDouble_open : ∀ {s : Str} (value : Str), '"' ∉ s →
    parseTokenFrom .doubleQuote value s = ((.error, value ++ s), [])
  | [], value, _ => by simp [parseTokenFrom]
  | c :: s, value, h => by
    have hc : c ≠ '"' := fun e => h (by simp [e])
    rw [parseTokenFrom, if_neg hc, readDouble_open (value ++ [c]) fun hs => h (by simp [hs])]
    simp

/-- A comment goes up to the first line end. -/
theorem reads_comment (s : Str) : Reads ('#' :: s) (parseTokenFrom .tokenTypeComment ['#'] s).1
    (parseTokenFrom .tokenTypeComment ['#'] s).2 := by
  by_cases h : ∃ c ∈ s, c = '\n' ∨ c = '\r'
  · obtain ⟨b, c, rest, rfl, hc, hb⟩ := exists_first h
    have hb' : ∀ d ∈ b, d ≠ '\n' ∧ d ≠ '\r' := fun d hd => not_or.mp (hb d hd)
    rw [readComment hc rest ['#'] hb']
    exact .comment hb' hc
  · have hs : ∀ d ∈ s, d ≠ '\n' ∧ d ≠ '\r' := fun d hd => not_or.mp fun hc => h ⟨d, hd, hc⟩
    rw [readComment_open ['#'] hs]
    exact .eof (Or.inr (Or.inl ⟨s, rfl, hs⟩))

/-- Behind its second quote a quoted string is a token, or an error. -/
theorem reads_afterQuote {w rest : Str} (hw : IsToken w) :
    Reads (w ++ rest) (afterQuote rest, w) rest := by
  rcases rest with - | ⟨d, rest⟩
  · exact .error
  · by_cases hd : isDelimiter d = true
    · rw [afterQuote_cons hd]
      exact .token hw hd
    · have herror : afterQuote (d :: rest) = .error := by simp [afterQuote, hd]
      rw [herror]
      exact .error

theorem reads_single (s : Str) : Reads ('\'' :: s) (parseTokenFrom .singleQuote ['\''] s).1
    (parseTokenFrom .singleQuote ['\''] s).2 := by
  by_cases h : ∃ c ∈ s, c = '\''
  · obtain ⟨b, c, rest, rfl, rfl, hb⟩ := exists_first h
    have hb' : '\'' ∉ b := fun hm => hb _ hm rfl
    rw [readSingle rest ['\''] hb']
    have hread := @reads_afterQuote ('\'' :: (b ++ ['\''])) rest (Or.inl ⟨b, rfl, hb'⟩)
    simpa using hread
  · rw [readSingle_open ['\''] fun hm => h ⟨_, hm, rfl⟩]
    exact .error

theorem reads_double (s : Str) : Reads ('"' :: s) (parseTokenFrom .doubleQuote ['"'] s).1
    (parseTokenFrom .doubleQuote ['"'] s).2 := by
  by_cases h : ∃ c ∈ s, c = '"'
  · obtain ⟨b, c, rest, rfl, rfl, hb⟩ := exists_first h
    have hb' : '"' ∉ b := fun hm => hb _ hm rfl
    rw [readDouble rest ['"'] hb']
    have hread := @reads_afterQuote ('"' :: (b ++ ['"'])) rest (Or.inr (Or.inl ⟨b, rfl, hb'⟩))
    simpa using hread
  · rw [readDouble_open ['"'] fun hm => h ⟨_, hm, rfl⟩]
    exact .error

/-- A word goes up to the first delimiter. -/
theorem reads_word {c : Char} (hc : beginsWord c = true) (s : Str) :
    Reads (c :: s) (parseTokenFrom .tokenTypeNormal [c] s).1
      (parseTokenFrom .tokenTypeNormal [c] s).2 := by
  by_cases h : ∃ d ∈ s, isDelimiter d = true
  · obtain ⟨b, d, rest, rfl, hd, hb⟩ := exists_first h
    have hb' : ∀ e ∈ b, isDelimiter e = false := fun e he => by simpa using hb e he
    rw [readWord hd rest [c] hb']
    exact .token (Or.inr (Or.inr ⟨c, b, rfl, hc, hb'⟩)) hd
  · have hs : ∀ d ∈ s, isDelimiter d = false := fun d hd => by
      by_contra hdel
      exact h ⟨d, hd, by simpa using hdel⟩
    have hread := readWord_append [c] [] hs
    rw [List.append_nil] at hread
    rw [hread]
    exact .eof (Or.inr (Or.inr ⟨c, s, rfl, hc, hs⟩))

/-- **What a call reads.** -/
theorem reads_parseToken : ∀ input : Str, Reads input (parseToken input).1 (parseToken input).2
  | [] => .eof (Or.inl rfl)
  | c :: input => by
    have hsymbol : ∀ {w : Str}, IsSymbol w → Reads (w ++ input) (typed w) input := fun hw => .symbol hw
    have hblank := reads_parseToken input
    unfold parseToken at hblank ⊢
    rw [parseTokenFrom]
    split_ifs with h1 h2 h3 h4 h5 h6 h7
    · subst h1
      exact hsymbol (Or.inr (Or.inl rfl))
    · subst h2
      exact hsymbol (Or.inr (Or.inr rfl))
    · subst h3
      exact reads_comment input
    · subst h4
      exact reads_double input
    · subst h5
      exact reads_single input
    · subst h6
      exact hsymbol (Or.inl rfl)
    · exact .blank h7 hblank
    · exact reads_word (by simp [beginsWord, h1, h2, h3, h4, h5, h6, h7]) input

/-! ### What the tokens account for -/

/-- The characters of a text are white space, parts of comments, or, in order, the values of the tokens,
each of them once. -/
inductive Covered : List Str → Str → Prop
  | nil : Covered [] []
  | blank {vs : List Str} {c : Char} {s : Str} (hc : isBlank c = true) (h : Covered vs s) :
      Covered vs (c :: s)
  | comment {vs : List Str} {b s : Str} {c : Char} (hb : ∀ d ∈ b, d ≠ '\n' ∧ d ≠ '\r')
      (hc : c = '\n' ∨ c = '\r') (h : Covered vs s) : Covered vs ('#' :: (b ++ c :: s))
  | openComment {s : Str} (h : IsOpenComment s) : Covered [] s
  | token {vs : List Str} {v s : Str} (hv : IsSymbol v ∨ IsToken v) (h : Covered vs s) :
      Covered (v :: vs) (v ++ s)

/-- The tokens without the comments and the end of the text. -/
def content (tokens : List Token) : List Token := tokens.filter fun x => x.1 ≠ .comment ∧ x.1 ≠ .eof

/-- The lexer gets to the end of the text without an error. -/
def NoError (input : Str) : Prop := ∀ x ∈ tokenize input, x.1 ≠ .error

instance (input : Str) : Decidable (NoError input) :=
  inferInstanceAs (Decidable (∀ x ∈ tokenize input, x.1 ≠ .error))

/-- The tokens account for every character, and a line end behind the text adds none. -/
def LosesNothing (input : Str) : Prop :=
  Covered ((content (tokenize input)).map Prod.snd) input ∧
    content (tokenize (input ++ ['\n'])) = content (tokenize input)

/-- Complete tokens, white space and comments, and then `tail`. -/
inductive Ends (tail : Str) : Str → Prop
  | here : Ends tail tail
  | blank {c : Char} {s : Str} (hc : isBlank c = true) (h : Ends tail s) : Ends tail (c :: s)
  | comment {b s : Str} {c : Char} (hb : ∀ d ∈ b, d ≠ '\n' ∧ d ≠ '\r') (hc : c = '\n' ∨ c = '\r')
      (h : Ends tail s) : Ends tail ('#' :: (b ++ c :: s))
  | symbol {w s : Str} (hw : IsSymbol w) (h : Ends tail s) : Ends tail (w ++ s)
  | token {w s : Str} {d : Char} (hw : IsToken w) (hd : isDelimiter d = true)
      (h : Ends tail (d :: s)) : Ends tail (w ++ d :: s)

/-- The text ends in a word. -/
def EndsInWord (input : Str) : Prop := ∃ w, IsWord w ∧ Ends w input

/-! ### The first character -/

/-- A token begins with neither white space nor `#`. -/
theorem head_of_value {v : Str} (hv : IsSymbol v ∨ IsToken v) :
    ∃ c s, v = c :: s ∧ isBlank c = false ∧ c ≠ '#' := by
  rcases hv with (rfl | rfl | rfl) | ⟨s, rfl, -⟩ | ⟨s, rfl, -⟩ | ⟨c, s, rfl, hc, -⟩
  · exact ⟨_, _, rfl, by decide, by decide⟩
  · exact ⟨_, _, rfl, by decide, by decide⟩
  · exact ⟨_, _, rfl, by decide, by decide⟩
  · exact ⟨_, _, rfl, by decide, by decide⟩
  · exact ⟨_, _, rfl, by decide, by decide⟩
  · simp only [beginsWord, Bool.not_eq_true', Bool.or_eq_false_iff, decide_eq_false_iff_not] at hc
    exact ⟨c, s, rfl, hc.1.1.1.1.1.1, hc.1.1.1.2⟩

/-- A text up to a line end, and the rest, are determined. -/
theorem cut_at_lineEnd : ∀ {b b' s s' : Str} {c c' : Char}, (∀ d ∈ b, d ≠ '\n' ∧ d ≠ '\r') →
    (∀ d ∈ b', d ≠ '\n' ∧ d ≠ '\r') → (c = '\n' ∨ c = '\r') → (c' = '\n' ∨ c' = '\r') →
    b ++ c :: s = b' ++ c' :: s' → s = s'
  | [], [], _, _, _, _, _, _, _, _, h => (List.cons.inj h).2
  | [], d :: b', _, _, c, _, _, hb', hc, _, h => by
    obtain rfl : c = d := (List.cons.inj h).1
    have hne := hb' c (by simp)
    exact (hc.elim hne.1 hne.2).elim
  | d :: b, [], _, _, _, c', hb, _, _, hc', h => by
    obtain rfl : d = c' := (List.cons.inj h).1
    have hne := hb d (by simp)
    exact (hc'.elim hne.1 hne.2).elim
  | d :: b, d' :: b', _, _, _, _, hb, hb', hc, hc', h =>
    cut_at_lineEnd (fun e he => hb e (by simp [he])) (fun e he => hb' e (by simp [he])) hc hc'
      (List.cons.inj h).2

section Covered
variable {vs : List Str} {s : Str}

theorem covered_blank_iff {c : Char} (hc : isBlank c = true) : Covered vs (c :: s) ↔ Covered vs s := by
  refine ⟨fun h => ?_, .blank hc⟩
  generalize hs : c :: s = input at h
  induction h with
  | nil => simp at hs
  | blank _ h =>
    obtain ⟨-, rfl⟩ := List.cons.inj hs
    exact h
  | comment =>
    obtain ⟨rfl, -⟩ := List.cons.inj hs
    exact absurd hc (by decide)
  | openComment h =>
    obtain ⟨b, rfl, -⟩ := h
    obtain ⟨rfl, -⟩ := List.cons.inj hs
    exact absurd hc (by decide)
  | token hv _ =>
    obtain ⟨d, v, rfl, hd, -⟩ := head_of_value hv
    obtain ⟨rfl, -⟩ := List.cons.inj hs
    rw [hd] at hc
    exact absurd hc (by simp)

theorem covered_comment_iff {b : Str} {c : Char} (hb : ∀ d ∈ b, d ≠ '\n' ∧ d ≠ '\r')
    (hc : c = '\n' ∨ c = '\r') : Covered vs ('#' :: (b ++ c :: s)) ↔ Covered vs s := by
  refine ⟨fun h => ?_, .comment hb hc⟩
  generalize hs : '#' :: (b ++ c :: s) = input at h
  induction h with
  | nil => simp at hs
  | blank hc' _ =>
    obtain ⟨rfl, -⟩ := List.cons.inj hs
    exact absurd hc' (by decide)
  | comment hb' hc' h =>
    obtain rfl := cut_at_lineEnd hb hb' hc hc' (List.cons.inj hs).2
    exact h
  | openComment h =>
    obtain ⟨b', rfl, hb'⟩ := h
    have := hb' c (by simp [← (List.cons.inj hs).2])
    tauto
  | token hv _ =>
    obtain ⟨d, v, rfl, -, hd⟩ := head_of_value hv
    exact absurd (List.cons.inj hs).1.symm hd

theorem covered_token_iff {v : Str} (hv : IsSymbol v ∨ IsToken v) :
    Covered (v :: vs) (v ++ s) ↔ Covered vs s := by
  refine ⟨fun h => ?_, .token hv⟩
  obtain ⟨c, v', hcv, hblank, hhash⟩ := head_of_value hv
  generalize hs : v ++ s = input at h
  generalize hvs : v :: vs = values at h
  induction h with
  | nil => simp at hvs
  | blank hc _ =>
    rw [hcv] at hs
    obtain ⟨rfl, -⟩ := List.cons.inj hs
    rw [hblank] at hc
    exact absurd hc (by simp)
  | comment =>
    rw [hcv] at hs
    exact absurd (List.cons.inj hs).1 hhash
  | openComment => simp at hvs
  | token _ h =>
    obtain ⟨rfl, rfl⟩ := List.cons.inj hvs
    obtain rfl := List.append_cancel_left hs
    exact h

/-- No tokens account for a word. -/
theorem not_covered_word (hw : IsWord s) : ¬ Covered [] s := by
  obtain ⟨c, t, hct, hblank, hhash⟩ := head_of_value (Or.inr (Or.inr (Or.inr hw)))
  intro h
  generalize hvs : ([] : List Str) = values at h
  induction h with
  | nil => simp at hct
  | blank hc _ =>
    obtain ⟨rfl, -⟩ := List.cons.inj hct
    rw [hblank] at hc
    exact absurd hc (by simp)
  | comment => exact hhash (List.cons.inj hct).1.symm
  | openComment h =>
    obtain ⟨b, rfl, -⟩ := h
    exact hhash (List.cons.inj hct).1.symm
  | token => simp at hvs

end Covered

/-! ### The tokens of a text -/

theorem content_comment {x : Token} (h : x.1 = .comment) (ts : List Token) :
    content (x :: ts) = content ts := by simp [content, h]

theorem content_cons {x : Token} (h : x.1 ≠ .comment ∧ x.1 ≠ .eof) (ts : List Token) :
    content (x :: ts) = x :: content ts := by simp [content, h]

theorem tokenize_comment {b : Str} {c : Char} (hb : ∀ d ∈ b, d ≠ '\n' ∧ d ≠ '\r')
    (hc : c = '\n' ∨ c = '\r') (rest : Str) :
    tokenize ('#' :: (b ++ c :: rest)) = (.comment, '#' :: b) :: tokenize rest := by
  have hread : parseToken ('#' :: (b ++ c :: rest)) = ((.comment, '#' :: b), rest) := by
    unfold parseToken
    rw [parseTokenFrom]
    exact readComment hc rest ['#'] hb
  rw [tokenize_eq, hread]
  rfl

/-- **Complete tokens are read as they are**, whatever follows the text. -/
theorem content_ends {tail input : Str} (h : Ends tail input) : ∃ xs : List Token,
    (∀ more, content (tokenize (input ++ more)) = xs ++ content (tokenize (tail ++ more))) ∧
    ∀ vs, Covered (xs.map Prod.snd ++ vs) input ↔ Covered vs tail := by
  induction h with
  | here => exact ⟨[], fun _ => rfl, fun _ => Iff.rfl⟩
  | @blank c s hc _ ih =>
    obtain ⟨xs, h1, h2⟩ := ih
    refine ⟨xs, fun more => ?_, fun vs => (covered_blank_iff hc).trans (h2 vs)⟩
    have hskip : tokenize (c :: s ++ more) = tokenize (s ++ more) :=
      tokenize_blank (b := [c]) (by simpa using hc) (s ++ more)
    rw [hskip, h1]
  | @comment b s c hb hc _ ih =>
    obtain ⟨xs, h1, h2⟩ := ih
    refine ⟨xs, fun more => ?_, fun vs => (covered_comment_iff hb hc).trans (h2 vs)⟩
    have htext : '#' :: (b ++ c :: s) ++ more = '#' :: (b ++ c :: (s ++ more)) := by simp
    rw [htext, tokenize_comment hb hc, content_comment rfl, h1]
  | @symbol w s hw _ ih =>
    obtain ⟨xs, h1, h2⟩ := ih
    refine ⟨typed w :: xs, fun more => ?_, fun vs => (covered_token_iff (Or.inl hw)).trans (h2 vs)⟩
    have htype : (typed w).1 ≠ .comment ∧ (typed w).1 ≠ .eof := by
      rcases hw with rfl | rfl | rfl <;> decide
    rw [List.append_assoc, tokenize_symbol hw, content_cons htype, h1]
    rfl
  | @token w s d hw hd _ ih =>
    obtain ⟨xs, h1, h2⟩ := ih
    refine ⟨(.normal, w) :: xs, fun more => ?_,
      fun vs => (covered_token_iff (Or.inr hw)).trans (h2 vs)⟩
    have htext : w ++ d :: s ++ more = w ++ d :: (s ++ more) := by simp
    have hrest : tokenize (d :: (s ++ more)) = tokenize (d :: s ++ more) := rfl
    rw [htext, RoundTrip.tokenize_token hw hd, content_cons ⟨by simp, by simp⟩, hrest, h1]
    rfl

/-- A call that gives a token has read it with its gap. -/
theorem Reads.ends {input rest tail : Str} {x : Token} (h : Reads input x rest)
    (hl : x.1.isLast = false) (he : Ends tail rest) : Ends tail input := by
  induction h with
  | blank hc _ ih => exact .blank hc (ih hl he)
  | comment hb hc => exact .comment hb hc he
  | symbol hw => exact .symbol hw he
  | token hw hd => exact .token hw hd he
  | eof => exact absurd hl (by simp [TokenType.isLast])
  | error => exact absurd hl (by simp [TokenType.isLast])

/-- A call that gives `eof` has read all that is left. -/
theorem Reads.tail {input rest : Str} {x : Token} (h : Reads input x rest) (hx : x.1 = .eof) :
    ∃ tail, IsTail tail ∧ Ends tail input := by
  induction h with
  | blank hc _ ih =>
    obtain ⟨tail, ht, he⟩ := ih hx
    exact ⟨tail, ht, .blank hc he⟩
  | comment => simp at hx
  | symbol hw => rcases hw with rfl | rfl | rfl <;> simp [typed, typeOf] at hx
  | token => simp at hx
  | @eof tail _ ht => exact ⟨tail, ht, .here⟩
  | error => simp at hx

/-- **A text without an error** is made of complete tokens, white space and comments, up to a tail. -/
theorem exists_tail (input : Str) : NoError input → ∃ tail, IsTail tail ∧ Ends tail input := by
  unfold NoError
  induction input using tokenize_induction with
  | last input h =>
    intro hno
    rw [tokenize_eq, if_pos h] at hno
    have herror := hno _ (List.mem_singleton_self _)
    have heof : (parseToken input).1.1 = .eof := by
      simp only [TokenType.isLast, Bool.or_eq_true, decide_eq_true_eq] at h
      exact h.resolve_right herror
    exact (reads_parseToken input).tail heof
  | next input h ih =>
    intro hno
    rw [tokenize_eq, if_neg (by simp [h])] at hno
    obtain ⟨tail, ht, he⟩ := ih fun x hx => hno x (List.mem_cons_of_mem _ hx)
    exact ⟨tail, ht, (reads_parseToken input).ends h he⟩

/-- A word at the end of the text gives no token. -/
theorem content_word {w : Str} (hw : IsWord w) : content (tokenize w) = [] := by
  obtain ⟨c, s, rfl, hc, hs⟩ := hw
  have hread : parseToken (c :: s) = ((.eof, c :: s), []) := by
    have hmore := readWord_append [c] [] hs
    rw [List.append_nil] at hmore
    simp only [beginsWord, Bool.not_eq_true', Bool.or_eq_false_iff, decide_eq_false_iff_not] at hc
    obtain ⟨⟨⟨⟨⟨⟨hb, h1⟩, h2⟩, h3⟩, h4⟩, h5⟩, h6⟩ := hc
    rw [parseToken, parseTokenFrom]
    simp only [h1, h2, h3, h4, h5, h6, hb, Bool.false_eq_true, if_false, List.nil_append]
    exact hmore
  rw [tokenize_eq, hread]
  rfl

/-- A comment at the end of the text gives none, with or without a line end. -/
theorem content_openComment {s : Str} (h : IsOpenComment s) :
    content (tokenize s) = [] ∧ content (tokenize (s ++ ['\n'])) = [] := by
  obtain ⟨b, rfl, hb⟩ := h
  constructor
  · have hread : parseToken ('#' :: b) = ((.eof, '#' :: b), []) := by
      unfold parseToken
      rw [parseTokenFrom]
      exact readComment_open ['#'] hb
    rw [tokenize_eq, hread]
    rfl
  · rw [List.cons_append, tokenize_comment hb (Or.inl rfl)]
    rfl

/-- **Nothing is left out** of a text without an error, unless it ends in a word. -/
theorem lossless_iff {input : Str} (h : NoError input) : LosesNothing input ↔ ¬ EndsInWord input := by
  constructor
  · rintro ⟨hcov, -⟩ ⟨w, hw, he⟩
    obtain ⟨xs, h1, h2⟩ := content_ends he
    have hcontent := h1 []
    rw [List.append_nil, List.append_nil, content_word hw] at hcontent
    rw [hcontent, List.map_append, List.map_nil] at hcov
    exact not_covered_word hw ((h2 []).mp hcov)
  · intro hword
    obtain ⟨tail, ht, he⟩ := exists_tail input h
    obtain ⟨xs, h1, h2⟩ := content_ends he
    have hcontent := h1 []
    rw [List.append_nil, List.append_nil] at hcontent
    have htail : Covered [] tail ∧ content (tokenize tail) = [] ∧
        content (tokenize (tail ++ ['\n'])) = [] := by
      rcases ht with rfl | hopen | hw
      · exact ⟨.nil, rfl, rfl⟩
      · exact ⟨.openComment hopen, content_openComment hopen⟩
      · exact absurd ⟨tail, hw, he⟩ hword
    obtain ⟨hcov, hnone, hline⟩ := htail
    constructor
    · rw [hcontent, hnone, List.map_append, List.map_nil]
      exact (h2 []).mpr hcov
    · rw [h1, hcontent, hnone, hline]

/-- A text ends in a word exactly if a line end behind it adds a token. -/
theorem endsInWord_iff {input : Str} (h : NoError input) :
    EndsInWord input ↔ content (tokenize (input ++ ['\n'])) ≠ content (tokenize input) := by
  constructor
  · rintro ⟨w, hw, he⟩
    obtain ⟨xs, h1, -⟩ := content_ends he
    have hcontent := h1 []
    rw [List.append_nil, List.append_nil, content_word hw] at hcontent
    have hline : content (tokenize (w ++ ['\n'])) = [(.normal, w)] := by
      rw [RoundTrip.tokenize_token (Or.inr (Or.inr hw)) rfl]
      rfl
    rw [h1, hcontent, hline]
    simp
  · intro hne
    by_contra hword
    exact hne ((lossless_iff h).mpr hword).2

/-- A comment at the end of the text, without a line end. -/
theorem lossless_comment : LosesNothing "listen 80; # no line end".toList := by
  have hno : NoError "listen 80; # no line end".toList := by decide +kernel
  refine (lossless_iff hno).mpr ?_
  rw [endsInWord_iff hno]
  decide +kernel

/-- **A word at the end of the text is dropped**, and no error is given. -/
theorem word_dropped : NoError "a; b".toList ∧ ¬ LosesNothing "a; b".toList := by
  refine ⟨by decide +kernel, fun h => ?_⟩
  exact absurd h.2 (by decide +kernel)

end Kachow.Config.Lossless
