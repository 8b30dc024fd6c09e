import Kachow.Config.Parser

/-! # What the parser accepts

The grammar of a configuration, over the types of the tokens (`IsConfig`):

    config    := statement+
    statement := NORMAL+ ( ';' | '{' config '}' )

The parser looks at the type of the last token alone, and at the stack only to use it. So it goes by
the neighbours (`Legal`) and leaves out the braces: `a { b;` is accepted, and after `a; }` the stack is
empty. The parser decides the grammar exactly on the texts whose braces match as far as their tokens
may follow each other (`parse_exact_iff`). -/

namespace Kachow.Config.Grammar

open Kachow.Lib.Text Kachow.Config.Lexer Kachow.Config.Parser

/-! ### The grammar -/

mutual

/-- `config := statement+`. -/
inductive IsConfig : List TokenType → Prop
  | one {s : List TokenType} (hs : IsStatement s) : IsConfig s
  | cons {s c : List TokenType} (hs : IsStatement s) (hc : IsConfig c) : IsConfig (s ++ c)

/-- `statement := NORMAL+ ( ';' | '{' config '}' )`. -/
inductive IsStatement : List TokenType → Prop
  | simple (m : ℕ) : IsStatement (List.replicate (m + 1) .normal ++ [.statementEnd])
  | block (m : ℕ) {c : List TokenType} (hc : IsConfig c) :
      IsStatement (List.replicate (m + 1) .normal ++ (.startBlock :: (c ++ [.endBlock])))

end

/-- The types of the tokens of a text, without the comments. -/
def types (tokens : List Token) : List TokenType := (tokens.map Prod.fst).filter (· ≠ .comment)

/-- A configuration and the end of the text. -/
def Derivable (ts : List TokenType) : Prop := ∃ c, ts = c ++ [.eof] ∧ IsConfig c

/-- The parser returns, and `true` exactly on what the grammar derives. -/
def Exact (input : Str) (config : NginxConfig) : Prop :=
  ∃ b c, parse input config = .returned b c ∧ (b = true ↔ Derivable (types (tokenize input)))

/-! ### The condition -/

/-- Each token may follow the one before it. -/
def Legal : TokenType → List TokenType → Prop
  | _, [] => True
  | last, t :: ts => follows last t = true ∧ Legal t ts

theorem Legal.of_append : ∀ {ts us : List TokenType} {last : TokenType}, Legal last (ts ++ us) →
    Legal last ts
  | [], _, _, _ => trivial
  | _ :: _, _, _, h => ⟨h.1, Legal.of_append h.2⟩

/-- As far as each token may follow the one before it, no more braces are closed than opened; and if
this is so up to the end, as many. -/
def BracesMatch (ts : List TokenType) : Prop :=
  (∀ π t, π ++ [t] <+: ts → Legal .start (π ++ [t]) →
    π.count .endBlock ≤ π.count .startBlock) ∧
  (Legal .start ts → ts.count .endBlock = ts.count .startBlock)

/-- The same, along the list, with the height of the stack. -/
def Matched : TokenType → ℕ → List TokenType → Prop
  | _, h, [] => h = 1
  | last, h, t :: ts => follows last t = true → h ≠ 0 ∧ Matched t (height h t) ts

instance decidableMatched : ∀ last h ts, Decidable (Matched last h ts)
  | _, h, [] => inferInstanceAs (Decidable (h = 1))
  | last, h, t :: ts =>
    have := decidableMatched t (height h t) ts
    inferInstanceAs (Decidable (follows last t = true → h ≠ 0 ∧ Matched t (height h t) ts))

/-- Legal, and the braces match. -/
def Accepts : TokenType → ℕ → List TokenType → Prop
  | _, h, [] => h = 1
  | last, h, t :: ts => follows last t = true ∧ h ≠ 0 ∧ Accepts t (height h t) ts

theorem accepts_iff : ∀ {last : TokenType} {h : ℕ} {ts : List TokenType},
    Accepts last h ts ↔ Legal last ts ∧ Matched last h ts
  | _, _, [] => by simp [Accepts, Legal, Matched]
  | last, h, t :: ts => by
    simp only [Accepts, Legal, Matched, @accepts_iff t]
    tauto

/-- What a token does to the height, by counting the braces. -/
theorem count_height {h : ℕ} (h0 : h ≠ 0) (t : TokenType) (ts : List TokenType) :
    ∃ d e : ℕ, (t :: ts).count .endBlock = ts.count .endBlock + d ∧
      (t :: ts).count .startBlock = ts.count .startBlock + e ∧ height h t + d = h + e := by
  cases t with
  | startBlock => exact ⟨0, 1, by simp, by simp, rfl⟩
  | endBlock => exact ⟨1, 0, by simp, by simp, by simp only [height]; omega⟩
  | start => exact ⟨0, 0, by simp, by simp, rfl⟩
  | normal => exact ⟨0, 0, by simp, by simp, rfl⟩
  | comment => exact ⟨0, 0, by simp, by simp, rfl⟩
  | statementEnd => exact ⟨0, 0, by simp, by simp, rfl⟩
  | eof => exact ⟨0, 0, by simp, by simp, rfl⟩
  | error => exact ⟨0, 0, by simp, by simp, rfl⟩

/-- Matching along the list is matching by counting. -/
theorem matched_iff : ∀ {ts : List TokenType} {last : TokenType} {h : ℕ}, Matched last h ts ↔
    (∀ π t, π ++ [t] <+: ts → Legal last (π ++ [t]) → π.count .endBlock < h + π.count .startBlock) ∧
    (Legal last ts → ts.count .endBlock + 1 = h + ts.count .startBlock)
  | [], last, h => by
    constructor
    · intro hm
      refine ⟨fun π t hp => absurd (List.prefix_nil.mp hp) (by simp), fun _ => ?_⟩
      simp only [Matched] at hm
      simp [hm]
    · intro hm
      have := hm.2 trivial
      simp only [List.count_nil] at this
      simp only [Matched]
      omega
  | t :: ts, last, h => by
    constructor
    · intro hm
      refine ⟨fun π t' hp hl => ?_, fun hl => ?_⟩
      · cases π with
        | nil =>
          obtain rfl : t' = t := by simpa using hp
          have := (hm hl.1).1
          simp only [List.count_nil]
          omega
        | cons p π =>
          rw [List.cons_append, List.cons_prefix_cons] at hp
          obtain ⟨rfl, hp⟩ := hp
          obtain ⟨h0, hm'⟩ := hm hl.1
          obtain ⟨d, e, h1, h2, h3⟩ := count_height h0 p π
          have := (matched_iff.mp hm').1 π t' hp hl.2
          omega
      · obtain ⟨h0, hm'⟩ := hm hl.1
        obtain ⟨d, e, h1, h2, h3⟩ := count_height h0 t ts
        have := (matched_iff.mp hm').2 hl.2
        omega
    · rintro ⟨hpre, hend⟩ hf
      have h0 : h ≠ 0 := by
        have := hpre [] t (by simp) ⟨hf, trivial⟩
        simp only [List.count_nil] at this
        omega
      refine ⟨h0, matched_iff.mpr ⟨fun π t' hp hl => ?_, fun hl => ?_⟩⟩
      · obtain ⟨d, e, h1, h2, h3⟩ := count_height h0 t π
        have := hpre (t :: π) t' (by simpa using hp) ⟨hf, hl⟩
        omega
      · obtain ⟨d, e, h1, h2, h3⟩ := count_height h0 t ts
        have := hend ⟨hf, hl⟩
        omega

theorem bracesMatch_iff {ts : List TokenType} : BracesMatch ts ↔ Matched .start 1 ts := by
  rw [matched_iff]
  unfold BracesMatch
  constructor
  · rintro ⟨h1, h2⟩
    exact ⟨fun π t hp hl => by have := h1 π t hp hl; omega, fun hl => by have := h2 hl; omega⟩
  · rintro ⟨h1, h2⟩
    exact ⟨fun π t hp hl => by have := h1 π t hp hl; omega, fun hl => by have := h2 hl; omega⟩

/-! ### The grammar is what is legal and matches -/

theorem accepts_words {r : List TokenType} {h : ℕ} (h0 : h ≠ 0) :
    ∀ (m : ℕ) {last : TokenType}, follows last .normal = true → Accepts .normal h r →
      Accepts last h (List.replicate (m + 1) .normal ++ r)
  | 0, _, hf, hr => ⟨hf, h0, hr⟩
  | m + 1, _, hf, hr => ⟨hf, h0, accepts_words h0 m rfl hr⟩

theorem follows_of_begins {last : TokenType} (h : beginsStatement last = true) :
    follows last .normal = true := by simp [follows, h]

mutual

/-- A configuration can be read where a statement can begin, and where it ends a block may end. -/
theorem accepts_config : ∀ {c : List TokenType}, IsConfig c → ∀ {last : TokenType} {h : ℕ},
    beginsStatement last = true → h ≠ 0 → ∃ e, endsStatement e = true ∧
      ∀ r, Accepts e h r → Accepts last h (c ++ r)
  | _, .one hs, _, _, hb, h0 => accepts_statement hs hb h0
  | _, .cons hs hc, _, _, hb, h0 => by
    obtain ⟨e, he, h1⟩ := accepts_statement hs hb h0
    obtain ⟨e', he', h2⟩ := accepts_config hc (begins_of_ends he) h0
    exact ⟨e', he', fun r hr => by rw [List.append_assoc]; exact h1 _ (h2 r hr)⟩

theorem accepts_statement : ∀ {s : List TokenType}, IsStatement s → ∀ {last : TokenType} {h : ℕ},
    beginsStatement last = true → h ≠ 0 → ∃ e, endsStatement e = true ∧
      ∀ r, Accepts e h r → Accepts last h (s ++ r)
  | _, .simple m, last, h, hb, h0 => by
    refine ⟨.statementEnd, rfl, fun r hr => ?_⟩
    rw [List.append_assoc]
    exact accepts_words h0 m (follows_of_begins hb) ⟨rfl, h0, hr⟩
  | _, .block m hc, last, h, hb, h0 => by
    obtain ⟨e, he, h1⟩ := @accepts_config _ hc .startBlock (h + 1) rfl (by omega)
    refine ⟨.endBlock, rfl, fun r hr => ?_⟩
    rw [List.append_assoc, List.cons_append, List.append_assoc]
    exact accepts_words h0 m (follows_of_begins hb) ⟨rfl, h0, h1 _ ⟨he, by omega, hr⟩⟩

end

/-- How the rest of a block completes what has been read of it. -/
def Completes : TokenType → List TokenType → Prop
  | .start, b | .startBlock, b => IsConfig b
  | .statementEnd, b | .endBlock, b => b = [] ∨ IsConfig b
  | .normal, b => ∃ s c, b = s ++ c ∧ (∀ m, IsStatement (List.replicate (m + 1) .normal ++ s)) ∧
      (c = [] ∨ IsConfig c)
  | _, _ => False

theorem completes_of_config {last : TokenType} {b : List TokenType}
    (h : beginsStatement last = true) (hb : IsConfig b) : Completes last b := by
  cases last <;> first | exact hb | exact Or.inr hb | simp [beginsStatement] at h

theorem completes_nil {last : TokenType} (h : endsStatement last = true) : Completes last [] := by
  cases last <;> first | exact Or.inl rfl | simp [endsStatement] at h

theorem config_of_statement {s c : List TokenType} (hs : IsStatement s) (hc : c = [] ∨ IsConfig c) :
    IsConfig (s ++ c) := by
  rcases hc with rfl | hc
  · rw [List.append_nil]; exact .one hs
  · exact .cons hs hc

theorem completes_normal {last : TokenType} {b : List TokenType}
    (h : follows last .normal = true) (hb : Completes .normal b) : Completes last (.normal :: b) := by
  obtain ⟨s, c, rfl, hs, hc⟩ := hb
  by_cases hl : last = .normal
  · subst hl
    refine ⟨.normal :: s, c, rfl, fun m => ?_, hc⟩
    have := hs (m + 1)
    rwa [List.replicate_succ', List.append_assoc, List.singleton_append] at this
  · have hbeg : beginsStatement last = true := by simpa [follows, hl] using h
    exact completes_of_config hbeg (config_of_statement (s := .normal :: s) (hs 0) hc)

/-- **What is read with blocks open** is the rest of the innermost block, and if there is a block around
it, a closing brace and what is read after it. -/
theorem split_accepts : ∀ (n : ℕ) {ts : List TokenType} {last : TokenType} {h : ℕ}, ts.length ≤ n →
    .eof ∉ ts → Accepts last (h + 1) (ts ++ [TokenType.eof]) → ∃ b, Completes last b ∧
      (h = 0 ∧ ts = b ∨ ∃ h' r, h = h' + 1 ∧ ts = b ++ TokenType.endBlock :: r ∧
        Accepts .endBlock (h' + 1) (r ++ [TokenType.eof]))
  | _, [], last, h, _, _, ha => by
    obtain ⟨hf, -, h1⟩ := ha
    simp only [Accepts, height] at h1
    exact ⟨[], completes_nil hf, Or.inl ⟨by omega, rfl⟩⟩
  | 0, t :: ts, _, _, hn, _, _ => by simp at hn
  | n + 1, t :: ts, last, h, hn, heof, ha => by
    obtain ⟨hf, -, ha⟩ := ha
    have hn' : ts.length ≤ n := by simpa using hn
    have heof' : .eof ∉ ts := fun hm => heof (by simp [hm])
    cases t with
    | normal =>
      obtain ⟨b, hb, hrest⟩ := split_accepts n hn' heof' ha
      refine ⟨.normal :: b, completes_normal hf hb, ?_⟩
      rcases hrest with ⟨h0, rfl⟩ | ⟨h', r, h0, rfl, hr⟩
      · exact Or.inl ⟨h0, rfl⟩
      · exact Or.inr ⟨h', r, h0, rfl, hr⟩
    | statementEnd =>
      obtain rfl : last = .normal := by simpa [follows] using hf
      obtain ⟨b, hb, hrest⟩ := split_accepts n hn' heof' ha
      refine ⟨.statementEnd :: b, ⟨[.statementEnd], b, rfl, .simple, hb⟩, ?_⟩
      rcases hrest with ⟨h0, rfl⟩ | ⟨h', r, h0, rfl, hr⟩
      · exact Or.inl ⟨h0, rfl⟩
      · exact Or.inr ⟨h', r, h0, rfl, hr⟩
    | startBlock =>
      obtain rfl : last = .normal := by simpa [follows] using hf
      obtain ⟨b, hb, hrest⟩ := split_accepts n (h := h + 1) hn' heof' ha
      obtain ⟨h0, -⟩ | ⟨h', r, h0, rfl, hr⟩ := hrest
      · omega
      -- the block is closed, and what follows completes the one around it
      obtain rfl : h' = h := by omega
      have hlen : r.length ≤ n := by
        simp only [List.length_append, List.length_cons] at hn'
        omega
      obtain ⟨b', hb', hrest'⟩ := split_accepts n hlen (fun hm => heof' (by simp [hm])) hr
      refine ⟨.startBlock :: (b ++ [.endBlock]) ++ b', ⟨_, b', rfl, fun m => .block m hb, hb'⟩, ?_⟩
      rcases hrest' with ⟨h0, rfl⟩ | ⟨h'', r', h0, rfl, hr'⟩
      · exact Or.inl ⟨h0, by simp⟩
      · exact Or.inr ⟨h'', r', h0, by simp, hr'⟩
    | endBlock =>
      simp only [height, Nat.add_sub_cancel] at ha
      have h0 : h ≠ 0 := by
        cases ts <;> exact ha.2.1
      obtain ⟨h', rfl⟩ := Nat.exists_eq_succ_of_ne_zero h0
      exact ⟨[], completes_nil hf, Or.inr ⟨h', ts, rfl, rfl, ha⟩⟩
    | eof => simp at heof
    | start => simp [follows] at hf
    | comment => simp [follows] at hf
    | error => simp [follows] at hf

theorem follows_eof (t : TokenType) : follows .eof t = false := by cases t <;> rfl

/-- Nothing follows the end of the text. -/
theorem eof_notMem : ∀ {c : List TokenType} {last : TokenType} {h : ℕ},
    Accepts last h (c ++ [.eof]) → .eof ∉ c
  | [], _, _, _ => by simp
  | t :: c, last, h, ha => by
    have hc : TokenType.eof ∉ c := eof_notMem ha.2.2
    rw [List.mem_cons, not_or]
    refine ⟨?_, hc⟩
    rintro rfl
    cases c <;> exact absurd ha.2.2.1 (by simp [follows_eof])

/-- **The grammar** derives what is legal, has matching braces, and ends with the text. -/
theorem derivable_iff {ts : List TokenType} :
    Derivable ts ↔ (∃ c, ts = c ++ [.eof]) ∧ Accepts .start 1 ts := by
  constructor
  · rintro ⟨c, rfl, hc⟩
    obtain ⟨e, he, h1⟩ := @accepts_config _ hc .start 1 rfl (by omega)
    exact ⟨⟨c, rfl⟩, h1 _ ⟨he, by omega, rfl⟩⟩
  · rintro ⟨⟨c, rfl⟩, ha⟩
    obtain ⟨b, hb, hrest⟩ := split_accepts c.length (h := 0) le_rfl (eof_notMem ha) ha
    obtain ⟨-, rfl⟩ | ⟨h', r, h0, -, -⟩ := hrest
    · exact ⟨_, rfl, hb⟩
    · omega

/-! ### The parser on the types of the tokens -/

/-- A list of tokens that ends with the first `eof` or `error`. -/
inductive Stream : List Token → Prop
  | last {x : Token} (h : x.1.isLast = true) : Stream [x]
  | next {x : Token} {ts : List Token} (h : x.1.isLast = false) (hs : Stream ts) : Stream (x :: ts)

theorem stream_tokenize (input : Str) : Stream (tokenize input) := by
  induction input using tokenize_induction with
  | last input h => rw [tokenize_eq, if_pos h]; exact .last h
  | next input h ih => rw [tokenize_eq, if_neg (by simp [h])]; exact .next h ih

theorem eof_or_error {t : TokenType} {value : Str} (h : TokenType.isLast (t, value).1 = true) :
    t = .eof ∨ t = .error := by
  simpa [TokenType.isLast] using h

theorem types_comment {x : Token} (h : x.1 = .comment) (ts : List Token) :
    types (x :: ts) = types ts := by simp [types, h]

theorem types_cons {x : Token} (h : x.1 ≠ .comment) (ts : List Token) :
    types (x :: ts) = x.1 :: types ts := by simp [types, h]

/-- **Where the braces match** the parser returns, and `true` if every token may follow. -/
theorem run_of_matched {tokens : List Token} (hs : Stream tokens) : ∀ {st : ParserState}, Ready st →
    Matched st.lastTokenType st.stack (types tokens) → ∃ b c, run st tokens = .returned b c ∧
      (b = true ↔ Legal st.lastTokenType (types tokens)) := by
  induction hs with
  | @last x hl =>
    intro st hst hm
    obtain ⟨t, value⟩ := x
    rcases eof_or_error hl with rfl | rfl
    · exact ⟨_, _, rfl, by simp [types, Legal, follows]⟩
    · exact ⟨_, _, rfl, by simp [types, Legal, follows]⟩
  | @next x ts hl hs ih =>
    intro st hst hm
    by_cases hc : x.1 = .comment
    · rw [types_comment hc] at hm ⊢
      rw [run_next (parseStep_comment hc)]
      exact ih hst hm
    · rw [types_cons hc] at hm ⊢
      cases hf : follows st.lastTokenType x.1 with
      | false =>
        rw [run_stop (parseStep_of_not_follows hc hf)]
        exact ⟨_, _, rfl, by simp [Legal, hf]⟩
      | true =>
        obtain ⟨h0, hm'⟩ := hm hf
        obtain ⟨st', hstep, h1, h2, hst'⟩ := parseStep_next hst h0 hf hl
        rw [run_next hstep]
        rw [← h2, ← h1] at hm'
        obtain ⟨b, c, hrun, hb⟩ := ih hst' hm'
        exact ⟨b, c, hrun, by simp [Legal, hf, hb, h1]⟩

/-- **Where they do not** the parser goes wrong: it uses an empty stack, or accepts. -/
theorem run_of_not_matched {tokens : List Token} (hs : Stream tokens) : ∀ {st : ParserState},
    Ready st → (st.stack = 0 → st.lastTokenType = .endBlock) →
    ¬ Matched st.lastTokenType st.stack (types tokens) →
      run st tokens = .fault .emptyStack ∨ ∃ c, run st tokens = .returned true c := by
  induction hs with
  | @last x hl =>
    intro st hst h0 hm
    obtain ⟨t, value⟩ := x
    rcases eof_or_error hl with rfl | rfl
    · right
      have hf : endsStatement st.lastTokenType = true := by
        by_contra hf
        exact hm fun h => absurd h hf
      exact ⟨_, run_stop (parseStep_eof value hf) []⟩
    · exact absurd (fun h => by simp [follows] at h) hm
  | @next x ts hl hs ih =>
    intro st hst h0 hm
    by_cases hc : x.1 = .comment
    · rw [types_comment hc] at hm
      rw [run_next (parseStep_comment hc)]
      exact ih hst h0 hm
    · rw [types_cons hc] at hm
      simp only [Matched] at hm
      rw [Classical.not_imp] at hm
      obtain ⟨hf, hm⟩ := hm
      by_cases hz : st.stack = 0
      · left
        obtain ⟨config, stack, last⟩ := st
        obtain rfl : stack = 0 := hz
        refine run_stop (parseStep_zero ?_ hf) ts
        obtain rfl : last = .endBlock := h0 rfl
        cases hx : x.1 <;> simp_all [follows, endsStatement, TokenType.isLast]
      · obtain ⟨st', hstep, h1, h2, hst'⟩ := parseStep_next hst hz hf hl
        rw [run_next hstep]
        refine ih hst' (fun h => ?_) fun hm' => hm ⟨hz, by rwa [h1, h2] at hm'⟩
        rw [h1]
        rw [h2] at h
        cases hx : x.1 <;> simp_all [height]

theorem types_ends {tokens : List Token} (hs : Stream tokens) :
    (∃ c, types tokens = c ++ [TokenType.eof]) ∨ ∃ c, types tokens = c ++ [TokenType.error] := by
  induction hs with
  | @last x hl =>
    obtain ⟨t, value⟩ := x
    rcases eof_or_error hl with rfl | rfl
    · exact Or.inl ⟨[], rfl⟩
    · exact Or.inr ⟨[], rfl⟩
  | @next x ts hl hs ih =>
    by_cases hc : x.1 = .comment
    · rw [types_comment hc]
      exact ih
    · rw [types_cons hc]
      rcases ih with ⟨c, h⟩ | ⟨c, h⟩
      · exact Or.inl ⟨x.1 :: c, by rw [h]; rfl⟩
      · exact Or.inr ⟨x.1 :: c, by rw [h]; rfl⟩

theorem not_legal_error : ∀ {c : List TokenType} {last : TokenType}, ¬ Legal last (c ++ [.error])
  | [], _, h => by simp [Legal, follows] at h
  | _ :: _, _, h => not_legal_error h.2

/-- **The parser is exact** on the texts whose braces match, and on no others. -/
theorem parse_exact_iff (input : Str) (config : NginxConfig) :
    Exact input config ↔ BracesMatch (types (tokenize input)) := by
  have hs := stream_tokenize input
  rw [bracesMatch_iff]
  unfold Exact
  rw [parse_eq, derivable_iff, accepts_iff]
  constructor
  · rintro ⟨b, c, hrun, hb⟩
    by_contra hm
    rcases run_of_not_matched hs (ready_init config) (fun h => absurd h (by simp [ParserState.init])) hm
      with h | ⟨c', h⟩
    · rw [hrun] at h
      exact absurd h (by simp)
    · rw [hrun, Outcome.returned.injEq] at h
      exact hm (hb.mp h.1).2.2
  · intro hm
    obtain ⟨b, c, hrun, hb⟩ := run_of_matched hs (ready_init config) hm
    refine ⟨b, c, hrun, hb.trans ⟨fun hl => ⟨?_, hl, hm⟩, fun h => h.2.1⟩⟩
    rcases types_ends hs with h | ⟨c', h⟩
    · exact h
    · rw [h] at hl
      exact absurd hl not_legal_error

/-- **The parser accepts a block that is not closed.** -/
theorem parse_not_exact : ¬ ∀ input, Exact input [] := by
  intro hall
  obtain ⟨b, c, hrun, hb⟩ := hall "a \x7b b;".toList
  have hacc : b = true := by
    have : ∃ c, parse "a \x7b b;".toList [] = .returned true c := ⟨_, rfl⟩
    obtain ⟨c', h⟩ := this
    rw [hrun, Outcome.returned.injEq] at h
    exact h.1
  have hm := (accepts_iff.mp (derivable_iff.mp (hb.mp hacc)).2).2
  exact absurd hm (by decide)

end Kachow.Config.Grammar
