import Kachow.Config.Grammar
import Kachow.Config.RoundTrip

/-! # The stack of open blocks

A closing brace takes a block off the stack, and the only guard on it is the type of the token before. So
`a; }` takes off the root, and the next word or closing brace uses an empty stack. The height of the stack
is one more than the opening braces less the closing ones (`height_braces`), so the stack is safe, that is,
no more blocks are closed than opened after any number of tokens, and an empty stack is not used, where
this is so of the braces, as far as each token may follow the one before it. The first brace too many
stands right behind statements that are complete: the stack is safe exactly on the texts that do not begin
with a configuration and a closing brace (`stackSafe_iff`). -/

namespace Kachow.Config.Stack

open Kachow.Lib.Text Kachow.Config.Lexer Kachow.Config.Parser Kachow.Config.Grammar
open Kachow.Config.RoundTrip

/-- The loop takes all these tokens, and goes on in the state given. -/
def through (st : ParserState) : List Token → Option ParserState
  | [] => some st
  | x :: xs =>
    match parseStep st x with
    | .next st' => through st' xs
    | .stop _ => none

/-- The opening braces among the tokens. -/
def opened (tokens : List Token) : ℕ := (types tokens).count .startBlock

/-- The closing braces. -/
def closed (tokens : List Token) : ℕ := (types tokens).count .endBlock

/-- **The stack is safe**: whatever tokens the loop has taken, no more blocks are closed than opened; and
an empty stack is never used. -/
structure StackSafe (input : Str) (config : NginxConfig) : Prop where
  closed_le : ∀ π st, π <+: tokenize input → through (.init config) π = some st → closed π ≤ opened π
  defined : parse input config ≠ .fault .emptyStack

/-- The text begins with a configuration and a closing brace behind it. -/
def ClosesRoot (ts : List TokenType) : Prop := ∃ c, IsConfig c ∧ c ++ [.endBlock] <+: ts

/-- As far as each token may follow the one before it, no more braces are closed than opened. -/
def ClosesOpened (ts : List TokenType) : Prop :=
  ∀ π, π <+: ts → Legal .start π → π.count .endBlock ≤ π.count .startBlock

/-- The same, along the list, with the height of the stack. -/
def Stays : TokenType → ℕ → List TokenType → Prop
  | _, _, [] => True
  | last, h, t :: ts => follows last t = true → height h t ≠ 0 ∧ Stays t (height h t) ts

/-! ### The height of the stack -/

theorem opened_cons (x : Token) (π : List Token) : opened (x :: π) = opened [x] + opened π := by
  have hsplit : types (x :: π) = types [x] ++ types π := by
    unfold types
    rw [← List.filter_append, ← List.map_append]
    rfl
  rw [opened, hsplit, List.count_append]
  rfl

theorem closed_cons (x : Token) (π : List Token) : closed (x :: π) = closed [x] + closed π := by
  have hsplit : types (x :: π) = types [x] ++ types π := by
    unfold types
    rw [← List.filter_append, ← List.map_append]
    rfl
  rw [closed, hsplit, List.count_append]
  rfl

/-- A token changes the height as it changes the numbers of braces. -/
theorem height_braces {x : Token} (hc : x.1 ≠ .comment) {h : ℕ} (h0 : h ≠ 0) :
    height h x.1 + closed [x] = h + opened [x] := by
  obtain ⟨d, e, h1, h2, h3⟩ := count_height h0 x.1 []
  have htypes : types [x] = [x.1] := by simp [types, hc]
  have hnone : ([] : List TokenType).count .endBlock = 0 ∧ ([] : List TokenType).count .startBlock = 0 :=
    ⟨rfl, rfl⟩
  rw [opened, closed, htypes]
  omega

theorem comment_braces {x : Token} (hc : x.1 = .comment) : opened [x] = 0 ∧ closed [x] = 0 := by
  simp [opened, closed, types, hc]

/-- **What the loop takes** it takes with a height that is right, if the braces stay. -/
theorem through_iff {tokens : List Token} (hs : Stream tokens) : ∀ {st : ParserState}, Ready st →
    st.stack ≠ 0 → ((∀ π st', π <+: tokens → through st π = some st' →
      closed π < st.stack + opened π) ↔ Stays st.lastTokenType st.stack (types tokens)) := by
  induction hs with
  | @last x hl =>
    intro st hst h0
    have hstays : Stays st.lastTokenType st.stack (types [x]) := by
      obtain ⟨t, value⟩ := x
      rcases eof_or_error hl with rfl | rfl
      · exact fun _ => ⟨h0, trivial⟩
      · exact fun hf => by simp [follows] at hf
    refine ⟨fun _ => hstays, fun _ π st' hp hthrough => ?_⟩
    obtain ⟨valid, hstop⟩ := @parseStep_of_isLast st x hl
    rcases List.prefix_cons_iff.mp hp with rfl | ⟨ρ, rfl, -⟩
    · have hnone : opened [] = 0 ∧ closed [] = 0 := ⟨rfl, rfl⟩
      omega
    · simp [through, hstop] at hthrough
  | @next x ts hl hs ih =>
    intro st hst h0
    by_cases hc : x.1 = .comment
    · have hstep := @parseStep_comment st _ hc
      have hnone := comment_braces hc
      rw [types_comment hc, ← ih hst h0]
      constructor
      · intro h π st' hp hthrough
        have hmore := h (x :: π) st' (by simpa using hp) (by rw [through, hstep]; exact hthrough)
        rw [closed_cons, opened_cons] at hmore
        omega
      · intro h π st' hp hthrough
        rcases List.prefix_cons_iff.mp hp with rfl | ⟨ρ, rfl, hρ⟩
        · exact h [] st (by simp) rfl
        · rw [through, hstep] at hthrough
          have hless := h ρ st' hρ hthrough
          rw [closed_cons, opened_cons]
          omega
    · have hbraces := height_braces hc h0
      rw [types_cons hc]
      constructor
      · intro h hf
        obtain ⟨st₁, hstep, h1, h2, hst₁⟩ := parseStep_next hst h0 hf hl
        have hone := h [x] st₁ (by simp) (by rw [through, hstep]; rfl)
        have h0' : st₁.stack ≠ 0 := by omega
        refine ⟨by omega, ?_⟩
        rw [← h2, ← h1]
        refine (ih hst₁ h0').mp fun π st' hp hthrough => ?_
        have hmore := h (x :: π) st' (by simpa using hp) (by rw [through, hstep]; exact hthrough)
        rw [closed_cons, opened_cons] at hmore
        omega
      · intro h π st' hp hthrough
        rcases List.prefix_cons_iff.mp hp with rfl | ⟨ρ, rfl, hρ⟩
        · have hnone : opened [] = 0 ∧ closed [] = 0 := ⟨rfl, rfl⟩
          omega
        · have hf : follows st.lastTokenType x.1 = true := by
            by_contra hf
            rw [through, parseStep_of_not_follows hc (by simpa using hf)] at hthrough
            simp at hthrough
          obtain ⟨st₁, hstep, h1, h2, hst₁⟩ := parseStep_next hst h0 hf hl
          obtain ⟨h0', hstays⟩ := h hf
          rw [← h2, ← h1] at hstays
          rw [through, hstep] at hthrough
          have hless := (ih hst₁ (by omega)).mpr hstays ρ st' hρ hthrough
          rw [closed_cons, opened_cons]
          omega

/-- **If the braces stay** the parser does not use an empty stack. -/
theorem run_of_stays {tokens : List Token} (hs : Stream tokens) : ∀ {st : ParserState}, Ready st →
    st.stack ≠ 0 → Stays st.lastTokenType st.stack (types tokens) →
      run st tokens ≠ .fault .emptyStack := by
  induction hs with
  | @last x hl =>
    intro st _ _ _
    obtain ⟨t, value⟩ := x
    rcases eof_or_error hl with rfl | rfl
    · simp [run, parseStep]
    · simp [run, parseStep]
  | @next x ts hl hs ih =>
    intro st hst h0 h
    by_cases hc : x.1 = .comment
    · rw [types_comment hc] at h
      rw [run_next (parseStep_comment hc)]
      exact ih hst h0 h
    · rw [types_cons hc] at h
      rcases hf : follows st.lastTokenType x.1 with - | -
      · rw [run_stop (parseStep_of_not_follows hc hf)]
        simp
      · obtain ⟨st', hstep, h1, h2, hst'⟩ := parseStep_next hst h0 hf hl
        obtain ⟨h0', hstays⟩ := h hf
        rw [← h2, ← h1] at hstays
        rw [run_next hstep]
        exact ih hst' (by omega) hstays

/-- Staying along the list is staying by counting. -/
theorem stays_iff : ∀ {ts : List TokenType} {last : TokenType} {h : ℕ}, h ≠ 0 → (Stays last h ts ↔
    ∀ π, π <+: ts → Legal last π → π.count .endBlock < h + π.count .startBlock)
  | [], last, h, h0 => by
    refine ⟨fun _ π hp _ => ?_, fun _ => trivial⟩
    obtain rfl := List.prefix_nil.mp hp
    have hnone : ([] : List TokenType).count .endBlock = 0 := rfl
    omega
  | t :: ts, last, h, h0 => by
    constructor
    · intro hstays π hp hl
      rcases List.prefix_cons_iff.mp hp with rfl | ⟨ρ, rfl, hρ⟩
      · have hnone : ([] : List TokenType).count .endBlock = 0 := rfl
        omega
      · obtain ⟨h0', hrest⟩ := hstays hl.1
        obtain ⟨d, e, h1, h2, h3⟩ := count_height h0 t ρ
        have ih := (stays_iff h0').mp hrest ρ hρ hl.2
        omega
    · intro hcount hf
      have hone := hcount [t] (by simp) ⟨hf, trivial⟩
      obtain ⟨d, e, h1, h2, h3⟩ := count_height h0 t []
      have hnone : ([] : List TokenType).count .endBlock = 0 := rfl
      have hnone' : ([] : List TokenType).count .startBlock = 0 := rfl
      have h0' : height h t ≠ 0 := by omega
      refine ⟨h0', (stays_iff h0').mpr fun π hp hl => ?_⟩
      have hmore := hcount (t :: π) (by simpa using hp) ⟨hf, hl⟩
      obtain ⟨d, e, h1, h2, h3⟩ := count_height h0 t π
      omega

theorem closesOpened_iff {ts : List TokenType} : ClosesOpened ts ↔ Stays .start 1 ts := by
  rw [stays_iff one_ne_zero]
  unfold ClosesOpened
  constructor
  · intro h π hp hl
    have := h π hp hl
    omega
  · intro h π hp hl
    have := h π hp hl
    omega

/-! ### The first brace too many -/

/-- A brace may close a block where the text may end. -/
theorem legal_endBlock_iff : ∀ {c : List TokenType} {last : TokenType},
    Legal last (c ++ [.endBlock]) ↔ Legal last (c ++ [.eof])
  | [], _ => Iff.rfl
  | _ :: _, _ => and_congr_right fun _ => legal_endBlock_iff

/-- A configuration closes the blocks it opens. -/
theorem config_braces {c : List TokenType} (hc : IsConfig c) : Legal .start (c ++ [.endBlock]) ∧
    c.count .endBlock = c.count .startBlock := by
  obtain ⟨hl, hm⟩ := accepts_iff.mp (derivable_iff.mp ⟨c, rfl, hc⟩).2
  have hcount := (matched_iff.mp hm).2 hl
  have heof : ([.eof] : List TokenType).count .endBlock = 0 ∧
      ([.eof] : List TokenType).count .startBlock = 0 := ⟨rfl, rfl⟩
  rw [List.count_append, List.count_append] at hcount
  exact ⟨legal_endBlock_iff.mpr hl, by omega⟩

/-- What is legal, closes no more braces than it opens at any point, and as many at the end, is a
configuration if a brace may follow. -/
theorem config_of_braces {c : List TokenType} (hl : Legal .start (c ++ [.endBlock]))
    (hle : ∀ π, π <+: c → π.count .endBlock ≤ π.count .startBlock)
    (heq : c.count .endBlock = c.count .startBlock) : IsConfig c := by
  have hl' := legal_endBlock_iff.mp hl
  have hm : Matched .start 1 (c ++ [.eof]) := by
    refine matched_iff.mpr ⟨fun π t hp _ => ?_, fun _ => ?_⟩
    · have hπ : π <+: c := by
        rcases List.prefix_concat_iff.mp hp with h | h
        · rw [(List.append_inj' h rfl).1]
        · exact (List.prefix_append π [t]).trans h
      have := hle π hπ
      omega
    · have heof : ([.eof] : List TokenType).count .endBlock = 0 ∧
          ([.eof] : List TokenType).count .startBlock = 0 := ⟨rfl, rfl⟩
      rw [List.count_append, List.count_append]
      omega
  obtain ⟨c', hc, hconfig⟩ := derivable_iff.mpr ⟨⟨c, rfl⟩, accepts_iff.mpr ⟨hl', hm⟩⟩
  obtain rfl := (List.append_inj' hc rfl).1
  exact hconfig

/-- **The first brace too many** has a configuration in front of it. -/
theorem closesRoot_of_count : ∀ (n : ℕ) {π : List TokenType}, π.length ≤ n → Legal .start π →
    π.count .startBlock < π.count .endBlock → ClosesRoot π
  | 0, π, hn, _, h => by
    obtain rfl := List.length_eq_zero_iff.mp (Nat.le_zero.mp hn)
    exact absurd h (by simp)
  | n + 1, π, hn, hl, h => by
    rcases List.eq_nil_or_concat π with rfl | ⟨c, t, rfl⟩
    · exact absurd h (by simp)
    rw [List.concat_eq_append] at *
    by_cases hearlier : ∃ ρ, ρ <+: c ∧ ρ.count .startBlock < ρ.count .endBlock
    · -- there is one too many before
      obtain ⟨ρ, hρ, hcount⟩ := hearlier
      obtain ⟨σ, rfl⟩ := hρ
      have hlen : ρ.length ≤ n := by
        simp only [List.length_append, List.length_singleton] at hn
        omega
      have hlegal : Legal .start ρ := by
        rw [List.append_assoc] at hl
        exact hl.of_append
      obtain ⟨c', hc', hp⟩ := closesRoot_of_count n hlen hlegal hcount
      exact ⟨c', hc', hp.trans (by rw [List.append_assoc]; exact List.prefix_append _ _)⟩
    · have hle : ∀ ρ, ρ <+: c → ρ.count .endBlock ≤ ρ.count .startBlock := fun ρ hρ =>
        not_lt.mp fun hlt => hearlier ⟨ρ, hρ, hlt⟩
      have hc := hle c List.prefix_rfl
      rw [List.count_append, List.count_append] at h
      have ht : t = .endBlock := by
        by_contra hne
        have hzero : ([t] : List TokenType).count .endBlock = 0 := by simp [hne]
        omega
      subst ht
      have hone : ([.endBlock] : List TokenType).count .endBlock = 1 ∧
          ([.endBlock] : List TokenType).count .startBlock = 0 := ⟨rfl, rfl⟩
      exact ⟨c, config_of_braces hl hle (by omega), List.prefix_rfl⟩

theorem closesOpened_iff_not_closesRoot {ts : List TokenType} : ClosesOpened ts ↔ ¬ ClosesRoot ts := by
  constructor
  · rintro hcloses ⟨c, hc, hp⟩
    obtain ⟨hl, heq⟩ := config_braces hc
    have hle := hcloses _ hp hl
    have hone : ([.endBlock] : List TokenType).count .endBlock = 1 ∧
        ([.endBlock] : List TokenType).count .startBlock = 0 := ⟨rfl, rfl⟩
    rw [List.count_append, List.count_append] at hle
    omega
  · intro hno π hp hl
    by_contra hlt
    obtain ⟨c, hc, hcp⟩ := closesRoot_of_count π.length le_rfl hl (not_le.mp hlt)
    exact hno ⟨c, hc, hcp.trans hp⟩

/-- **The stack is safe** exactly on the texts that do not begin with a configuration and a closing brace
behind it. -/
theorem stackSafe_iff (input : Str) (config : NginxConfig) :
    StackSafe input config ↔ ¬ ClosesRoot (types (tokenize input)) := by
  have hs := stream_tokenize input
  have h0 : (ParserState.init config).stack ≠ 0 := one_ne_zero
  have hthrough := through_iff hs (ready_init config) h0
  rw [← closesOpened_iff_not_closesRoot, closesOpened_iff]
  constructor
  · rintro ⟨hclosed, -⟩
    refine hthrough.mp fun π st hp hst => ?_
    have hle := hclosed π st hp hst
    have hone : (ParserState.init config).stack = 1 := rfl
    omega
  · intro hstays
    refine ⟨fun π st hp hst => ?_, ?_⟩
    · have hlt := hthrough.mpr hstays π st hp hst
      have hone : (ParserState.init config).stack = 1 := rfl
      omega
    · rw [parse_eq]
      exact run_of_stays hs (ready_init config) h0 hstays

/-- **A second closing brace uses the empty stack.** -/
theorem stack_underflows : parse "a; \x7d \x7d".toList [] = .fault .emptyStack ∧
    ¬ StackSafe "a; \x7d \x7d".toList [] := by
  have hfault : parse "a; \x7d \x7d".toList [] = .fault .emptyStack := rfl
  exact ⟨hfault, fun h => h.defined hfault⟩

/-- The first one is taken too, and the text is accepted. -/
example : ∃ c, parse "a; \x7d".toList [] = .returned true c := ⟨_, rfl⟩

end Kachow.Config.Stack
