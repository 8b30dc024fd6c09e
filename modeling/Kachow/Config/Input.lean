import Kachow.Lib.Loops
import Kachow.Config.Parser

/-! # The parser on its input stream

`ParseToken` takes its characters from a `std::istream`, one `get` at a time. It looks at the character
after a quoted string with `peek`, and it gives back the one that has ended a word with `unget`. Here the
stream is modelled with its bits of state, and `ParseToken` and `Parse` are the loops of the source.

A turn of `ParseToken` that goes on keeps the character it has got, so the characters that are left are a
variant (`tokenLoop`). A call does what the lexer does on the text that is left (`agrees_parseToken`):
the character given back is still there, and nothing else comes back. So a call that gives a token takes
a character at least (`unread_lt`), which makes a loop with a variant of `Parse`, too (`parserLoop`):
whatever follows a fault of the parser, it ends. -/

namespace Kachow.Config.Input

open Kachow.Lib.Text Kachow.Lib.Loops Kachow.Config.Lexer Kachow.Config.Parser

/-! ### The stream -/

/-- `std::istream`: the characters read, the last one first, those that are left, and the bits of the
state. -/
structure IStream where
  past : Str
  unread : Str
  eofbit : Bool
  failbit : Bool
  badbit : Bool
  deriving DecidableEq, Repr

namespace IStream

/-- `good`. -/
def good (s : IStream) : Bool := !(s.eofbit || s.failbit || s.badbit)

/-- `get`; at the end of the text there is no character. -/
def get (s : IStream) : Option Char × IStream :=
  if s.good then
    match s.unread with
    | [] => (none, { s with eofbit := true, failbit := true })
    | c :: unread => (some c, { s with past := c :: s.past, unread := unread })
  else (none, { s with failbit := true })

/-- `peek`. -/
def peek (s : IStream) : Option Char × IStream :=
  if s.good then
    match s.unread with
    | [] => (none, { s with eofbit := true })
    | c :: _ => (some c, s)
  else (none, { s with failbit := true })

/-- `unget`, which clears `eofbit` first. -/
def unget (s : IStream) : IStream :=
  let s := { s with eofbit := false }
  if s.good then
    match s.past with
    | [] => { s with badbit := true }
    | c :: past => { s with past := past, unread := c :: s.unread }
  else { s with failbit := true }

/-- A stream in good state: `past` is read, `unread` is left. -/
def ready (past unread : Str) : IStream := ⟨past, unread, false, false, false⟩

/-- The stream after a `get` at the end of the text. -/
def exhausted (past : Str) : IStream := ⟨past, [], true, true, false⟩

/-- The stream can still be read, or there is nothing left. -/
def Usable (s : IStream) : Prop := s.good = true ∨ s.unread = []

theorem good_ready (past unread : Str) : (ready past unread).good = true := rfl

theorem eq_ready {s : IStream} (h : s.good = true) : s = ready s.past s.unread := by
  obtain ⟨past, unread, eofbit, failbit, badbit⟩ := s
  simp only [good, Bool.not_eq_true', Bool.or_eq_false_iff] at h
  obtain ⟨⟨rfl, rfl⟩, rfl⟩ := h
  rfl

end IStream

/-! ### A token -/

/-- The variables of `ParseToken`. -/
structure TokenState where
  state : TokenParserState
  value : Str
  input : IStream

/-- After the loop: the stream is not good any more. -/
def atEnd (s : TokenState) : Token × IStream :=
  ((if s.state = .singleQuote ∨ s.state = .doubleQuote then .error else .eof, s.value), s.input)

/-- After a second quote: one of the characters that end a word has to follow. -/
def endQuote (value : Str) (input : IStream) : Token × IStream :=
  let (next, input) := input.peek
  ((if next.any isDelimiter then .normal else .error, value), input)

/-- The `switch` on the state, for a character. -/
def consume (state : TokenParserState) (value : Str) (c : Char) (input : IStream) :
    TokenState ⊕ (Token × IStream) :=
  match state with
  | .initialWhitespace =>
    if c = '{' then .inr ((.startBlock, [c]), input)
    else if c = '}' then .inr ((.endBlock, [c]), input)
    else if c = '#' then .inl ⟨.tokenTypeComment, [c], input⟩
    else if c = '"' then .inl ⟨.doubleQuote, [c], input⟩
    else if c = '\'' then .inl ⟨.singleQuote, [c], input⟩
    else if c = ';' then .inr ((.statementEnd, [c]), input)
    else if isBlank c then .inl ⟨.initialWhitespace, value, input⟩
    else .inl ⟨.tokenTypeNormal, value ++ [c], input⟩
  | .singleQuote =>
    if c = '\'' then .inr (endQuote (value ++ [c]) input)
    else .inl ⟨.singleQuote, value ++ [c], input⟩
  | .doubleQuote =>
    if c = '"' then .inr (endQuote (value ++ [c]) input)
    else .inl ⟨.doubleQuote, value ++ [c], input⟩
  | .tokenTypeComment =>
    if c = '\n' ∨ c = '\r' then .inr ((.comment, value), input)
    else .inl ⟨.tokenTypeComment, value ++ [c], input⟩
  | .tokenTypeNormal =>
    if isDelimiter c then .inr ((.normal, value), input.unget)
    else .inl ⟨.tokenTypeNormal, value ++ [c], input⟩

/-- A turn of the loop of `ParseToken`. -/
def tokenTurn (s : TokenState) : TokenState ⊕ (Token × IStream) :=
  if s.input.good then
    let (c, input) := s.input.get
    match c with
    | some c =>
      if input.good then consume s.state s.value c input else .inr (atEnd { s with input := input })
    | none => .inr (atEnd { s with input := input })
  else .inr (atEnd s)

theorem tokenTurn_cons (state : TokenParserState) (value past : Str) (c : Char) (input : Str) :
    tokenTurn ⟨state, value, .ready past (c :: input)⟩ =
      consume state value c (.ready (c :: past) input) := rfl

theorem tokenTurn_nil (state : TokenParserState) (value past : Str) :
    tokenTurn ⟨state, value, .ready past []⟩ = .inr (atEnd ⟨state, value, .exhausted past⟩) := rfl

theorem tokenTurn_of_not_good {s : TokenState} (h : s.input.good = false) :
    tokenTurn s = .inr (atEnd s) := by
  unfold tokenTurn
  rw [h]
  rfl

/-- **A turn that goes on** keeps its character, as the lexer does. -/
theorem consume_inl {state : TokenParserState} {value : Str} {c : Char} {input : IStream}
    {s : TokenState} (h : consume state value c input = .inl s) : s.input = input ∧
      parseTokenFrom state value (c :: input.unread) =
        parseTokenFrom s.state s.value input.unread := by
  cases state with
  | initialWhitespace =>
    simp only [consume] at h
    split_ifs at h with h1 h2 h3 h4 h5 h6 h7
    all_goals
      cases h
      refine ⟨rfl, ?_⟩
      rw [parseTokenFrom]
      simp_all
  | singleQuote | doubleQuote | tokenTypeComment | tokenTypeNormal =>
    simp only [consume] at h
    split_ifs at h with hc
    cases h
    exact ⟨rfl, by rw [parseTokenFrom, if_neg hc]⟩

/-- A call on a stream has done what the lexer does on the text that is left, `l`: the same token, the
same text left; and all of the text is still there, before or behind the position. -/
structure CallAgrees (text : Str) (l : Token × Str) (r : Token × IStream) : Prop where
  token : r.1 = l.1
  unread : r.2.unread = l.2
  text : r.2.past.reverse ++ r.2.unread = text
  good : l.1.1.isLast = false → r.2.good = true
  usable : r.2.Usable

/-- The look at the next character. -/
theorem agrees_endQuote (value past input : Str) :
    CallAgrees (past.reverse ++ input) ((afterQuote input, value), input)
      (endQuote value (.ready past input)) := by
  cases input with
  | nil => exact ⟨rfl, rfl, rfl, fun h => by simp [afterQuote, TokenType.isLast] at h, Or.inr rfl⟩
  | cons c input => exact ⟨rfl, rfl, rfl, fun _ => rfl, Or.inl rfl⟩

/-- **The last turn** gives back the character that has ended a word, and keeps any other. -/
theorem consume_inr {state : TokenParserState} {value past : Str} {c : Char} {input : Str}
    {r : Token × IStream} (h : consume state value c (.ready (c :: past) input) = .inr r) :
    CallAgrees (past.reverse ++ c :: input) (parseTokenFrom state value (c :: input)) r := by
  have htext : (c :: past).reverse ++ input = past.reverse ++ c :: input := by simp
  have hkept : ∀ token : Token, CallAgrees (past.reverse ++ c :: input) (token, input)
      (token, .ready (c :: past) input) :=
    fun token => ⟨rfl, rfl, htext, fun _ => rfl, Or.inl rfl⟩
  have hquote := htext ▸ agrees_endQuote (value ++ [c]) (c :: past) input
  cases state with
  | initialWhitespace =>
    simp only [consume] at h
    split_ifs at h with h1 h2 h3 h4 h5 h6
    all_goals
      cases h
      rw [parseTokenFrom]
      simp_all
  | singleQuote | doubleQuote =>
    simp only [consume] at h
    split_ifs at h with hc
    cases h
    rw [parseTokenFrom, if_pos hc]
    exact hquote
  | tokenTypeComment =>
    simp only [consume] at h
    split_ifs at h with hc
    cases h
    rw [parseTokenFrom, if_pos hc]
    exact hkept _
  | tokenTypeNormal =>
    simp only [consume] at h
    split_ifs at h with hc
    cases h
    rw [parseTokenFrom, if_pos hc]
    exact ⟨rfl, rfl, rfl, fun _ => rfl, Or.inl rfl⟩

theorem unread_of_tokenTurn {s s' : TokenState} (h : tokenTurn s = .inl s') :
    s'.input.unread.length < s.input.unread.length := by
  obtain ⟨state, value, input⟩ := s
  cases hg : input.good with
  | false =>
    rw [tokenTurn_of_not_good hg] at h
    cases h
  | true =>
    rw [IStream.eq_ready hg] at h ⊢
    cases hu : input.unread with
    | nil =>
      rw [hu, tokenTurn_nil] at h
      cases h
    | cons c rest =>
      rw [hu, tokenTurn_cons] at h
      rw [(consume_inl h).1]
      exact Nat.lt_succ_self rest.length

/-- **The loop of `ParseToken`**: every turn that goes on takes a character. -/
def tokenLoop : Loop TokenState (Token × IStream) where
  turn := tokenTurn
  variant s := s.input.unread.length
  decreases := unread_of_tokenTurn

/-- `ParseToken`. -/
def IStream.parseToken (input : IStream) : Token × IStream :=
  tokenLoop.exec ⟨.initialWhitespace, [], input⟩

/-- The loop does what the lexer does. -/
theorem agrees_exec : ∀ (input : Str) (state : TokenParserState) (value past : Str),
    CallAgrees (past.reverse ++ input) (parseTokenFrom state value input)
      (tokenLoop.exec ⟨state, value, .ready past input⟩)
  | [], state, value, past => by
    have hturn : tokenLoop.turn ⟨state, value, .ready past []⟩ =
      .inr (atEnd ⟨state, value, .exhausted past⟩) := tokenTurn_nil state value past
    have hlast : (parseTokenFrom state value []).1.1.isLast = true := by cases state <;> rfl
    rw [Loop.exec_inr hturn]
    refine ⟨?_, ?_, rfl, fun h => absurd hlast (by simp [h]), Or.inr rfl⟩
    all_goals cases state <;> rfl
  | c :: input, state, value, past => by
    have hturn : tokenLoop.turn ⟨state, value, .ready past (c :: input)⟩ =
      consume state value c (.ready (c :: past) input) := tokenTurn_cons state value past c input
    cases hc : consume state value c (.ready (c :: past) input) with
    | inr r =>
      rw [Loop.exec_inr (hturn.trans hc)]
      exact consume_inr hc
    | inl s =>
      obtain ⟨state', value', input'⟩ := s
      obtain ⟨rfl, hlexer⟩ := consume_inl hc
      have htext : past.reverse ++ c :: input = (c :: past).reverse ++ input := by simp
      rw [Loop.exec_inl (hturn.trans hc), htext]
      exact hlexer ▸ agrees_exec input state' value' (c :: past)

/-- **A call on a stream in good state** does what the lexer does on the text that is left. -/
theorem agrees_parseToken {s : IStream} (h : s.good = true) :
    CallAgrees (s.past.reverse ++ s.unread) (parseToken s.unread) s.parseToken := by
  have hexec := agrees_exec s.unread .initialWhitespace [] s.past
  rwa [← IStream.eq_ready h] at hexec

-- the `;` that ends the word is given back
example : (IStream.ready [] "ab;".toList).parseToken =
    ((.normal, "ab".toList), .ready "ba".toList ";".toList) := by decide

/-- In any other state nothing is read. -/
theorem parseToken_of_not_good {s : IStream} (h : s.good = false) :
    s.parseToken = ((.eof, []), s) :=
  Loop.exec_inr (L := tokenLoop) (tokenTurn_of_not_good (s := ⟨.initialWhitespace, [], s⟩) h)

/-- A call that gives a token is one on a stream in good state, and leaves it so. -/
theorem good_of_not_isLast {s : IStream} (h : s.parseToken.1.1.isLast = false) :
    s.good = true ∧ s.parseToken.2.good = true := by
  cases hg : s.good with
  | false =>
    rw [parseToken_of_not_good hg] at h
    simp [TokenType.isLast] at h
  | true =>
    have hagrees := agrees_parseToken hg
    exact ⟨rfl, hagrees.good (hagrees.token ▸ h)⟩

/-- **Progress**: a call that gives a token takes a character, in whatever state the stream is. -/
theorem unread_lt {s : IStream} (h : s.parseToken.1.1.isLast = false) :
    s.parseToken.2.unread.length < s.unread.length := by
  have hagrees := agrees_parseToken (good_of_not_isLast h).1
  rw [hagrees.token] at h
  rw [hagrees.unread]
  refine length_rest_lt fun hnil => ?_
  rw [hnil, parseToken_nil] at h
  exact absurd h (by decide)

theorem usable_parseToken {s : IStream} (h : s.Usable) : s.parseToken.2.Usable := by
  cases hg : s.good with
  | true => exact (agrees_parseToken hg).usable
  | false => rwa [parseToken_of_not_good hg]

/-- **The end**: a call that gives `eof` leaves nothing. -/
theorem unread_of_eof {s : IStream} (hs : s.Usable) (h : s.parseToken.1.1 = .eof) :
    s.parseToken.2.unread = [] := by
  cases hg : s.good with
  | true =>
    have hagrees := agrees_parseToken hg
    rw [hagrees.token] at h
    rw [hagrees.unread]
    exact rest_of_eof h
  | false =>
    rw [parseToken_of_not_good hg]
    exact hs.resolve_left (by simp [hg])

/-- The stream after `n` calls. -/
def afterCalls (s : IStream) (n : ℕ) : IStream := (fun s => s.parseToken.2)^[n] s

theorem usable_afterCalls {s : IStream} (hs : s.Usable) : ∀ n, (afterCalls s n).Usable
  | 0 => hs
  | n + 1 => by
    unfold afterCalls
    rw [Function.iterate_succ_apply']
    exact usable_parseToken (usable_afterCalls hs n)

/-! ### The parser -/

/-- A turn of the loop of `Parse`. A fault of the parser is undefined behaviour: `undefined` says what
follows it, another state or the end. -/
def parseTurn (undefined : ParserState → Token → Option ParserState) (s : ParserState × IStream) :
    (ParserState × IStream) ⊕ Outcome :=
  let (token, input) := s.2.parseToken
  match parseStep s.1 token with
  | .next st => .inl (st, input)
  | .stop (.fault e) =>
    match undefined s.1 token with
    | some st => .inl (st, input)
    | none => .inr (.fault e)
  | .stop o => .inr o

section Turn
variable {undefined : ParserState → Token → Option ParserState} {st st' : ParserState}
  {s s' : IStream} {o : Outcome}

theorem parseTurn_next (h : parseStep st s.parseToken.1 = .next st') :
    parseTurn undefined (st, s) = .inl (st', s.parseToken.2) := by
  simp only [parseTurn, h]

theorem parseTurn_stop (h : parseStep st s.parseToken.1 = .stop o) :
    parseTurn (fun _ _ => none) (st, s) = .inr o := by
  cases o <;> simp only [parseTurn, h]

/-- **A turn that goes on** has read a token that is not the last. -/
theorem parseTurn_inl (h : parseTurn undefined (st, s) = .inl (st', s')) :
    s.parseToken.1.1.isLast = false ∧ s' = s.parseToken.2 := by
  constructor
  · by_contra hlast
    obtain ⟨valid, hstop⟩ := @parseStep_of_isLast st _ (eq_true_of_ne_false hlast)
    simp [parseTurn, hstop] at h
  · simp only [parseTurn] at h
    split at h
    · cases h; rfl
    · split at h <;> cases h
      rfl
    · cases h

end Turn

/-- **The loop of `Parse`**: every turn that goes on takes a character. -/
def parserLoop (undefined : ParserState → Token → Option ParserState) :
    Loop (ParserState × IStream) Outcome where
  turn := parseTurn undefined
  variant s := s.2.unread.length
  decreases := by
    intro s s' h
    obtain ⟨hlast, hs'⟩ := parseTurn_inl h
    rw [hs']
    exact unread_lt hlast

/-- `Parse`, which is at its end at the first fault. -/
def IStream.parse (input : IStream) (config : NginxConfig) : Outcome :=
  (parserLoop fun _ _ => none).exec (.init config, input)

theorem exec_eq_run (text : Str) : ∀ (st : ParserState) {s : IStream}, s.good = true →
    s.unread = text → (parserLoop fun _ _ => none).exec (st, s) = run st (tokenize text) := by
  induction text using tokenize_induction with
  | last text h =>
    intro st s hg hu
    have htoken : s.parseToken.1 = (parseToken text).1 := hu ▸ (agrees_parseToken hg).token
    obtain ⟨valid, hstop⟩ := @parseStep_of_isLast st _ h
    rw [tokenize_eq, if_pos h, run_stop hstop]
    exact Loop.exec_inr (parseTurn_stop (htoken ▸ hstop))
  | next text h ih =>
    intro st s hg hu
    obtain ⟨htoken, hrest, -, hgood, -⟩ := hu ▸ agrees_parseToken hg
    rw [tokenize_eq, if_neg (by simp [h])]
    cases hstep : parseStep st (parseToken text).1 with
    | next st' =>
      have hturn : parseTurn (fun _ _ => none) (st, s) = .inl (st', s.parseToken.2) :=
        parseTurn_next (htoken ▸ hstep)
      rw [run_next hstep, ← ih st' (hgood h) hrest]
      exact Loop.exec_inl (L := parserLoop fun _ _ => none) hturn
    | stop o =>
      rw [run_stop hstep]
      exact Loop.exec_inr (parseTurn_stop (htoken ▸ hstep))

/-- **`Parse` on a stream** is the parser on the text that is left. -/
theorem parse_stream {s : IStream} (hg : s.good = true) (config : NginxConfig) :
    s.parse config = parse s.unread config := by
  rw [parse_eq]
  exact exec_eq_run s.unread (.init config) hg rfl

/-- **The lexer makes progress and the parser ends.** On a stream in good state and after any number of
calls, a call of `ParseToken` that gives a token other than `eof` and `error` leaves fewer characters,
and one that gives `eof` leaves none. `Parse` ends with one of the first `length + 1` tokens, whatever
its undefined behaviour is. -/
theorem parse_ends (past text : Str) :
    (∀ n, let s := afterCalls (.ready past text) n
      (s.parseToken.1.1 ≠ .eof → s.parseToken.1.1 ≠ .error →
        s.parseToken.2.unread.length < s.unread.length) ∧
      (s.parseToken.1.1 = .eof → s.parseToken.2.unread = [])) ∧
    ∀ undefined config, ∃ n ≤ text.length + 1, ∃ o,
      EndsAfter (parseTurn undefined) n (.init config, .ready past text) o := by
  refine ⟨fun n => ⟨fun heof herror => ?_, fun heof => ?_⟩, fun undefined config => ?_⟩
  · refine unread_lt ?_
    simp [TokenType.isLast, heof, herror]
  · exact unread_of_eof (usable_afterCalls (Or.inl (IStream.good_ready past text)) n) heof
  · exact ⟨_, Loop.turns_le (L := parserLoop undefined) (.init config, .ready past text), _,
      Loop.endsAfter_exec (L := parserLoop undefined) _⟩

end Kachow.Config.Input
