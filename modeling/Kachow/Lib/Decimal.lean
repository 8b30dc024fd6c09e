import Kachow.Lib.Text

/-! # Decimal numerals

`intToString` is `std::to_string` on integers: an optional minus sign and the decimal digits without
leading zeros. `stoi` is `std::stoi`: it skips white space, takes an optional sign and then as many
digits as there are, ignores what follows them, and fails without a digit or outside the range of
`int`. It reads back what `intToString` writes (`stoi_intToString`), so the numerals of two integers
differ (`intToString_inj`). -/

namespace Kachow.Lib.Decimal

open Kachow.Lib.Text

/-- `INT_MAX`. -/
def intMax : ℤ := 2147483647

/-- `INT_MIN`. -/
def intMin : ℤ := -2147483648

/-- `std::to_string`. -/
def intToString : ℤ → Str
  | .ofNat n => Nat.toDigits 10 n
  | .negSucc n => '-' :: Nat.toDigits 10 (n + 1)

/-- White space, as `std::isspace` has it. -/
def isSpace (c : Char) : Bool :=
  c == ' ' || c == '\t' || c == '\n' || c == '\x0b' || c == '\x0c' || c == '\r'

/-- The sign in front of a numeral, if any, and what follows it. -/
def takeSign : Str → Bool × Str
  | '-' :: s => (true, s)
  | '+' :: s => (false, s)
  | s => (false, s)

/-- `std::stoi`; `none` where it throws. -/
def stoi (s : Str) : Option ℤ :=
  let (neg, t) := takeSign (s.dropWhile isSpace)
  let digits := t.takeWhile Char.isDigit
  if digits = [] then none
  else
    let n : ℤ := Nat.ofDigitChars 10 digits 0
    let v := if neg then -n else n
    if intMin ≤ v ∧ v ≤ intMax then some v else none

/-! ### Numerals -/

theorem isDigit_of_mem_toDigits {c : Char} {n : ℕ} (h : c ∈ Nat.toDigits 10 n) :
    c.isDigit = true := Nat.isDigit_of_mem_toDigits (by decide) (by decide) h

theorem toDigits_ne_nil (n : ℕ) : Nat.toDigits 10 n ≠ [] := Nat.toDigits_ne_nil

theorem takeWhile_toDigits (n : ℕ) :
    (Nat.toDigits 10 n).takeWhile Char.isDigit = Nat.toDigits 10 n :=
  List.takeWhile_eq_self_iff.mpr fun _ h => isDigit_of_mem_toDigits h

theorem isSpace_of_isDigit {c : Char} (h : c.isDigit = true) : isSpace c = false := by
  by_contra hs
  simp only [isSpace, Bool.not_eq_false, Bool.or_eq_true, beq_iff_eq] at hs
  rcases hs with ((((rfl | rfl) | rfl) | rfl) | rfl) | rfl <;> exact absurd h (by decide)

theorem takeSign_of_isDigit {c : Char} {s : Str} (h : c.isDigit = true) :
    takeSign (c :: s) = (false, c :: s) := by
  unfold takeSign
  split
  · next heq => cases heq; exact absurd h (by decide)
  · next heq => cases heq; exact absurd h (by decide)
  · rfl

theorem dropWhile_toDigits (n : ℕ) :
    (Nat.toDigits 10 n).dropWhile isSpace = Nat.toDigits 10 n ∧
      takeSign (Nat.toDigits 10 n) = (false, Nat.toDigits 10 n) := by
  obtain ⟨c, s, hcs⟩ := List.exists_cons_of_ne_nil (toDigits_ne_nil n)
  have hc : c.isDigit = true := isDigit_of_mem_toDigits (n := n) (by simp [hcs])
  rw [hcs, List.dropWhile_cons_of_neg (by simp [isSpace_of_isDigit hc])]
  exact ⟨rfl, takeSign_of_isDigit hc⟩

/-- **`stoi` reads back what `intToString` writes.** -/
theorem stoi_intToString {k : ℤ} (hmin : intMin ≤ k) (hmax : k ≤ intMax) :
    stoi (intToString k) = some k := by
  cases k with
  | ofNat n =>
    obtain ⟨hd, hs⟩ := dropWhile_toDigits n
    simp only [stoi, intToString, hd, hs, takeWhile_toDigits, toDigits_ne_nil, if_false,
      Nat.ofDigitChars_ten_toDigits, Bool.false_eq_true]
    exact if_pos ⟨hmin, hmax⟩
  | negSucc n =>
    have hd : ('-' :: Nat.toDigits 10 (n + 1)).dropWhile isSpace =
        '-' :: Nat.toDigits 10 (n + 1) := List.dropWhile_cons_of_neg (by decide)
    simp only [stoi, intToString, hd, takeSign, takeWhile_toDigits, toDigits_ne_nil, if_false,
      Nat.ofDigitChars_ten_toDigits, if_true]
    rw [if_pos ⟨by simpa [Int.negSucc_eq] using hmin, by simpa [Int.negSucc_eq] using hmax⟩]
    simp [Int.negSucc_eq]

theorem intToString_ne_nil : ∀ k : ℤ, intToString k ≠ []
  | .ofNat n => toDigits_ne_nil n
  | .negSucc n => by simp [intToString]

/-- A numeral is made of digits and, in front, a minus sign. -/
theorem mem_intToString {c : Char} : ∀ {k : ℤ}, c ∈ intToString k → c.isDigit = true ∨ c = '-'
  | .ofNat _, h => Or.inl (isDigit_of_mem_toDigits h)
  | .negSucc _, h => by
    rcases List.mem_cons.mp h with rfl | h
    · exact Or.inr rfl
    · exact Or.inl (isDigit_of_mem_toDigits h)

theorem notMem_intToString {c : Char} (hd : c.isDigit = false) (hm : c ≠ '-') (k : ℤ) :
    c ∉ intToString k := by
  intro h
  rcases mem_intToString h with h | h
  · simp [hd] at h
  · exact hm h

/-- **Different integers have different numerals.** -/
theorem intToString_inj {k k' : ℤ} (h : intToString k = intToString k') : k = k' := by
  cases k with
  | ofNat n =>
    cases k' with
    | ofNat m =>
      have := congrArg (Nat.ofDigitChars 10 · 0) h
      simp only [intToString, Nat.ofDigitChars_ten_toDigits] at this
      rw [this]
    | negSucc m =>
      have : '-' ∈ intToString (.ofNat n) := by rw [h]; simp [intToString]
      exact absurd (isDigit_of_mem_toDigits this) (by decide)
  | negSucc n =>
    cases k' with
    | ofNat m =>
      have : '-' ∈ intToString (.ofNat m) := by rw [← h]; simp [intToString]
      exact absurd (isDigit_of_mem_toDigits this) (by decide)
    | negSucc m =>
      have := congrArg (Nat.ofDigitChars 10 · 0) (List.cons.inj h).2
      simp only [Nat.ofDigitChars_ten_toDigits] at this
      have : n = m := by omega
      rw [this]

/-- A string `stoi` reads a number from has a digit. -/
theorem exists_isDigit_of_stoi {s : Str} {k : ℤ} (h : stoi s = some k) :
    ∃ c ∈ s, c.isDigit = true := by
  unfold stoi at h
  have hsub : ∀ t : Str, (takeSign t).2 ⊆ t := by
    intro t c hc
    unfold takeSign at hc
    split at hc <;> simp_all
  by_cases hd : ((takeSign (s.dropWhile isSpace)).2).takeWhile Char.isDigit = []
  · simp [hd] at h
  · obtain ⟨c, t, hc⟩ := List.exists_cons_of_ne_nil hd
    have hmem : c ∈ ((takeSign (s.dropWhile isSpace)).2).takeWhile Char.isDigit := by simp [hc]
    refine ⟨c, ?_, List.mem_takeWhile_imp hmem⟩
    exact List.dropWhile_subset _ (hsub _ (List.takeWhile_subset _ hmem))

/-- **A number ends** at a character that cannot be part of it. -/
theorem stoi_append_cons {c : Char} (hspace : isSpace c = false) (hdigit : c.isDigit = false)
    (hminus : c ≠ '-') (hplus : c ≠ '+') (s t : Str) : stoi (s ++ c :: t) = stoi s := by
  have hdrop : (s ++ c :: t).dropWhile isSpace = s.dropWhile isSpace ++ c :: t := by
    rw [List.dropWhile_append]
    split_ifs with h
    · rw [List.isEmpty_iff.mp h, List.dropWhile_cons_of_neg (by simp [hspace]), List.nil_append]
    · rfl
  have hsign : ∀ x : Str, takeSign (x ++ c :: t) = ((takeSign x).1, (takeSign x).2 ++ c :: t) := by
    intro x
    cases x with
    | nil =>
      unfold takeSign
      split
      · next heq => exact absurd (List.cons.inj heq).1 hminus
      · next heq => exact absurd (List.cons.inj heq).1 hplus
      · rfl
    | cons d x =>
      rw [List.cons_append]
      unfold takeSign
      split
      · next heq =>
        obtain ⟨rfl, rfl⟩ := List.cons.inj heq
        rfl
      · next heq =>
        obtain ⟨rfl, rfl⟩ := List.cons.inj heq
        rfl
      · next h1 h2 =>
        split
        · next heq => exact (h1 _ (by rw [(List.cons.inj heq).1])).elim
        · next heq => exact (h2 _ (by rw [(List.cons.inj heq).1])).elim
        · rfl
  have hdigits : ∀ x : Str, (x ++ c :: t).takeWhile Char.isDigit = x.takeWhile Char.isDigit := by
    intro x
    rw [List.takeWhile_append]
    split_ifs with h
    · rw [List.takeWhile_cons_of_neg (by simp [hdigit]), List.append_nil]
      exact ((List.takeWhile_prefix _).eq_of_length h).symm
    · rfl
  unfold stoi
  simp only [hdrop, hsign, hdigits]

end Kachow.Lib.Decimal
