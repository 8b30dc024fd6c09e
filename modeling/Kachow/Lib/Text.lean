import Mathlib

/-! # Strings as lists of characters

A string is the list of its characters. `findLastOf` and `substr` are the two string operations a
URL is cut with; `parts` are the non-empty pieces between the separators, which is how a file system
reads a path name: a doubled or a trailing separator changes nothing (`parts_append_cons`). -/

namespace Kachow.Lib.Text

/-- A string, as the list of its characters. -/
abbrev Str := List Char

-- what sorting strings needs of their order, found at once
instance isTrans_str : IsTrans Str (· ≤ ·) := inferInstance
instance antisymm_str : @Std.Antisymm Str (· ≤ ·) := inferInstance
instance total_str : @Std.Total Str (· ≤ ·) := inferInstance

/-! ### Searching and cutting -/

/-- The position of the last `c`. -/
def findLastOf (c : Char) : Str → Option ℕ
  | [] => none
  | x :: xs =>
    match findLastOf c xs with
    | some n => some (n + 1)
    | none => if x = c then some 0 else none

/-- At most `count` characters from `pos` on (`none`: all of them); undefined past the end. -/
def substr (s : Str) (pos : ℕ) (count : Option ℕ := none) : Option Str :=
  if pos ≤ s.length then
    match count with
    | some n => some ((s.drop pos).take n)
    | none => some (s.drop pos)
  else none

theorem findLastOf_of_notMem {c : Char} : ∀ {s : Str}, c ∉ s → findLastOf c s = none
  | [], _ => rfl
  | x :: xs, h => by
    have hx : x ≠ c := fun e => h (by simp [e])
    have hxs : c ∉ xs := fun e => h (by simp [e])
    simp [findLastOf, findLastOf_of_notMem hxs, hx]

theorem findLastOf_append {c : Char} {b : Str} (hb : c ∉ b) :
    ∀ a : Str, findLastOf c (a ++ c :: b) = some a.length
  | [] => by simp [findLastOf, findLastOf_of_notMem hb]
  | x :: a => by simp [findLastOf, findLastOf_append hb a]

/-- A string with a `c` splits at its last one. -/
theorem exists_last {c : Char} {s : Str} (h : c ∈ s) : ∃ a b, s = a ++ c :: b ∧ c ∉ b := by
  obtain ⟨b, a, hs, hb⟩ := List.eq_append_cons_of_mem (List.mem_reverse.mpr h)
  refine ⟨a.reverse, b.reverse, ?_, by simpa using hb⟩
  have := congrArg List.reverse hs
  simpa using this

/-- The first element of a list that has a property. -/
theorem exists_first {α : Type*} {P : α → Prop} : ∀ {l : List α}, (∃ x ∈ l, P x) →
    ∃ a x b, l = a ++ x :: b ∧ P x ∧ ∀ y ∈ a, ¬ P y
  | [], h => by simp at h
  | x :: l, h => by
    by_cases hx : P x
    · exact ⟨[], x, l, rfl, hx, by simp⟩
    · obtain ⟨a, y, b, rfl, hy, ha⟩ := @exists_first α P l (by simpa [hx] using h)
      exact ⟨x :: a, y, b, rfl, hy, by simpa [hx] using ha⟩

theorem substr_append (a b : Str) : substr (a ++ b) a.length = some b := by
  simp [substr]

theorem substr_append_count (a b d : Str) :
    substr (a ++ b ++ d) a.length (some b.length) = some b := by
  simp [substr]

/-! ### The parts between separators -/

/-- The non-empty pieces of `s` between the occurrences of `c`. -/
def parts (c : Char) (s : Str) : List Str := (s.splitOn c).filter (· ≠ [])

@[simp] theorem parts_nil (c : Char) : parts c [] = [] := by simp [parts]

theorem parts_append_cons (c : Char) (a b : Str) :
    parts c (a ++ c :: b) = parts c a ++ parts c b := by
  unfold parts
  rw [List.splitOn_append_cons_self, List.filter_append]

@[simp] theorem parts_cons_self (c : Char) (s : Str) : parts c (c :: s) = parts c s := by
  simpa using parts_append_cons c [] s

@[simp] theorem parts_concat_self (c : Char) (s : Str) : parts c (s ++ [c]) = parts c s := by
  simpa using parts_append_cons c s []

theorem parts_of_notMem {c : Char} {s : Str} (hne : s ≠ []) (h : c ∉ s) : parts c s = [s] := by
  simp [parts, List.splitOn_eq_singleton h, hne]

/-- A part is non-empty and has no separator. -/
theorem mem_parts {c : Char} : ∀ {s x : Str}, x ∈ parts c s → x ≠ [] ∧ c ∉ x := by
  intro s
  induction hn : s.length using Nat.strong_induction_on generalizing s with
  | _ n ih =>
    intro x hx
    by_cases h : c ∈ s
    · obtain ⟨a, b, rfl, hb⟩ := exists_last h
      rw [parts_append_cons, List.mem_append] at hx
      rw [List.length_append, List.length_cons] at hn
      rcases hx with hx | hx
      · exact ih a.length (by omega) rfl hx
      · exact ih b.length (by omega) rfl hx
    · by_cases hs : s = []
      · simp [hs] at hx
      · rw [parts_of_notMem hs h, List.mem_singleton] at hx
        exact hx ▸ ⟨hs, h⟩

/-- Only separators: no parts. -/
theorem parts_eq_nil {c : Char} : ∀ {s : Str}, (∀ x ∈ s, x = c) → parts c s = []
  | [], _ => parts_nil c
  | x :: s, h => by
    obtain rfl : x = c := h x (by simp)
    rw [parts_cons_self]
    exact parts_eq_nil fun y hy => h y (by simp [hy])

/-- No parts: only separators. -/
theorem eq_of_parts_eq_nil {c : Char} : ∀ {s : Str}, parts c s = [] → ∀ x ∈ s, x = c := by
  intro s
  induction hn : s.length using Nat.strong_induction_on generalizing s with
  | _ n ih =>
    intro hs
    by_cases h : c ∈ s
    · obtain ⟨a, b, rfl, -⟩ := exists_last h
      rw [parts_append_cons, List.append_eq_nil_iff] at hs
      rw [List.length_append, List.length_cons] at hn
      have ha := ih a.length (by omega) rfl hs.1
      have hb := ih b.length (by omega) rfl hs.2
      simp only [List.mem_append, List.mem_cons]
      rintro x (hx | rfl | hx)
      · exact ha x hx
      · rfl
      · exact hb x hx
    · intro x hx
      rw [parts_of_notMem (List.ne_nil_of_mem hx) h] at hs
      exact absurd hs (by simp)

end Kachow.Lib.Text
