import Kachow.Lib.Text

/-! # Arrays as texts

An array is written between brackets, its elements separated by commas (`arrayText`), and read back by
splitting at the commas (`decodeArray`). What is written is read again, if the texts of the elements are
not empty and have no comma (`decodeArray_arrayText`).

A writer that puts a comma behind each element, cuts the last character off and closes the bracket
(`trimmedText`) writes the array, unless there is no element: then it cuts off the opening bracket
(`trimmedText_eq_iff`). -/

namespace Kachow.Lib.Arrays

open Kachow.Lib.Text

variable {α : Type}

/-- The elements between brackets, separated by commas. -/
def arrayText (text : α → Str) (l : List α) : Str := '[' :: [','].intercalate (l.map text) ++ [']']

/-- The elements of a text between brackets. -/
def decodeArray (parse : Str → Option α) : Str → Option (List α)
  | '[' :: s =>
    if s.getLast? = some ']' then
      if s.dropLast = [] then some [] else (s.dropLast.splitOn ',').mapM parse
    else none
  | _ => none

/-- Each element with a comma behind it; the last character is cut off and the bracket closed. -/
def trimmedText (text : α → Str) (l : List α) : Str :=
  (l.foldl (fun t a => t ++ text a ++ [',']) ['[']).dropLast ++ [']']

variable {text : α → Str} {parse : Str → Option α}

theorem intercalate_ne_nil (hne : ∀ a, text a ≠ []) {l : List α} (hl : l ≠ []) :
    [','].intercalate (l.map text) ≠ [] := by
  obtain ⟨a, l, rfl⟩ := List.exists_cons_of_ne_nil hl
  have ha := hne a
  cases l <;> simp [ha]

theorem mapM_map_text {l : List α} (hparse : ∀ a ∈ l, parse (text a) = some a) :
    (l.map text).mapM parse = some l := by
  induction l with
  | nil => rfl
  | cons a l ih =>
    have ha := hparse a List.mem_cons_self
    have hl := ih fun b hb => hparse b (List.mem_cons_of_mem a hb)
    simp [ha, hl]

/-- **What is written is read again.** -/
theorem decodeArray_arrayText (hne : ∀ a, text a ≠ []) (hcomma : ∀ a, ',' ∉ text a) {l : List α}
    (hparse : ∀ a ∈ l, parse (text a) = some a) : decodeArray parse (arrayText text l) = some l := by
  have hsplit : l ≠ [] → ([','].intercalate (l.map text)).splitOn ',' = l.map text := fun hl =>
    List.splitOn_intercalate ',' (by simpa using fun a _ => hcomma a) (by simpa using hl)
  unfold arrayText decodeArray
  simp only [List.cons_append, List.getLast?_concat, List.dropLast_concat, if_true]
  by_cases hl : l = []
  · rw [hl]
    rfl
  · rw [if_neg (intercalate_ne_nil hne hl), hsplit hl, mapM_map_text hparse]

/-! ### The trailing comma -/

theorem foldl_commas (l : List α) (t : Str) :
    l.foldl (fun t a => t ++ text a ++ [',']) t = t ++ (l.map fun a => text a ++ [',']).flatten := by
  simp only [List.append_assoc, List.foldl_append_eq_append]

/-- Behind the last element there is a comma too many. -/
theorem flatten_commas {l : List α} (hl : l ≠ []) :
    (l.map fun a => text a ++ [',']).flatten = [','].intercalate (l.map text) ++ [','] := by
  induction l with
  | nil => exact absurd rfl hl
  | cons a l ih =>
    by_cases h : l = []
    · simp [h]
    · obtain ⟨b, m, rfl⟩ := List.exists_cons_of_ne_nil h
      have hm := ih h
      simp only [List.map_cons, List.flatten_cons] at hm ⊢
      rw [hm]
      simp

/-- **The array is written, unless it is empty.** -/
theorem trimmedText_eq_iff {l : List α} : trimmedText text l = arrayText text l ↔ l ≠ [] := by
  constructor
  · rintro h rfl
    simp [trimmedText, arrayText] at h
  · intro hl
    unfold trimmedText arrayText
    rw [foldl_commas, flatten_commas hl, ← List.append_assoc, List.dropLast_concat]
    rfl

/-- A text that begins otherwise is no array. -/
theorem arrayText_ne {c : Char} (hc : c ≠ '[') (s : Str) (l : List α) : arrayText text l ≠ c :: s := by
  intro h
  exact hc (List.cons.inj h).1.symm

end Kachow.Lib.Arrays
