import Mathlib

/-! # Finite sets kept in increasing order

A `SortedSet α` is a strictly increasing list, so iterating over it visits the elements in order and
two sets with the same elements are equal (`ext`). `countFrom` is the number of elements from a start
on, which goes down where a search passes one (`countFrom_lt`). `firstFree` is the search for the first
number from a start on that the set lacks, within a number of steps. -/

namespace Kachow.Lib.Sets

/-- A finite set, as the increasing list of its elements. -/
structure SortedSet (α : Type*) [LinearOrder α] where
  toList : List α
  sorted : toList.Pairwise (· < ·)

namespace SortedSet

variable {α : Type*} [LinearOrder α]

instance : Membership α (SortedSet α) := ⟨fun s a => a ∈ s.toList⟩

instance (a : α) (s : SortedSet α) : Decidable (a ∈ s) := inferInstanceAs (Decidable (a ∈ s.toList))

instance : DecidableEq (SortedSet α) := fun s t =>
  decidable_of_iff (s.toList = t.toList) (by cases s; cases t; simp)

instance : EmptyCollection (SortedSet α) := ⟨⟨[], List.Pairwise.nil⟩⟩

@[simp] theorem notMem_empty (a : α) : a ∉ (∅ : SortedSet α) := List.not_mem_nil

theorem mem_toList {a : α} {s : SortedSet α} : a ∈ s.toList ↔ a ∈ s := Iff.rfl

/-- Sets with the same elements are equal. -/
@[ext] theorem ext {s t : SortedSet α} (h : ∀ a, a ∈ s ↔ a ∈ t) : s = t := by
  obtain ⟨l, hl⟩ := s
  obtain ⟨m, hm⟩ := t
  have hp : l.Perm m := (List.perm_ext_iff_of_nodup (hl.imp fun h => h.ne)
    (hm.imp fun h => h.ne)).mpr h
  have : l = m := hp.eq_of_pairwise (fun _ _ _ _ h1 h2 => absurd h1 h2.asymm) hl hm
  subst this; rfl

theorem pairwise_orderedInsert {a : α} : ∀ {l : List α}, l.Pairwise (· < ·) → a ∉ l →
    (l.orderedInsert (· ≤ ·) a).Pairwise (· < ·)
  | [], _, _ => by simp
  | b :: l, hl, ha => by
    obtain ⟨hb, hl'⟩ := List.pairwise_cons.mp hl
    obtain ⟨hab, ha'⟩ := not_or.mp (fun h => ha (List.mem_cons.mpr h))
    by_cases h : a ≤ b
    · have hlt : a < b := lt_of_le_of_ne h hab
      rw [List.orderedInsert_cons_of_le _ _ h]
      refine List.pairwise_cons.mpr ⟨fun c hc => ?_, hl⟩
      rcases List.mem_cons.mp hc with rfl | hc
      · exact hlt
      · exact hlt.trans (hb c hc)
    · rw [List.orderedInsert_of_not_le _ _ h]
      refine List.pairwise_cons.mpr ⟨fun c hc => ?_, pairwise_orderedInsert hl' ha'⟩
      rcases (List.mem_orderedInsert _).mp hc with rfl | hc
      · exact not_le.mp h
      · exact hb c hc

/-- The set with `a` added. -/
def insert (a : α) (s : SortedSet α) : SortedSet α :=
  if h : a ∈ s.toList then s
  else ⟨s.toList.orderedInsert (· ≤ ·) a, pairwise_orderedInsert s.sorted h⟩

/-- The set with `a` removed. -/
def erase (a : α) (s : SortedSet α) : SortedSet α :=
  ⟨s.toList.filter (· ≠ a), s.sorted.filter _⟩

@[simp] theorem mem_insert {a b : α} {s : SortedSet α} : b ∈ s.insert a ↔ b = a ∨ b ∈ s := by
  unfold insert
  split_ifs with h
  · refine ⟨Or.inr, fun hb => hb.elim (fun e => e ▸ h) id⟩
  · exact List.mem_orderedInsert _

@[simp] theorem mem_erase {a b : α} {s : SortedSet α} : b ∈ s.erase a ↔ b ≠ a ∧ b ∈ s := by
  simp only [erase, ← mem_toList, List.mem_filter, decide_eq_true_eq]
  exact and_comm

theorem insert_of_mem {a : α} {s : SortedSet α} (h : a ∈ s) : s.insert a = s := by
  unfold insert; exact dif_pos h

theorem erase_of_notMem {a : α} {s : SortedSet α} (h : a ∉ s) : s.erase a = s := by
  ext b
  rw [mem_erase]
  exact ⟨fun hb => hb.2, fun hb => ⟨fun e => h (e ▸ hb), hb⟩⟩

/-- The number of elements from `a` on. -/
def countFrom (s : SortedSet α) (a : α) : ℕ := (s.toList.filter (a ≤ ·)).length

theorem countFrom_le (s : SortedSet α) (a : α) : s.countFrom a ≤ s.toList.length :=
  List.length_filter_le _ _

/-- There are fewer elements behind an element than from it on. -/
theorem countFrom_lt {s : SortedSet α} {a b : α} (ha : a ∈ s) (hab : a < b) :
    s.countFrom b < s.countFrom a := by
  have hsub : (s.toList.filter (b ≤ ·)) = (s.toList.filter (a ≤ ·)).filter (b ≤ ·) := by
    rw [List.filter_filter]
    refine List.filter_congr fun c _ => ?_
    by_cases hbc : b ≤ c
    · simp [hbc, hab.le.trans hbc]
    · simp [hbc]
  have hmem : a ∈ s.toList.filter (a ≤ ·) := by simpa [mem_toList] using ha
  unfold countFrom
  rw [hsub]
  exact List.length_filter_lt_length_iff_exists.mpr ⟨a, hmem, by simpa using hab⟩

end SortedSet

/-! ### The first free number -/

/-- The first number from `n` on that is not in `s`, if it is among the first `room + 1`. -/
def firstFree (s : SortedSet ℤ) : ℕ → ℤ → Option ℤ
  | 0, n => if n ∈ s then none else some n
  | room + 1, n => if n ∈ s then firstFree s room (n + 1) else some n

/-- **The first free number**, by the search's own recursion. -/
theorem firstFree_eq_some {s : SortedSet ℤ} : ∀ {room : ℕ} {n k : ℤ},
    firstFree s room n = some k ↔ n ≤ k ∧ k ≤ n + room ∧ k ∉ s ∧ ∀ j, n ≤ j → j < k → j ∈ s
  | 0, n, k => by
    unfold firstFree
    constructor
    · intro h
      split_ifs at h with hn
      cases h
      exact ⟨le_rfl, by simp, hn, fun j h1 h2 => by omega⟩
    · rintro ⟨h1, h2, h3, -⟩
      obtain rfl : n = k := by simp at h2; omega
      rw [if_neg h3]
  | room + 1, n, k => by
    unfold firstFree
    by_cases hn : n ∈ s
    · rw [if_pos hn, firstFree_eq_some]
      constructor
      · rintro ⟨h1, h2, h3, h4⟩
        refine ⟨by omega, by push_cast; omega, h3, fun j hj hjk => ?_⟩
        rcases eq_or_lt_of_le hj with rfl | hj
        · exact hn
        · exact h4 j (by omega) hjk
      · rintro ⟨h1, h2, h3, h4⟩
        have hne : n ≠ k := fun e => h3 (e ▸ hn)
        exact ⟨by omega, by push_cast at h2; omega, h3, fun j hj hjk => h4 j (by omega) hjk⟩
    · rw [if_neg hn]
      constructor
      · intro h
        cases h
        exact ⟨le_rfl, by omega, hn, fun j h1 h2 => by omega⟩
      · rintro ⟨h1, -, -, h4⟩
        rcases eq_or_lt_of_le h1 with rfl | h1
        · rfl
        · exact absurd (h4 n le_rfl h1) hn

/-- The search fails only if all numbers in its range are taken. -/
theorem firstFree_eq_none {s : SortedSet ℤ} : ∀ {room : ℕ} {n : ℤ},
    firstFree s room n = none ↔ ∀ j, n ≤ j → j ≤ n + room → j ∈ s
  | 0, n => by
    unfold firstFree
    constructor
    · intro h j h1 h2
      split_ifs at h with hn
      obtain rfl : n = j := by simp at h2; omega
      exact hn
    · intro h
      rw [if_pos (h n le_rfl (by simp))]
  | room + 1, n => by
    unfold firstFree
    by_cases hn : n ∈ s
    · rw [if_pos hn, firstFree_eq_none]
      constructor
      · intro h j h1 h2
        rcases eq_or_lt_of_le h1 with rfl | h1
        · exact hn
        · exact h j (by omega) (by push_cast at h2; omega)
      · intro h j h1 h2
        exact h j (by omega) (by push_cast; omega)
    · rw [if_neg hn]
      exact ⟨fun h => by simp at h, fun h => absurd (h n le_rfl (by omega)) hn⟩

end Kachow.Lib.Sets
