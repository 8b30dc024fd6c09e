import Kachow.Lib.Loops
import Kachow.Api.Ids

/-! # Taking an identifier

`get_next_id` finds the next identifier in a loop that nothing bounds: as long as the set has the counter,
the counter goes up by one. What bounds it is the set. A turn that goes on leaves one of its elements
behind, so the number of elements from the counter on is a variant, and the loop ends after at most one
turn more than the set has elements.

All numbers the counter has passed are in the set (`Taken`), so it ends at the least one that is free, or
with an overflow where the whole of `1, …, INT_MAX` is taken. `nextFree`, which counts the steps that the
range of `int` leaves instead, finds the same (`search_eq`). -/

namespace Kachow.Api.Allocation

open Kachow.Lib.Text Kachow.Lib.Decimal Kachow.Lib.Sets Kachow.Lib.Loops Kachow.Http.Messages
open Kachow.Api.Ids

/-- A turn of the loop of `get_next_id`. -/
def searchTurn (existingIDs : IdSet) (id : ℤ) : ℤ ⊕ Except Fault ℤ :=
  if id ∈ existingIDs then
    if id < intMax then .inl (id + 1) else .inr (.error .intOverflow)
  else .inr (.ok id)

section Turn
variable {s : IdSet} {id id' : ℤ} {r : Except Fault ℤ}

theorem searchTurn_inl : searchTurn s id = .inl id' ↔ id ∈ s ∧ id < intMax ∧ id' = id + 1 := by
  unfold searchTurn
  split_ifs with h1 h2
  · simp [h1, h2, eq_comm]
  · simp [h2]
  · simp [h1]

theorem searchTurn_inr : searchTurn s id = .inr r ↔
    id ∉ s ∧ r = .ok id ∨ id ∈ s ∧ intMax ≤ id ∧ r = .error .intOverflow := by
  unfold searchTurn
  split_ifs with h1 h2
  · simp [h1, h2]
  · simp [h1, not_lt.mp h2, eq_comm]
  · simp [h1, eq_comm]

end Turn

/-- **The search of `get_next_id`**: the elements from the counter on become fewer. -/
def search (existingIDs : IdSet) : Loop ℤ (Except Fault ℤ) where
  turn := searchTurn existingIDs
  variant := existingIDs.countFrom
  decreases := by
    intro id id' h
    obtain ⟨hmem, -, rfl⟩ := searchTurn_inl.mp h
    exact SortedSet.countFrom_lt hmem (lt_add_one id)

/-- The counter has come to `id`: it is in the range of `int`, and what it has passed is taken. -/
structure Taken (s : IdSet) (id : ℤ) : Prop where
  pos : 1 ≤ id
  le : id ≤ intMax
  mem : ∀ j, 1 ≤ j → j < id → j ∈ s

theorem taken_one (s : IdSet) : Taken s 1 := ⟨le_rfl, by decide, fun j h1 h2 => by omega⟩

/-- What the search finds in a set: the next identifier, or that there is none. -/
def found (s : IdSet) : Except Fault ℤ := (nextFree s).elim (.error .intOverflow) .ok

section Taken
variable {s : IdSet} {id id' : ℤ} {r : Except Fault ℤ}

/-- **A turn that goes on** has passed one number more. -/
theorem Taken.next (h : Taken s id) (ht : searchTurn s id = .inl id') : Taken s id' := by
  obtain ⟨hmem, hlt, rfl⟩ := searchTurn_inl.mp ht
  have := h.pos
  refine ⟨by omega, by omega, fun j h1 h2 => ?_⟩
  rcases eq_or_lt_of_le (Int.lt_add_one_iff.mp h2) with rfl | h2
  · exact hmem
  · exact h.mem j h1 h2

/-- **The last turn** has found the least free number, or has passed them all. -/
theorem Taken.stop (h : Taken s id) (ht : searchTurn s id = .inr r) : r = found s := by
  obtain ⟨hfree, rfl⟩ | ⟨hmem, hmax, rfl⟩ := searchTurn_inr.mp ht
  · have hsome : nextFree s = some id := nextFree_eq_some.mpr ⟨h.pos, h.le, hfree, h.mem⟩
    rw [found, hsome]
    rfl
  · have hid : id = intMax := le_antisymm h.le hmax
    have hnone : nextFree s = none := by
      refine nextFree_eq_none.mpr fun j h1 h2 => ?_
      rcases eq_or_lt_of_le (h2.trans hid.ge) with rfl | h2
      · exact hmem
      · exact h.mem j h1 h2
    rw [found, hnone]
    rfl

end Taken

/-- **The search finds the next identifier.** -/
theorem search_eq (s : IdSet) : (search s).exec 1 = found s :=
  Loop.exec_inv (Taken s) (· = found s) (fun _ _ h => h.next) (fun _ _ h => h.stop) (taken_one s)

/-- `get_next_id` by its loop. -/
theorem getNextId_eq_search {m : EntityIdMap} {e : Str} {s : IdSet} (hs : m.lookup e = some s) :
    getNextId m e = ((search s).exec 1).map fun id => (id, m.insert e (s.insert id)) := by
  rw [search_eq, found]
  cases hk : nextFree s with
  | none => simp [getNextId, hs, hk, Except.map]
  | some k => simp [getNextId, hs, hk, Except.map]

/-- A free number makes the search find one. -/
theorem found_of_free {s : IdSet} {j : ℤ} (h1 : 1 ≤ j) (h2 : j ≤ intMax) (hj : j ∉ s) :
    ∃ k, nextFree s = some k ∧ found s = .ok k := by
  cases hk : nextFree s with
  | none => exact absurd (nextFree_eq_none.mp hk j h1 h2) hj
  | some k => exact ⟨k, rfl, by rw [found, hk]; rfl⟩

/-- **Taking an identifier**: where `1, …, INT_MAX` are not all taken, the loop of `get_next_id` ends,
after at most one turn more than the set has elements and with no overflow. It gives the least positive
number that is not in the set, which it adds to the set of its entity, and to no other. -/
theorem getNextId_least {m : EntityIdMap} {e : Str} {s : IdSet} (hs : m.lookup e = some s)
    (hroom : ∃ j, 1 ≤ j ∧ j ≤ intMax ∧ j ∉ s) :
    ∃ k m', getNextId m e = .ok (k, m') ∧
      (∃ n ≤ s.toList.length + 1, EndsAfter (searchTurn s) n 1 (.ok k)) ∧
      IsLeast {j | 1 ≤ j ∧ j ∉ s} k ∧
      (∃ s', m'.lookup e = some s' ∧ ∀ j, j ∈ s' ↔ j = k ∨ j ∈ s) ∧
      ∀ x, x ≠ e → m'.lookup x = m.lookup x := by
  obtain ⟨j, h1, h2, hj⟩ := hroom
  obtain ⟨k, hk, hfound⟩ := found_of_free h1 h2 hj
  obtain ⟨hpos, -, hfree, htaken⟩ := nextFree_eq_some.mp hk
  have hends : EndsAfter (searchTurn s) ((search s).turns 1) 1 (.ok k) := by
    rw [← hfound, ← search_eq]
    exact Loop.endsAfter_exec (L := search s) 1
  have hturns : (search s).turns 1 ≤ s.toList.length + 1 :=
    (Loop.turns_le 1).trans (Nat.succ_le_succ (SortedSet.countFrom_le s 1))
  refine ⟨k, m.insert e (s.insert k), getNextId_eq hs hk, ⟨_, hturns, hends⟩, ⟨⟨hpos, hfree⟩, ?_⟩,
    ⟨s.insert k, ?_, fun j => SortedSet.mem_insert⟩, fun x hx => ?_⟩
  · intro j ⟨hj1, hj⟩
    by_contra hlt
    exact hj (htaken j hj1 (not_le.mp hlt))
  · rw [lookup_insert, if_pos rfl]
  · rw [lookup_insert, if_neg hx]

/-- Identifiers with gaps, some of them not positive. -/
def gaps : IdSet := [4, 1, -3, 2, 0].foldr SortedSet.insert ∅

/-- The first gap is taken. -/
theorem getNextId_gap : ∃ m', getNextId ((∅ : EntityIdMap).insert "shoes".toList gaps) "shoes".toList =
      .ok (3, m') ∧ (∃ n ≤ 6, EndsAfter (searchTurn gaps) n 1 (.ok 3)) ∧
      ∀ x, x ≠ "shoes".toList → m'.lookup x = none := by
  obtain ⟨k, m', hrun, hends, ⟨hmem, hleast⟩, -, hother⟩ :=
    getNextId_least (Finmap.lookup_insert (s := (∅ : EntityIdMap)) (a := "shoes".toList) (b := gaps))
      ⟨3, by decide, by decide, by decide⟩
  have hle : k ≤ 3 := hleast ⟨by decide, by decide⟩
  obtain rfl : k = 3 := by
    obtain ⟨hpos, hfree⟩ := hmem
    interval_cases k
    · exact absurd (by decide) hfree
    · exact absurd (by decide) hfree
    · rfl
  refine ⟨m', hrun, hends, fun x hx => ?_⟩
  rw [hother x hx, lookup_insert, if_neg hx]
  rfl

end Kachow.Api.Allocation
