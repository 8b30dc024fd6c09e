import Kachow.Lib.Sets
import Kachow.Lib.Decimal
import Kachow.Http.Messages

/-! # The map of identifiers

Next to the files the server keeps, for each entity, the set of the identifiers in use. A `POST` takes
the least free one (`getNextId`) from this map alone; `GET`, `PUT` and `DELETE` repair the map as they
find a file or find none. Each operation is described by what it does to the look-up of every
entity. -/

namespace Kachow.Api.Ids

open Kachow.Lib.Text Kachow.Lib.Decimal Kachow.Lib.Sets Kachow.Http.Messages

/-- `std::set<int>`. -/
abbrev IdSet := SortedSet ℤ

/-- `std::map<std::string, std::set<int>>`. -/
abbrev EntityIdMap := Finmap fun _ : Str => IdSet

/-- `std::map::insert` of the empty set: an entity that is there stays as it is. -/
def insertKey (m : EntityIdMap) (entity : Str) : EntityIdMap :=
  match m.lookup entity with
  | some _ => m
  | none => m.insert entity ∅

/-- The search of `get_next_id`: from `1` on, without leaving the range of `int`. -/
def nextFree (existingIDs : IdSet) : Option ℤ := firstFree existingIDs 2147483646 1

/-- `get_next_id`. The entity has to be in the map; the iterator is not checked. -/
def getNextId (m : EntityIdMap) (entity : Str) : Except Fault (ℤ × EntityIdMap) :=
  match m.lookup entity with
  | none => .error .endDereference
  | some existingIDs =>
    match nextFree existingIDs with
    | none => .error .intOverflow
    | some id => .ok (id, m.insert entity (existingIDs.insert id))

/-- `erase_if_exist`. -/
def eraseIfExist (m : EntityIdMap) (entity : Str) (id : ℤ) : EntityIdMap :=
  match m.lookup entity with
  | none => m
  | some existingIDs => if id ∈ existingIDs then m.insert entity (existingIDs.erase id) else m

/-- `insert_if_notexist`. -/
def insertIfNotexist (m : EntityIdMap) (entity : Str) (id : ℤ) : EntityIdMap :=
  match m.lookup entity with
  | some existingIDs => if id ∈ existingIDs then m else m.insert entity (existingIDs.insert id)
  | none => m.insert entity ((∅ : IdSet).insert id)

/-! ### Look-ups -/

theorem lookup_insert (m : EntityIdMap) (e : Str) (s : IdSet) (x : Str) :
    (m.insert e s).lookup x = if x = e then some s else m.lookup x := by
  split_ifs with h
  · rw [h, Finmap.lookup_insert]
  · exact Finmap.lookup_insert_of_ne _ h

@[simp] theorem lookup_insertKey (m : EntityIdMap) (e x : Str) :
    (insertKey m e).lookup x = if x = e then some ((m.lookup e).getD ∅) else m.lookup x := by
  unfold insertKey
  cases h : m.lookup e with
  | none => simp [lookup_insert]
  | some s =>
    split_ifs with hx
    · rw [hx, h]; rfl
    · rfl

@[simp] theorem lookup_eraseIfExist (m : EntityIdMap) (e : Str) (i : ℤ) (x : Str) :
    (eraseIfExist m e i).lookup x =
      if x = e then (m.lookup e).map (SortedSet.erase i) else m.lookup x := by
  unfold eraseIfExist
  cases h : m.lookup e with
  | none =>
    split_ifs with hx
    · rw [hx, h]; rfl
    · rfl
  | some s =>
    by_cases hi : i ∈ s
    · simp [hi, lookup_insert]
    · simp only [if_neg hi, Option.map_some, SortedSet.erase_of_notMem hi]
      split_ifs with hx
      · rw [hx, h]
      · rfl

@[simp] theorem lookup_insertIfNotexist (m : EntityIdMap) (e : Str) (i : ℤ) (x : Str) :
    (insertIfNotexist m e i).lookup x =
      if x = e then some (((m.lookup e).getD ∅).insert i) else m.lookup x := by
  unfold insertIfNotexist
  cases h : m.lookup e with
  | none => simp [lookup_insert]
  | some s =>
    by_cases hi : i ∈ s
    · simp only [if_pos hi, Option.getD_some, SortedSet.insert_of_mem hi]
      split_ifs with hx
      · rw [hx, h]
      · rfl
    · simp [hi, lookup_insert]

/-! ### Which keys there are -/

theorem lookup_insertKey_eq_none {m : EntityIdMap} {e x : Str} :
    (insertKey m e).lookup x = none ↔ x ≠ e ∧ m.lookup x = none := by
  by_cases hx : x = e <;> simp [hx]

theorem lookup_eraseIfExist_eq_none {m : EntityIdMap} {e x : Str} {i : ℤ} :
    (eraseIfExist m e i).lookup x = none ↔ m.lookup x = none := by
  by_cases hx : x = e
  · simp [← hx]
  · simp [hx]

theorem lookup_insertIfNotexist_eq_none {m : EntityIdMap} {e x : Str} {i : ℤ} :
    (insertIfNotexist m e i).lookup x = none ↔ x ≠ e ∧ m.lookup x = none := by
  by_cases hx : x = e <;> simp [hx]

theorem lookup_insert_eq_none {m : EntityIdMap} {e x : Str} {s : IdSet} :
    (m.insert e s).lookup x = none ↔ x ≠ e ∧ m.lookup x = none := by
  rw [lookup_insert]
  by_cases hx : x = e <;> simp [hx]

/-! ### Which identifiers the map has -/

/-- The map has `k` among the identifiers of `x`. -/
def Has (m : EntityIdMap) (x : Str) (k : ℤ) : Prop := ∃ IDs, m.lookup x = some IDs ∧ k ∈ IDs

theorem has_of_lookup {m : EntityIdMap} {e : Str} {s : IdSet} (h : m.lookup e = some s) (k : ℤ) :
    Has m e k ↔ k ∈ s := by
  unfold Has
  rw [h]
  simp

theorem mem_getD_lookup {m : EntityIdMap} {e : Str} {k : ℤ} :
    k ∈ (m.lookup e).getD ∅ ↔ Has m e k := by
  unfold Has
  cases m.lookup e with
  | none => simp
  | some s => simp

@[simp] theorem has_insertKey {m : EntityIdMap} {e x : Str} {k : ℤ} :
    Has (insertKey m e) x k ↔ Has m x k := by
  by_cases hx : x = e
  · have hl : (insertKey m e).lookup x = some ((m.lookup e).getD ∅) := by
      rw [lookup_insertKey, if_pos hx]
    rw [has_of_lookup hl, hx, mem_getD_lookup]
  · unfold Has
    rw [lookup_insertKey, if_neg hx]

@[simp] theorem has_eraseIfExist {m : EntityIdMap} {e x : Str} {i k : ℤ} :
    Has (eraseIfExist m e i) x k ↔ Has m x k ∧ ¬ (x = e ∧ k = i) := by
  unfold Has
  rw [lookup_eraseIfExist]
  by_cases hx : x = e
  · subst hx
    cases m.lookup x with
    | none => simp
    | some s => simp [and_comm]
  · simp [hx]

@[simp] theorem has_insertIfNotexist {m : EntityIdMap} {e x : Str} {i k : ℤ} :
    Has (insertIfNotexist m e i) x k ↔ x = e ∧ k = i ∨ Has m x k := by
  by_cases hx : x = e
  · have hl : (insertIfNotexist m e i).lookup x = some (((m.lookup e).getD ∅).insert i) := by
      rw [lookup_insertIfNotexist, if_pos hx]
    rw [has_of_lookup hl, SortedSet.mem_insert, mem_getD_lookup, hx]
    simp
  · unfold Has
    rw [lookup_insertIfNotexist, if_neg hx]
    simp [hx]

/-- A set is left alone where the number is in it. -/
theorem insertIfNotexist_eq_iff {m : EntityIdMap} {e : Str} {k : ℤ} :
    insertIfNotexist m e k = m ↔ Has m e k := by
  constructor
  · intro h
    rw [← h, has_insertIfNotexist]
    exact Or.inl ⟨rfl, rfl⟩
  · rintro ⟨ids, hl, hk⟩
    unfold insertIfNotexist
    rw [hl]
    simp only [if_pos hk]

/-- A set is left alone where the number is not in it. -/
theorem eraseIfExist_eq_iff {m : EntityIdMap} {e : Str} {k : ℤ} :
    eraseIfExist m e k = m ↔ ¬ Has m e k := by
  constructor
  · intro h hhas
    rw [← h] at hhas
    exact (has_eraseIfExist.mp hhas).2 ⟨rfl, rfl⟩
  · intro h
    unfold eraseIfExist
    cases hl : m.lookup e with
    | none => rfl
    | some ids => exact if_neg fun hk => h ⟨ids, hl, hk⟩

/-- Writing back the set with one identifier more. -/
theorem has_insert {m : EntityIdMap} {e x : Str} {s : IdSet} {i k : ℤ} (h : m.lookup e = some s) :
    Has (m.insert e (s.insert i)) x k ↔ x = e ∧ k = i ∨ Has m x k := by
  by_cases hx : x = e
  · have hl : (m.insert e (s.insert i)).lookup x = some (s.insert i) := by
      rw [lookup_insert, if_pos hx]
    rw [has_of_lookup hl, SortedSet.mem_insert, hx, has_of_lookup h]
    simp
  · unfold Has
    rw [lookup_insert, if_neg hx]
    simp [hx]

/-! ### The next identifier -/

/-- **The next identifier** is the least positive one that is not taken. -/
theorem nextFree_eq_some {s : IdSet} {k : ℤ} :
    nextFree s = some k ↔ 1 ≤ k ∧ k ≤ intMax ∧ k ∉ s ∧ ∀ j, 1 ≤ j → j < k → j ∈ s := by
  unfold nextFree intMax
  rw [firstFree_eq_some]
  norm_num

theorem nextFree_eq_none {s : IdSet} : nextFree s = none ↔ ∀ j, 1 ≤ j → j ≤ intMax → j ∈ s := by
  unfold nextFree intMax
  rw [firstFree_eq_none]
  norm_num

theorem getNextId_ok {m m' : EntityIdMap} {e : Str} {k : ℤ} (h : getNextId m e = .ok (k, m')) :
    ∃ s, m.lookup e = some s ∧ nextFree s = some k ∧ m' = m.insert e (s.insert k) := by
  unfold getNextId at h
  cases hs : m.lookup e with
  | none => simp [hs] at h
  | some s =>
    cases hk : nextFree s with
    | none => simp [hs, hk] at h
    | some j =>
      simp only [hs, hk, Except.ok.injEq, Prod.mk.injEq] at h
      obtain ⟨rfl, rfl⟩ := h
      exact ⟨s, rfl, hk, rfl⟩

theorem getNextId_eq {m : EntityIdMap} {e : Str} {s : IdSet} {k : ℤ} (hs : m.lookup e = some s)
    (hk : nextFree s = some k) : getNextId m e = .ok (k, m.insert e (s.insert k)) := by
  simp [getNextId, hs, hk]

end Kachow.Api.Ids
