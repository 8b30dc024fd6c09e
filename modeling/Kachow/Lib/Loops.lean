import Mathlib

/-! # Loops, turn by turn

A loop is given by its turn, which takes a state to the next one or to what the loop ends with.
`EndsAfter turn n s t` is what the loop does, with no bound on the number of turns: begun in `s` it ends
with `t`, in its `n`-th turn. A loop that goes on for ever ends after no number of turns.

* `EndsAfter.inv`: what is true at the start and kept by every turn that goes on decides how the loop
  ends;
* `Loop`: a turn with a variant, a number that every turn that goes on makes smaller. Such a loop can be
  executed (`exec`), and it ends (`endsAfter_exec`) after at most one turn more than the variant is at
  the start (`turns_le`). -/

namespace Kachow.Lib.Loops

variable {σ τ : Type*}

/-- Begun in `s`, the loop ends with `t` in its `n`-th turn. -/
inductive EndsAfter (turn : σ → σ ⊕ τ) : ℕ → σ → τ → Prop
  | last {s : σ} {t : τ} (h : turn s = .inr t) : EndsAfter turn 1 s t
  | more {n : ℕ} {s s' : σ} {t : τ} (h : turn s = .inl s') (ht : EndsAfter turn n s' t) :
      EndsAfter turn (n + 1) s t

/-- **The rule of invariants.** -/
theorem EndsAfter.inv {turn : σ → σ ⊕ τ} (I : σ → Prop) (Q : τ → Prop)
    (next : ∀ s s', I s → turn s = .inl s' → I s') (stop : ∀ s t, I s → turn s = .inr t → Q t)
    {n : ℕ} {s : σ} {t : τ} (h : EndsAfter turn n s t) (hs : I s) : Q t := by
  induction h with
  | last h => exact stop _ _ hs h
  | more h _ ih => exact ih (next _ _ hs h)

/-- A loop ends in one way only. -/
theorem EndsAfter.unique {turn : σ → σ ⊕ τ} {n : ℕ} {s : σ} {t : τ} (h : EndsAfter turn n s t) :
    ∀ {m : ℕ} {u : τ}, EndsAfter turn m s u → m = n ∧ u = t := by
  induction h with
  | last h =>
    intro m u hu
    cases hu with
    | last hu => exact ⟨rfl, Sum.inr_injective (hu.symm.trans h)⟩
    | more hu _ => exact absurd (hu.symm.trans h) (by simp)
  | more h _ ih =>
    intro m u hu
    cases hu with
    | last hu => exact absurd (hu.symm.trans h) (by simp)
    | more hu hu' =>
      obtain rfl := Sum.inl_injective (hu.symm.trans h)
      obtain ⟨rfl, rfl⟩ := ih hu'
      exact ⟨rfl, rfl⟩

/-- A loop with a variant. -/
structure Loop (σ τ : Type*) where
  turn : σ → σ ⊕ τ
  variant : σ → ℕ
  decreases : ∀ {s s' : σ}, turn s = .inl s' → variant s' < variant s

namespace Loop

variable (L : Loop σ τ)

/-- The execution of a loop whose variant is below `fuel`: the number of turns, and how it ends. -/
def execFrom : (fuel : ℕ) → (s : σ) → L.variant s < fuel → ℕ × τ
  | fuel + 1, s, hs =>
    match h : L.turn s with
    | .inr t => (1, t)
    | .inl s' =>
      let r := execFrom fuel s' (Nat.lt_of_lt_of_le (L.decreases h) (Nat.le_of_lt_succ hs))
      (r.1 + 1, r.2)

/-- The number of turns of the loop. -/
def turns (s : σ) : ℕ := (L.execFrom (L.variant s + 1) s (Nat.lt_succ_self _)).1

/-- How the loop ends. -/
def exec (s : σ) : τ := (L.execFrom (L.variant s + 1) s (Nat.lt_succ_self _)).2

variable {L}

theorem endsAfter_execFrom : ∀ (fuel : ℕ) (s : σ) (hs : L.variant s < fuel),
    EndsAfter L.turn (L.execFrom fuel s hs).1 s (L.execFrom fuel s hs).2 ∧
      (L.execFrom fuel s hs).1 ≤ fuel
  | fuel + 1, s, hs => by
    unfold execFrom
    split
    · next t h => exact ⟨.last h, Nat.le_add_left 1 fuel⟩
    · next s' h =>
      have ih := endsAfter_execFrom fuel s' (by have := L.decreases h; omega)
      exact ⟨.more h ih.1, Nat.succ_le_succ ih.2⟩

/-- **A loop with a variant ends.** -/
theorem endsAfter_exec (s : σ) : EndsAfter L.turn (L.turns s) s (L.exec s) :=
  (endsAfter_execFrom _ s _).1

/-- **Its turns are counted by the variant.** -/
theorem turns_le (s : σ) : L.turns s ≤ L.variant s + 1 := (endsAfter_execFrom _ s _).2

theorem exec_eq {n : ℕ} {s : σ} {t : τ} (h : EndsAfter L.turn n s t) : L.exec s = t :=
  (h.unique (endsAfter_exec s)).2

theorem exec_inr {s : σ} {t : τ} (h : L.turn s = .inr t) : L.exec s = t := exec_eq (.last h)

theorem exec_inl {s s' : σ} (h : L.turn s = .inl s') : L.exec s = L.exec s' :=
  exec_eq (.more h (endsAfter_exec s'))

/-- The rule of invariants, for a loop that is executed. -/
theorem exec_inv (I : σ → Prop) (Q : τ → Prop) (next : ∀ s s', I s → L.turn s = .inl s' → I s')
    (stop : ∀ s t, I s → L.turn s = .inr t → Q t) {s : σ} (hs : I s) : Q (L.exec s) :=
  (endsAfter_exec s).inv I Q next stop hs

end Loop

end Kachow.Lib.Loops
