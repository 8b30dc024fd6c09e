import Kachow.Lib.Threads

/-! # Threads that are cut off

A process can be killed between any two steps of its threads. Run alone, a thread goes through a sequence
of states (`alongside`), and is left in one of them; `Within C` says that `C` is true of them all,
and has a rule for each way threads are put together.

In a pool whose threads keep to cells of their own, every thread leaves its cell, at every moment, in a
state it goes through alone (`run_cells`): what a killed pool leaves is known from what its threads leave
one by one. -/

namespace Kachow.Lib.Crash

open Kachow.Lib.Runs Kachow.Lib.Threads

variable {ε σ α β ι κ : Type}

/-- The thread takes a step, with nothing else there. -/
def advance : Thread ε σ α × σ → Thread ε σ α × σ
  | (.done a, s) => (.done a, s)
  | (.fail e, s) => (.fail e, s)
  | (.atom x next, s) =>
    match x.run s with
    | .ok b t => (next b, t)
    | .error e t => (.fail e, t)

/-- Where it is after some steps. -/
def alongside (t : Thread ε σ α) (s : σ) (n : ℕ) : Thread ε σ α × σ := advance^[n] (t, s)

@[simp] theorem alongside_zero (t : Thread ε σ α) (s : σ) : alongside t s 0 = (t, s) := rfl

theorem alongside_succ (t : Thread ε σ α) (s : σ) (n : ℕ) :
    alongside t s (n + 1) = advance (alongside t s n) := Function.iterate_succ_apply' advance n (t, s)

@[simp] theorem alongside_done (a : α) (s : σ) : ∀ n, alongside (.done a : Thread ε σ α) s n = (.done a, s)
  | 0 => rfl
  | n + 1 => by rw [alongside_succ, alongside_done a s n]; rfl

@[simp] theorem alongside_fail (e : ε) (s : σ) : ∀ n, alongside (.fail e : Thread ε σ α) s n = (.fail e, s)
  | 0 => rfl
  | n + 1 => by rw [alongside_succ, alongside_fail e s n]; rfl

theorem alongside_atom {x : EStateM ε σ β} {next : β → Thread ε σ α} {b : β} {s t : σ}
    (hx : x.run s = .ok b t) (n : ℕ) :
    alongside (.atom x next) s (n + 1) = alongside (next b) t n := by
  unfold alongside
  rw [Function.iterate_succ_apply]
  congr 1
  unfold advance
  simp only [hx]

theorem alongside_error {x : EStateM ε σ β} {next : β → Thread ε σ α} {e : ε} {s t : σ}
    (hx : x.run s = .error e t) (n : ℕ) : alongside (.atom x next) s (n + 1) = (.fail e, t) := by
  rw [← alongside_fail e t n]
  unfold alongside
  rw [Function.iterate_succ_apply]
  congr 1
  unfold advance
  simp only [hx]

/-- A thread that is done has come to the end it comes to alone. -/
theorem alone_of_alongside {a : α} {u : σ} : ∀ {n : ℕ} {t : Thread ε σ α} {s : σ},
    alongside t s n = (.done a, u) → t.alone.run s = .ok a u
  | 0, _, _, h => by
    obtain ⟨rfl, rfl⟩ := Prod.mk.inj h
    rfl
  | _ + 1, .done b, s, h => by
    rw [alongside_done] at h
    cases h
    rfl
  | _ + 1, .fail e, s, h => by
    rw [alongside_fail] at h
    cases h
  | n + 1, .atom x next, s, h => by
    cases hx : x.run s with
    | ok b v =>
      rw [alongside_atom hx] at h
      have ih := alone_of_alongside h
      show (x >>= fun b => (next b).alone).run s = _
      rw [EStateM.run_bind, hx]
      exact ih
    | error e v =>
      rw [alongside_error hx] at h
      cases h

/-- What is left of a thread comes to the same end. -/
theorem alone_alongside {t : Thread ε σ α} {s : σ} {a : α} {u : σ} (h : t.alone.run s = .ok a u) :
    ∀ n, (alongside t s n).1.alone.run (alongside t s n).2 = .ok a u
  | 0 => h
  | n + 1 => by
    have ih := alone_alongside h n
    rw [alongside_succ]
    generalize alongside t s n = p at ih ⊢
    obtain ⟨t', s'⟩ := p
    cases t' with
    | done b => exact ih
    | fail e => exact ih
    | atom x next =>
      obtain ⟨b, v, hx, hnext⟩ := run_bind_ok ih
      simp only [advance, hx]
      exact hnext

/-- `C` is true of every state the thread goes through alone. -/
def Within (C : σ → Prop) (t : Thread ε σ α) (s : σ) : Prop := ∀ n, C (alongside t s n).2

section Within
variable {C : σ → Prop}

theorem Within.here {t : Thread ε σ α} {s : σ} (h : Within C t s) : C s := h 0

theorem within_done (a : α) {s : σ} (hs : C s) : Within C (.done a : Thread ε σ α) s := fun n => by
  rw [alongside_done]
  exact hs

theorem within_atom {x : EStateM ε σ β} {next : β → Thread ε σ α} {b : β} {s t : σ} (hs : C s)
    (hx : x.run s = .ok b t) (ht : Within C (next b) t) : Within C (.atom x next) s
  | 0 => hs
  | n + 1 => by
    rw [alongside_atom hx]
    exact ht n

theorem within_atomic_bind {x : EStateM ε σ α} {f : α → Thread ε σ β} {a : α} {s t : σ} (hs : C s)
    (hx : x.run s = .ok a t) (ht : Within C (f a) t) : Within C (Thread.atomic x >>= f) s :=
  within_atom hs hx ht

/-- **Bind rule.** -/
theorem within_bind {f : α → Thread ε σ β} {a : α} {u : σ} (hf : Within C (f a) u) :
    ∀ {t : Thread ε σ α} {s : σ}, t.alone.run s = .ok a u → Within C t s → Within C (t >>= f) s
  | .done b, s, h, _ => by
    cases h
    exact hf
  | .fail e, s, h, _ => by cases h
  | .atom x next, s, h, ht => by
    obtain ⟨b, v, hx, hnext⟩ := run_bind_ok h
    have hrest : Within C (next b) v := by
      intro n
      have hn := ht (n + 1)
      rwa [alongside_atom hx] at hn
    exact within_atom ht.here hx (within_bind hf hnext hrest)

/-- Each of the steps keeps `C`. -/
theorem within_of_all : ∀ {t : Thread ε σ α} {s : σ},
    t.All (fun _ => True) (fun _ x => ∀ s, C s →
      (∀ b u, x.run s = .ok b u → C u) ∧ ∀ e u, x.run s = .error e u → C u) → C s → Within C t s
  | .done a, _, _, hs => within_done a hs
  | .fail e, s, _, hs => fun n => by
    rw [alongside_fail]
    exact hs
  | .atom x next, s, ht, hs => by
    cases hx : x.run s with
    | ok b u =>
      exact within_atom hs hx (within_of_all (ht.2 b ⟨s, u, trivial, hx⟩) ((ht.1 s hs).1 b u hx))
    | error e u =>
      intro n
      cases n with
      | zero => exact hs
      | succ n =>
        rw [alongside_error hx]
        exact (ht.1 s hs).2 e u hx

end Within

/-! ### Pools -/

section Pool
variable {Inv : σ → Prop} {Same : κ → σ → σ → Prop} {cell : ι → κ}

/-- Where a pool has come from `c₀`, with threads that keep to their cells: each thread is where it would
be alone after `n` steps, and has left its cell so; the other cells are as they were. -/
structure Tracks (Inv : σ → Prop) (Same : κ → σ → σ → Prop) (cell : ι → κ) (c₀ : Config ε σ α ι)
    (n : ι → ℕ) (c : Config ε σ α ι) : Prop where
  inv : Inv c.state
  alone : ∀ i, Inv (alongside (c₀.threads i) c₀.state (n i)).2
  thread : ∀ i, c.threads i = (alongside (c₀.threads i) c₀.state (n i)).1
  own : ∀ i, Same (cell i) c.state (alongside (c₀.threads i) c₀.state (n i)).2
  other : ∀ k, (∀ i, cell i ≠ k) → Same k c₀.state c.state
  all : ∀ i, (c.threads i).All Inv fun _ x => Local Inv Same (cell i) x

variable [DecidableEq ι] {c₀ c : Config ε σ α ι} {n : ι → ℕ} (hequiv : ∀ k, Equivalence (Same k))
  (hcell : Function.Injective cell) (hok : ∀ i, ∃ a u, (c₀.threads i).alone.run c₀.state = .ok a u)
include hequiv hcell hok

/-- **One step.** -/
theorem Tracks.step (h : Tracks Inv Same cell c₀ n c) (j : ι) :
    Tracks Inv Same cell c₀ (Function.update n j (n j + 1)) (c.step j) := by
  have hthread := h.thread j
  -- a thread that has ended stays where it is
  have hended : (∀ s : σ, advance (c.threads j, s) = (c.threads j, s)) → c.step j = c →
      Tracks Inv Same cell c₀ (Function.update n j (n j + 1)) (c.step j) := by
    intro hstay hstep
    have hsame : ∀ i, alongside (c₀.threads i) c₀.state (Function.update n j (n j + 1) i) =
        alongside (c₀.threads i) c₀.state (n i) := by
      intro i
      by_cases hi : i = j
      · subst hi
        rw [Function.update_self, alongside_succ]
        have hs := hstay (alongside (c₀.threads i) c₀.state (n i)).2
        rwa [hthread] at hs
      · rw [Function.update_of_ne hi]
    rw [hstep]
    exact ⟨h.inv, fun i => by rw [hsame]; exact h.alone i, fun i => by rw [hsame]; exact h.thread i,
      fun i => by rw [hsame]; exact h.own i, h.other, h.all⟩
  cases ht : c.threads j with
  | done a => exact hended (by rw [ht]; exact fun _ => rfl) (step_of_ended (Or.inl ⟨a, ht⟩))
  | fail e => exact hended (by rw [ht]; exact fun _ => rfl) (step_of_ended (Or.inr ⟨e, ht⟩))
  | atom x next =>
    obtain ⟨a, u, hu⟩ := hok j
    have hrest := alone_alongside hu (n j)
    have halone := h.alone j
    have hsame := h.own j
    have hall := h.all j
    rw [← hthread, ht] at hrest
    rw [ht] at hall
    obtain ⟨b, v, hv, -⟩ := run_bind_ok hrest
    obtain ⟨v', hv', hsame'⟩ := hall.1.agree halone h.inv ((hequiv _).symm hsame) hv
    have hadv : alongside (c₀.threads j) c₀.state (n j + 1) = (next b, v) := by
      rw [alongside_succ]
      have hpair : alongside (c₀.threads j) c₀.state (n j) =
          (.atom x next, (alongside (c₀.threads j) c₀.state (n j)).2) :=
        Prod.ext (hthread.symm.trans ht) rfl
      rw [hpair]
      simp only [advance, hv]
    have hframe : ∀ k, k ≠ cell j → Same k c.state v' := fun k hk => hall.1.frame h.inv hv' hk
    rw [step_of_ok ht hv']
    -- the thread has gone on, alone as in the pool, and the other threads are where they were
    have hother : ∀ {i}, i ≠ j → Function.update n j (n j + 1) i = n i := fun hi =>
      Function.update_of_ne hi _ _
    have hthis : Function.update n j (n j + 1) j = n j + 1 := Function.update_self ..
    refine ⟨hall.1.keeps _ _ _ h.inv hv', fun i => ?_, fun i => ?_, fun i => ?_, fun k hk => ?_, fun i => ?_⟩
    · rcases eq_or_ne i j with rfl | hi
      · rw [hthis, hadv]
        exact hall.1.keeps _ _ _ halone hv
      · rw [hother hi]
        exact h.alone i
    · show Function.update c.threads j (next b) i = _
      rcases eq_or_ne i j with rfl | hi
      · rw [hthis, hadv, Function.update_self]
      · rw [hother hi, Function.update_of_ne hi]
        exact h.thread i
    · rcases eq_or_ne i j with rfl | hi
      · rw [hthis, hadv]
        exact (hequiv _).symm hsame'
      · rw [hother hi]
        exact (hequiv _).trans ((hequiv _).symm (hframe _ (hcell.ne hi))) (h.own i)
    · exact (hequiv k).trans (h.other k hk) (hframe k (hk j).symm)
    · show (Function.update c.threads j (next b) i).All Inv _
      rcases eq_or_ne i j with rfl | hi
      · rw [Function.update_self]
        exact hall.2 b ⟨_, _, h.inv, hv'⟩
      · rw [Function.update_of_ne hi]
        exact h.all i

/-- **What a pool leaves**, whenever it is cut off. If every thread keeps to a cell of its own and would
come to its end alone, each thread has left its cell in a state that it goes through alone, and the other
cells are as they were. -/
theorem run_cells (hinv : Inv c₀.state)
    (hall : ∀ i, (c₀.threads i).All Inv fun _ x => Local Inv Same (cell i) x) (schedule : List ι) :
    ∃ n, Tracks Inv Same cell c₀ n (c₀.run schedule) := by
  have hrun : ∀ (schedule : List ι) (n : ι → ℕ) (c : Config ε σ α ι), Tracks Inv Same cell c₀ n c →
      ∃ n', Tracks Inv Same cell c₀ n' (c.run schedule) := by
    intro schedule
    induction schedule with
    | nil => exact fun n c h => ⟨n, h⟩
    | cons j schedule ih => exact fun n c h => ih _ _ (h.step hequiv hcell hok j)
  refine hrun schedule (fun _ => 0) c₀ ⟨hinv, fun _ => hinv, fun _ => rfl, fun i => ?_, fun k _ => ?_, hall⟩
  · exact (hequiv (cell i)).refl c₀.state
  · exact (hequiv k).refl c₀.state

end Pool

end Kachow.Lib.Crash
