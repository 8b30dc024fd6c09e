import Mathlib

/-! # Runs of a program with state

A program takes an input, may change its state, and gives an output or fails. `runAll` gives it inputs
one after the other, until it fails. A few rules lift facts about one step to runs of any length:

* `along_of_inv`: an invariant kept by every step whose input meets a condition, and what it implies
  for each step, hold along every run whose inputs meet the condition;
* `simulation`: a program that simulates an abstract one step by step simulates its runs;
* `lockstep`: two programs that answer alike in related states answer alike along a run;
* `outputs_map_eq_iff`: two programs whose answers look alike under a condition do so along a run exactly
  if every input meets the condition;
* `purge`: inputs can be deleted from a run, and the outputs that depend on other cells of the state do
  not change; and `purge_run`: what is left of the run comes to its end. -/

namespace Kachow.Lib.Runs

variable {ε σ ι ο : Type}

/-- A computation that has ended has gone through its first part. -/
theorem run_bind_ok {α β : Type} {x : EStateM ε σ α} {f : α → EStateM ε σ β} {s t : σ} {b : β}
    (h : (x >>= f).run s = .ok b t) : ∃ a u, x.run s = .ok a u ∧ (f a).run u = .ok b t := by
  rw [EStateM.run_bind] at h
  cases hx : x.run s with
  | ok a u => exact ⟨a, u, rfl, by rwa [hx] at h⟩
  | error e u => simp [hx] at h

/-- The same without a state. -/
theorem bind_ok {α β : Type} {x : Except ε α} {f : α → Except ε β} {b : β}
    (h : x >>= f = .ok b) : ∃ a, x = .ok a ∧ f a = .ok b := by
  cases x with
  | ok a => exact ⟨a, rfl, h⟩
  | error e => simp [bind, Except.bind] at h

/-- The outputs of the inputs, taken one after the other. -/
def runAll (step : ι → EStateM ε σ ο) : List ι → EStateM ε σ (List ο)
  | [] => pure []
  | i :: is => do
    let o ← step i
    let os ← runAll step is
    pure (o :: os)

theorem runAll_nil (step : ι → EStateM ε σ ο) (s : σ) : (runAll step []).run s = .ok [] s := rfl

theorem runAll_cons_ok {step : ι → EStateM ε σ ο} {i : ι} {is : List ι} {s s' : σ} {os : List ο}
    (h : (runAll step (i :: is)).run s = .ok os s') :
    ∃ o t os', (step i).run s = .ok o t ∧ (runAll step is).run t = .ok os' s' ∧ os = o :: os' := by
  simp only [runAll, EStateM.run_bind, EStateM.run_pure] at h
  cases h1 : (step i).run s with
  | error e t => simp [h1] at h
  | ok o t =>
    simp only [h1] at h
    cases h2 : (runAll step is).run t with
    | error e u => simp [h2] at h
    | ok os' u =>
      simp only [h2, EStateM.Result.ok.injEq] at h
      obtain ⟨rfl, rfl⟩ := h
      exact ⟨o, t, os', rfl, h2, rfl⟩

theorem runAll_cons {step : ι → EStateM ε σ ο} {i : ι} {is : List ι} {s t s' : σ} {o : ο}
    {os : List ο} (h1 : (step i).run s = .ok o t) (h2 : (runAll step is).run t = .ok os s') :
    (runAll step (i :: is)).run s = .ok (o :: os) s' := by
  simp [runAll, h1, h2]

/-- A run goes on where its first part has come. -/
theorem runAll_append {step : ι → EStateM ε σ ο} {js : List ι} :
    ∀ {is : List ι} {s t : σ} {os : List ο}, (runAll step is).run s = .ok os t →
      (runAll step (is ++ js)).run s = match (runAll step js).run t with
        | .ok qs u => .ok (os ++ qs) u
        | .error e u => .error e u
  | [], s, t, os, h => by
    rw [runAll_nil] at h
    cases h
    rw [List.nil_append]
    cases (runAll step js).run s <;> rfl
  | i :: is, s, t, os, h => by
    obtain ⟨o, u, os, h1, h2, rfl⟩ := runAll_cons_ok h
    have ih : (runAll step (is ++ js)).run u = _ := runAll_append h2
    simp only [List.cons_append, runAll, EStateM.run_bind, h1, ih]
    cases (runAll step js).run t <;> rfl

/-- A run that ends has gone through its first part. -/
theorem runAll_append_ok {step : ι → EStateM ε σ ο} {js : List ι} :
    ∀ {is : List ι} {s u : σ} {os : List ο}, (runAll step (is ++ js)).run s = .ok os u →
      ∃ os₁ t os₂, (runAll step is).run s = .ok os₁ t ∧ (runAll step js).run t = .ok os₂ u ∧
        os = os₁ ++ os₂
  | [], s, u, os, h => ⟨[], s, os, rfl, h, rfl⟩
  | i :: is, s, u, os, h => by
    obtain ⟨o, r, os', h1, h2, rfl⟩ := runAll_cons_ok h
    obtain ⟨os₁, t, os₂, h3, h4, rfl⟩ := runAll_append_ok h2
    exact ⟨o :: os₁, t, os₂, runAll_cons h1 h3, h4, rfl⟩

/-- The program ends, and `p` is true of how it ends. -/
def after {α : Type} (x : EStateM ε σ α) (s : σ) (p : α → σ → Bool) : Bool :=
  match x.run s with
  | .ok a t => p a t
  | .error _ _ => false

theorem after_iff {α : Type} {x : EStateM ε σ α} {s : σ} {p : α → σ → Bool} :
    after x s p = true ↔ ∃ a t, x.run s = .ok a t ∧ p a t = true := by
  unfold after
  cases x.run s with
  | ok a t => simp
  | error e t => simp

/-- The program throws, and `p` is true of what it throws. -/
def fails {α : Type} (x : EStateM ε σ α) (s : σ) (p : ε → Bool) : Bool :=
  match x.run s with
  | .ok _ _ => false
  | .error e _ => p e

theorem fails_iff {α : Type} {x : EStateM ε σ α} {s : σ} {p : ε → Bool} :
    fails x s p = true ↔ ∃ e t, x.run s = .error e t ∧ p e = true := by
  unfold fails
  cases x.run s with
  | ok a t => simp
  | error e t => simp

/-! ### Faults that do not happen -/

/-- No fault in `bad` happens. -/
def Avoids {α : Type} (bad : ε → Bool) (x : EStateM ε σ α) (s : σ) : Prop :=
  ∀ e t, x.run s = .error e t → bad e = false

section Avoids
variable {α β : Type} {bad : ε → Bool} {x : EStateM ε σ α} {f : α → EStateM ε σ β} {s t : σ} {a : α}

theorem avoids_of_ok (h : x.run s = .ok a t) : Avoids bad x s := by
  intro e u he
  rw [h] at he
  cases he

theorem avoids_of_error {e : ε} (h : x.run s = .error e t) : Avoids bad x s ↔ bad e = false := by
  constructor
  · exact fun hx => hx e t h
  · intro he e' u he'
    rw [h] at he'
    cases he'
    exact he

theorem not_avoids {e : ε} (h : x.run s = .error e t) (he : bad e = true) : ¬ Avoids bad x s := by
  rw [avoids_of_error h, he]
  exact Bool.true_eq_false.mp

/-- What follows a step that ends decides. -/
theorem avoids_bind_of_ok (h : x.run s = .ok a t) : Avoids bad (x >>= f) s ↔ Avoids bad (f a) t := by
  unfold Avoids
  simp only [EStateM.run_bind, h]

/-- **Bind rule.** -/
theorem avoids_bind : Avoids bad (x >>= f) s ↔
    Avoids bad x s ∧ ∀ a t, x.run s = .ok a t → Avoids bad (f a) t := by
  cases h : x.run s with
  | ok a t =>
    rw [avoids_bind_of_ok h]
    constructor
    · intro hf
      refine ⟨avoids_of_ok h, fun b u hb => ?_⟩
      cases hb
      exact hf
    · exact fun hf => hf.2 a t rfl
  | error e t =>
    have hbind : (x >>= f).run s = .error e t := by rw [EStateM.run_bind, h]
    rw [avoids_of_error hbind, avoids_of_error h]
    exact (and_iff_left fun _ _ hb => by cases hb).symm

end Avoids

/-! ### Invariants -/

/-- `P` holds of every state a run goes through and of the input it takes there. -/
def Along (step : ι → EStateM ε σ ο) (P : σ → ι → Prop) : σ → List ι → Prop
  | _, [] => True
  | s, i :: is => P s i ∧ ∀ o s', (step i).run s = .ok o s' → Along step P s' is

/-- What holds along a run holds where it has come after a part of it. -/
theorem Along.next {step : ι → EStateM ε σ ο} {P : σ → ι → Prop} :
    ∀ {is : List ι} {i : ι} {s t : σ} {os : List ο}, Along step P s (is ++ [i]) →
      (runAll step is).run s = .ok os t → P t i
  | [], _, _, _, _, h, hr => by
    rw [runAll_nil] at hr
    cases hr
    exact h.1
  | _ :: _, _, _, _, _, h, hr => by
    obtain ⟨o, u, _, h1, h2, -⟩ := runAll_cons_ok hr
    exact Along.next (h.2 o u h1) h2

/-- **Invariant rule.** What an invariant implies for a step holds along every run whose inputs meet the
condition under which the steps keep the invariant. -/
theorem along_of_inv {step : ι → EStateM ε σ ο} {Inv : σ → Prop} {Cond Good : σ → ι → Prop}
    (hgood : ∀ s i, Inv s → Cond s i → Good s i)
    (hstep : ∀ s i o s', Inv s → Cond s i → (step i).run s = .ok o s' → Inv s') :
    ∀ {is : List ι} {s : σ}, Inv s → Along step Cond s is → Along step Good s is
  | [], _, _, _ => trivial
  | i :: _, s, hs, hc =>
    ⟨hgood s i hs hc.1, fun o s' ho =>
      along_of_inv hgood hstep (hstep s i o s' hs hc.1 ho) (hc.2 o s' ho)⟩

/-- Conditions that are the same for each step are the same along every run. -/
theorem along_congr {step : ι → EStateM ε σ ο} {P Q : σ → ι → Prop} (h : ∀ s i, P s i ↔ Q s i) :
    ∀ {is : List ι} {s : σ}, Along step P s is ↔ Along step Q s is
  | [], _ => Iff.rfl
  | i :: is, s => by
    unfold Along
    exact and_congr (h s i) (forall_congr' fun o => forall_congr' fun s' =>
      imp_congr_right fun _ => along_congr h)

/-- What every step keeps, whatever its input, and what this implies holds along every run. -/
theorem along_of_step {step : ι → EStateM ε σ ο} {Inv : σ → Prop} {Good : σ → ι → Prop}
    (hgood : ∀ s i, Inv s → Good s i)
    (hstep : ∀ s i o s', Inv s → (step i).run s = .ok o s' → Inv s') :
    ∀ {is : List ι} {s : σ}, Inv s → Along step Good s is
  | [], _, _ => trivial
  | i :: _, s, hs => ⟨hgood s i hs, fun o s' ho => along_of_step hgood hstep (hstep s i o s' hs ho)⟩

/-- What every step of a fold keeps, the fold keeps. -/
theorem foldlM_inv {α β : Type} {f : β → α → EStateM ε σ β} {Inv : β → σ → Prop}
    (hstep : ∀ b a s b' s', Inv b s → (f b a).run s = .ok b' s' → Inv b' s') :
    ∀ {l : List α} {b b' : β} {s s' : σ}, Inv b s → (l.foldlM f b).run s = .ok b' s' → Inv b' s'
  | [], _, _, _, _, hb, h => by
    cases h
    exact hb
  | a :: l, b, b', s, s', hb, h => by
    rw [List.foldlM_cons] at h
    obtain ⟨c, t, h1, h2⟩ := run_bind_ok h
    exact foldlM_inv hstep (hstep b a s c t hb h1) h2

/-- Every step of a run that ends has ended. -/
theorem along_of_run {step : ι → EStateM ε σ ο} : ∀ {is : List ι} {s s' : σ} {os : List ο},
    (runAll step is).run s = .ok os s' → Along step (fun s i => ∃ o s', (step i).run s = .ok o s') s is
  | [], _, _, _, _ => trivial
  | i :: is, s, s', os, h => by
    obtain ⟨o, t, os', h1, h2, -⟩ := runAll_cons_ok h
    refine ⟨⟨o, t, h1⟩, fun o' t' h1' => ?_⟩
    rw [h1] at h1'
    cases h1'
    exact along_of_run h2

/-- The invariant holds where such a run ends. -/
theorem inv_of_run {step : ι → EStateM ε σ ο} {Inv : σ → Prop} {Cond : σ → ι → Prop}
    (hstep : ∀ s i o s', Inv s → Cond s i → (step i).run s = .ok o s' → Inv s') :
    ∀ {is : List ι} {s s' : σ} {os : List ο}, Inv s → Along step Cond s is →
      (runAll step is).run s = .ok os s' → Inv s'
  | [], s, s', os, hs, _, h => by
    rw [runAll_nil] at h
    cases h
    exact hs
  | i :: _, s, _, _, hs, hc, h => by
    obtain ⟨o, t, _, h1, h2, -⟩ := runAll_cons_ok h
    exact inv_of_run hstep (hstep s i o t hs hc.1 h1) (hc.2 o t h1) h2

/-- Inputs on which the invariant guarantees an outcome are run to the end. -/
theorem run_ok_of_inv {step : ι → EStateM ε σ ο} {Inv : σ → Prop} {Cond : σ → ι → Prop}
    (hok : ∀ s i, Inv s → Cond s i → ∃ o s', (step i).run s = .ok o s' ∧ Inv s') :
    ∀ {is : List ι} {s : σ}, Inv s → Along step Cond s is →
      ∃ os s', (runAll step is).run s = .ok os s' ∧ Inv s'
  | [], s, hs, _ => ⟨[], s, rfl, hs⟩
  | i :: _, s, hs, hc => by
    obtain ⟨o, t, h1, ht⟩ := hok s i hs hc.1
    obtain ⟨os, s', h2, hs'⟩ := run_ok_of_inv hok ht (hc.2 o t h1)
    exact ⟨o :: os, s', runAll_cons h1 h2, hs'⟩

/-! ### Erasure -/

section Erasure
variable {τ α β : Type} {f : τ → σ}

/-- How a program ends, where only a part of the state is seen. -/
def mapState (f : τ → σ) : EStateM.Result ε τ α → EStateM.Result ε σ α
  | .ok a t => .ok a (f t)
  | .error e t => .error e (f t)

/-- The first program does what the second does on the part of the state that the second one sees. -/
def Erases (f : τ → σ) (x : EStateM ε τ α) (y : EStateM ε σ α) : Prop :=
  ∀ t, mapState f (x.run t) = y.run (f t)

theorem erases_pure (a : α) : Erases f (pure a : EStateM ε τ α) (pure a) := fun _ => rfl

/-- **Bind rule.** -/
theorem erases_bind {x : EStateM ε τ α} {y : EStateM ε σ α} {g : α → EStateM ε τ β}
    {k : α → EStateM ε σ β} (hx : Erases f x y) (hg : ∀ a, Erases f (g a) (k a)) :
    Erases f (x >>= g) (y >>= k) := by
  intro t
  have ht := hx t
  rw [EStateM.run_bind, EStateM.run_bind, ← ht]
  cases x.run t with
  | ok a u => exact hg a u
  | error e u => rfl

theorem erases_ite {p : Prop} {_ : Decidable p} {x x' : EStateM ε τ α} {y y' : EStateM ε σ α}
    (h : Erases f x y) (h' : Erases f x' y') : Erases f (if p then x else x') (if p then y else y') := by
  split_ifs
  · exact h
  · exact h'

/-- Where the second program ends, the first ends. -/
theorem Erases.ok {x : EStateM ε τ α} {y : EStateM ε σ α} (h : Erases f x y) {t : τ} {a : α} {s : σ}
    (hy : y.run (f t) = .ok a s) : ∃ u, x.run t = .ok a u ∧ f u = s := by
  have ht := h t
  rw [hy] at ht
  cases hx : x.run t with
  | ok b u =>
    rw [hx] at ht
    cases ht
    exact ⟨u, rfl, rfl⟩
  | error e u =>
    rw [hx] at ht
    cases ht

end Erasure

/-! ### Simulation -/

/-- The run of an abstract program; it has no run where it has no step. -/
def runAbs {α ω : Type} (astep : α → ι → Option (ω × α)) : α → List ι → Option (List ω × α)
  | a, [] => some ([], a)
  | a, i :: is => do
    let (o, a') ← astep a i
    let (os, a'') ← runAbs astep a' is
    pure (o :: os, a'')

/-- **Simulation rule.** If every step of the abstract program is matched by a step with the same
observation, so is every run. -/
theorem simulation {α ω : Type} {step : ι → EStateM ε σ ο} {astep : α → ι → Option (ω × α)}
    {obs : ι → ο → ω} {R : σ → α → Prop}
    (hstep : ∀ s a i w a', R s a → astep a i = some (w, a') →
      ∃ o s', (step i).run s = .ok o s' ∧ obs i o = w ∧ R s' a') :
    ∀ {is : List ι} {s : σ} {a : α} {ws : List ω} {a' : α}, R s a →
      runAbs astep a is = some (ws, a') →
      ∃ os s', (runAll step is).run s = .ok os s' ∧ List.zipWith obs is os = ws ∧ R s' a'
  | [], s, a, ws, a', hR, h => by
    simp only [runAbs, Option.some.injEq, Prod.mk.injEq] at h
    obtain ⟨rfl, rfl⟩ := h
    exact ⟨[], s, rfl, rfl, hR⟩
  | i :: is, s, a, ws, a', hR, h => by
    simp only [runAbs, Option.bind_eq_bind, Option.bind_eq_some_iff, Prod.exists,
      Option.pure_def, Option.some.injEq, Prod.mk.injEq] at h
    obtain ⟨w, b, hw, ws', c, hrun, rfl, rfl⟩ := h
    obtain ⟨o, t, h1, ho, ht⟩ := hstep s a i w b hR hw
    obtain ⟨os, s', h2, hos, hs'⟩ := simulation hstep ht hrun
    exact ⟨o :: os, s', runAll_cons h1 h2, by simp [ho, hos], hs'⟩

/-- **Backward rule.** If every step that ends is one of the abstract program, so is every run. -/
theorem simulation_back {α ω : Type} {step : ι → EStateM ε σ ο} {astep : α → ι → Option (ω × α)}
    {R : σ → α → Prop}
    (hstep : ∀ s a i o s', R s a → (step i).run s = .ok o s' →
      ∃ w a', astep a i = some (w, a') ∧ R s' a') :
    ∀ {is : List ι} {s s' : σ} {a : α} {os : List ο}, R s a → (runAll step is).run s = .ok os s' →
      ∃ ws a', runAbs astep a is = some (ws, a') ∧ R s' a'
  | [], s, s', a, os, hR, h => by
    rw [runAll_nil] at h
    cases h
    exact ⟨[], a, rfl, hR⟩
  | i :: is, s, s', a, os, hR, h => by
    obtain ⟨o, t, os', h1, h2, -⟩ := runAll_cons_ok h
    obtain ⟨w, b, hb, hR'⟩ := hstep s a i o t hR h1
    obtain ⟨ws, c, hc, hR''⟩ := simulation_back hstep hR' h2
    exact ⟨w :: ws, c, by simp [runAbs, hb, hc], hR''⟩

/-- What an abstract step does to a property of the state, an abstract run does. -/
theorem runAbs_iff {α ω : Type} {astep : α → ι → Option (ω × α)} {P : α → Prop} {Q : ι → Prop}
    (hstep : ∀ a i w a', astep a i = some (w, a') → (P a' ↔ P a ∨ Q i)) :
    ∀ {is : List ι} {a a' : α} {ws : List ω}, runAbs astep a is = some (ws, a') →
      (P a' ↔ P a ∨ ∃ i ∈ is, Q i)
  | [], a, a', ws, h => by
    simp only [runAbs, Option.some.injEq, Prod.mk.injEq] at h
    simp [h.2]
  | i :: is, a, a', ws, h => by
    simp only [runAbs, Option.bind_eq_bind, Option.bind_eq_some_iff, Prod.exists,
      Option.pure_def, Option.some.injEq, Prod.mk.injEq] at h
    obtain ⟨w, b, hw, ws', c, hrun, -, rfl⟩ := h
    rw [runAbs_iff hstep hrun, hstep a i w b hw, List.exists_mem_cons_iff, or_assoc]

/-- **Lockstep rule.** Two programs with related states that answer alike go on to answer alike. -/
theorem lockstep {τ : Type} {step : ι → EStateM ε σ ο} {step' : ι → EStateM ε τ ο}
    {R : σ → τ → Prop} {Cond : σ → ι → Prop}
    (hstep : ∀ s t i, R s t → Cond s i →
      ∃ o s' t', (step i).run s = .ok o s' ∧ (step' i).run t = .ok o t' ∧ R s' t') :
    ∀ {is : List ι} {s : σ} {t : τ}, R s t → Along step Cond s is →
      ∃ os s' t', (runAll step is).run s = .ok os s' ∧ (runAll step' is).run t = .ok os t' ∧ R s' t'
  | [], s, t, hR, _ => ⟨[], s, t, rfl, rfl, hR⟩
  | i :: is, s, t, hR, hc => by
    obtain ⟨o, u, v, h1, h1', hR'⟩ := hstep s t i hR hc.1
    obtain ⟨os, s', t', h2, h2', hR''⟩ := lockstep hstep hR' (hc.2 o u h1)
    exact ⟨o :: os, s', t', runAll_cons h1 h2, runAll_cons h1' h2', hR''⟩

/-! ### Steps with more than one outcome -/

section Relation
variable {α : Type} {rel : α → ι → ο → α → Prop} {a b : α} {is : List ι} {os : List ο}

/-- A relation leads from one state to another, over inputs and outputs. -/
inductive RunsTo (rel : α → ι → ο → α → Prop) : α → List ι → List ο → α → Prop
  | nil (a : α) : RunsTo rel a [] [] a
  | cons {a b c : α} {i : ι} {o : ο} {is : List ι} {os : List ο} (h : rel a i o b)
      (hs : RunsTo rel b is os c) : RunsTo rel a (i :: is) (o :: os) c

/-- **Simulation rule for relations.** If every step whose input meets a condition is one of the relation,
so is every run. -/
theorem simulation_rel {step : ι → EStateM ε σ ο} {R : σ → α → Prop} {Cond : σ → ι → Prop}
    (hstep : ∀ s a i, R s a → Cond s i →
      ∃ o s' a', (step i).run s = .ok o s' ∧ rel a i o a' ∧ R s' a') :
    ∀ {is : List ι} {s : σ} {a : α}, R s a → Along step Cond s is →
      ∃ os s' a', (runAll step is).run s = .ok os s' ∧ RunsTo rel a is os a' ∧ R s' a'
  | [], s, a, hR, _ => ⟨[], s, a, rfl, .nil a, hR⟩
  | i :: is, s, a, hR, hc => by
    obtain ⟨o, t, b, h1, hrel, hR'⟩ := hstep s a i hR hc.1
    obtain ⟨os, s', a', h2, hrun, hR''⟩ := simulation_rel hstep hR' (hc.2 o t h1)
    exact ⟨o :: os, s', a', runAll_cons h1 h2, .cons hrel hrun, hR''⟩

/-- What the steps keep, a run keeps. -/
theorem RunsTo.inv {P : α → Prop} {Q : ι → Prop} (hstep : ∀ a i o b, rel a i o b → Q i → P a → P b)
    (h : RunsTo rel a is os b) (hQ : ∀ i ∈ is, Q i) (hP : P a) : P b := by
  induction h with
  | nil a => exact hP
  | cons hrel _ ih =>
    exact ih (fun i hi => hQ i (List.mem_cons_of_mem _ hi)) (hstep _ _ _ _ hrel (hQ _ (by simp)) hP)

/-- A run goes through each of its steps. -/
theorem RunsTo.split {i : ι} {js : List ι} {o : ο} {qs : List ο} :
    ∀ {is : List ι} {os : List ο} {a b : α}, os.length = is.length →
      RunsTo rel a (is ++ i :: js) (os ++ o :: qs) b →
        ∃ c d, RunsTo rel a is os c ∧ rel c i o d ∧ RunsTo rel d js qs b
  | [], [], a, b, _, h => by
    cases h with
    | cons hrel hrest => exact ⟨a, _, .nil a, hrel, hrest⟩
  | k :: is, p :: os, a, b, hlen, h => by
    cases h with
    | cons hrel hrest =>
      obtain ⟨c, d, h1, h2, h3⟩ := RunsTo.split (by simpa using hlen) hrest
      exact ⟨c, d, .cons hrel h1, h2, h3⟩
  | [], _ :: _, _, _, hlen, _ => by simp at hlen
  | _ :: _, [], _, _, hlen, _ => by simp at hlen

end Relation

/-! ### Comparing outputs -/

/-- The outputs a run gives, up to its first fault. -/
def outputs (step : ι → EStateM ε σ ο) : List ι → σ → List ο
  | [], _ => []
  | i :: is, s =>
    match (step i).run s with
    | .ok o s' => o :: outputs step is s'
    | .error _ _ => []

/-- A step of one program and the same step of another: both fail, or both end, and then what is seen of
their outputs is the same if and only if `cond` holds, and the relation `R` is kept where it does. -/
def Compares {ο' τ ω : Type} (x : EStateM ε σ ο) (y : EStateM ε τ ο') (see : ο → ω) (see' : ο' → ω)
    (R : σ → τ → Prop) (cond : Prop) (s : σ) (t : τ) : Prop :=
  (∃ e s' e' t', x.run s = .error e s' ∧ y.run t = .error e' t' ∧ cond) ∨
  ∃ o s' o' t', x.run s = .ok o s' ∧ y.run t = .ok o' t' ∧ (see o = see' o' ↔ cond) ∧
    (cond → R s' t')

/-- **Comparison rule.** Two programs whose steps compare under a condition give outputs which look the
same exactly if every input meets the condition. -/
theorem outputs_map_eq_iff {ο' τ ω : Type} {step : ι → EStateM ε σ ο} {step' : ι → EStateM ε τ ο'}
    {see : ο → ω} {see' : ο' → ω} {R : σ → τ → Prop} {Cond : σ → ι → Prop}
    (hstep : ∀ s t i, R s t → Compares (step i) (step' i) see see' R (Cond s i) s t) :
    ∀ {is : List ι} {s : σ} {t : τ}, R s t →
      ((outputs step is s).map see = (outputs step' is t).map see' ↔ Along step Cond s is)
  | [], _, _, _ => iff_of_true rfl trivial
  | i :: is, s, t, hR => by
    unfold outputs
    rcases hstep s t i hR with ⟨e, u, e', u', h, h', hc⟩ | ⟨o, u, o', u', h, h', hsee, hkeep⟩
    · rw [h, h']
      refine iff_of_true rfl ⟨hc, fun o v ho => ?_⟩
      rw [h] at ho
      cases ho
    · rw [h, h']
      simp only [List.map_cons, List.cons.injEq, hsee]
      constructor
      · rintro ⟨hc, hrest⟩
        refine ⟨hc, fun p v hp => ?_⟩
        rw [h] at hp
        cases hp
        exact (outputs_map_eq_iff hstep (hkeep hc)).mp hrest
      · rintro ⟨hc, hrest⟩
        exact ⟨hc, (outputs_map_eq_iff hstep (hkeep hc)).mpr (hrest o u h)⟩

/-! ### Deleting inputs -/

/-- The outputs of the inputs in `obs`. -/
def outputsOf (obs : ι → Bool) (is : List ι) (os : List ο) : List ο :=
  ((is.zip os).filter (obs ·.1)).map Prod.snd

/-- The state consists of cells, and an input uses at most one: it leaves the others alone, and what it
does depends on its own cell only. `Same x` says that two states have the same in the cell `x`. -/
structure OneCell {κ : Type} (step : ι → EStateM ε σ ο) (Same : κ → σ → σ → Prop)
    (cell : ι → Option κ) : Prop where
  equiv : ∀ x, Equivalence (Same x)
  frame : ∀ {i s o s' x}, (step i).run s = .ok o s' → cell i ≠ some x → Same x s s'
  agree : ∀ {i s t o o' s' t'}, (∀ x, cell i = some x → Same x s t) → (step i).run s = .ok o s' →
    (step i).run t = .ok o' t' → o = o' ∧ ∀ x, cell i = some x → Same x s' t'

/-- **Purging rule.** The inputs outside `keep` use cells in `Q` only, and those in `obs` none of them;
then deleting the former does not change the outputs of the latter. -/
theorem purge {κ : Type} {step : ι → EStateM ε σ ο} {Same : κ → σ → σ → Prop} {cell : ι → Option κ}
    (hcell : OneCell step Same cell) {keep obs : ι → Bool} {Q : κ → Prop}
    (hobs : ∀ i, obs i = true → keep i = true) :
    ∀ {is : List ι} {s t s' t' : σ} {os os' : List ο},
      (∀ i ∈ is, keep i = false → ∀ x, cell i = some x → Q x) →
      (∀ i ∈ is, obs i = true → ∀ x, cell i = some x → ¬ Q x) → (∀ x, ¬ Q x → Same x s t) →
      (runAll step is).run s = .ok os s' → (runAll step (is.filter keep)).run t = .ok os' t' →
      outputsOf obs is os = outputsOf obs (is.filter keep) os'
  | [], _, _, _, _, _, _, _, _, _, _, _ => by simp [outputsOf]
  | i :: is, s, t, s', t', os, os', hdel, hsee, hst, h, h' => by
    obtain ⟨o, u, os₁, h1, h2, rfl⟩ := runAll_cons_ok h
    have hdel' := fun j hj => hdel j (List.mem_cons_of_mem i hj)
    have hsee' := fun j hj => hsee j (List.mem_cons_of_mem i hj)
    cases hk : keep i with
    | false =>
      have ho : obs i = false := by
        by_contra hc
        rw [hobs i (by simpa using hc)] at hk
        exact absurd hk (by simp)
      have hut : ∀ x, ¬ Q x → Same x u t := fun x hx =>
        (hcell.equiv x).trans ((hcell.equiv x).symm
          (hcell.frame h1 fun hi => hx (hdel i (by simp) hk x hi))) (hst x hx)
      rw [List.filter_cons_of_neg (by simp [hk])] at h' ⊢
      have ih := purge hcell hobs hdel' hsee' hut h2 h'
      rw [← ih]
      simp [outputsOf, ho]
    | true =>
      rw [List.filter_cons_of_pos hk] at h' ⊢
      obtain ⟨o', u', os₂, h1', h2', rfl⟩ := runAll_cons_ok h'
      -- a cell outside `Q` is the one the input uses, or is left alone by both steps
      have hagree : (∀ x, cell i = some x → ¬ Q x) → o = o' ∧ ∀ x, cell i = some x → Same x u u' :=
        fun hQ => hcell.agree (fun x hx => hst x (hQ x hx)) h1 h1'
      have huu : ∀ x, ¬ Q x → Same x u u' := by
        intro x hx
        by_cases hi : cell i = some x
        · refine (hagree fun y hy => ?_).2 x hi
          rw [hi, Option.some.injEq] at hy
          exact hy ▸ hx
        · exact (hcell.equiv x).trans ((hcell.equiv x).symm (hcell.frame h1 hi))
            ((hcell.equiv x).trans (hst x hx) (hcell.frame h1' hi))
      have ih := purge hcell hobs hdel' hsee' huu h2 h2'
      simp only [outputsOf] at ih
      cases ho : obs i with
      | false => simp [outputsOf, ho, ih]
      | true =>
        obtain ⟨rfl, -⟩ := hagree (hsee i (by simp) ho)
        simp [outputsOf, ho, ih]

/-- **The rest of a run goes on** without the inputs that are deleted, where the cell of an input also
decides whether its step ends. -/
theorem purge_run {κ : Type} {step : ι → EStateM ε σ ο} {Same : κ → σ → σ → Prop} {cell : ι → Option κ}
    (hcell : OneCell step Same cell)
    (hok : ∀ {i s t o s'}, (∀ x, cell i = some x → Same x s t) → (step i).run s = .ok o s' →
      ∃ o' t', (step i).run t = .ok o' t') {keep : ι → Bool} {Q : κ → Prop} :
    ∀ {is : List ι} {s t s' : σ} {os : List ο},
      (∀ i ∈ is, keep i = false → ∀ x, cell i = some x → Q x) →
      (∀ i ∈ is, keep i = true → ∀ x, cell i = some x → ¬ Q x) → (∀ x, ¬ Q x → Same x s t) →
      (runAll step is).run s = .ok os s' → ∃ os' t', (runAll step (is.filter keep)).run t = .ok os' t'
  | [], _, t, _, _, _, _, _, _ => ⟨[], t, rfl⟩
  | i :: is, s, t, s', os, hdel, hsee, hst, h => by
    obtain ⟨o, u, os₁, h1, h2, -⟩ := runAll_cons_ok h
    have hdel' := fun j hj => hdel j (List.mem_cons_of_mem i hj)
    have hsee' := fun j hj => hsee j (List.mem_cons_of_mem i hj)
    cases hk : keep i with
    | false =>
      have hut : ∀ x, ¬ Q x → Same x u t := fun x hx =>
        (hcell.equiv x).trans ((hcell.equiv x).symm
          (hcell.frame h1 fun hi => hx (hdel i (by simp) hk x hi))) (hst x hx)
      rw [List.filter_cons_of_neg (by simp [hk])]
      exact purge_run hcell hok hdel' hsee' hut h2
    | true =>
      have hsame : ∀ x, cell i = some x → Same x s t := fun x hx => hst x (hsee i (by simp) hk x hx)
      obtain ⟨o', u', h1'⟩ := hok hsame h1
      have huu : ∀ x, ¬ Q x → Same x u u' := by
        intro x hx
        by_cases hi : cell i = some x
        · exact (hcell.agree hsame h1 h1').2 x hi
        · exact (hcell.equiv x).trans ((hcell.equiv x).symm (hcell.frame h1 hi))
            ((hcell.equiv x).trans (hst x hx) (hcell.frame h1' hi))
      obtain ⟨os', t', h2'⟩ := purge_run hcell hok hdel' hsee' huu h2
      rw [List.filter_cons_of_pos hk]
      exact ⟨_, t', runAll_cons h1' h2'⟩

/-- The outputs of the inputs that are kept are all there are. -/
theorem outputsOf_filter (obs : ι → Bool) : ∀ {is : List ι} {os : List ο}, os.length = is.length →
    (∀ i ∈ is, obs i = true) → outputsOf obs is os = os
  | [], [], _, _ => rfl
  | i :: is, o :: os, hlen, hobs => by
    have ih : outputsOf obs is os = os := outputsOf_filter obs (by simpa using hlen) fun j hj =>
      hobs j (List.mem_cons_of_mem i hj)
    unfold outputsOf at ih ⊢
    rw [List.zip_cons_cons, List.filter_cons_of_pos (by exact hobs i (by simp)), List.map_cons, ih]
  | [], _ :: _, hlen, _ => by simp at hlen
  | _ :: _, [], hlen, _ => by simp at hlen

/-- A run gives as many outputs as it takes inputs. -/
theorem length_of_runAll {step : ι → EStateM ε σ ο} : ∀ {is : List ι} {s s' : σ} {os : List ο},
    (runAll step is).run s = .ok os s' → os.length = is.length
  | [], s, s', os, h => by
    rw [runAll_nil] at h
    cases h
    rfl
  | i :: is, s, s', os, h => by
    obtain ⟨o, t, os', -, h2, rfl⟩ := runAll_cons_ok h
    rw [List.length_cons, List.length_cons, length_of_runAll h2]

end Kachow.Lib.Runs
