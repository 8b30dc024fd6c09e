import Kachow.Lib.Runs

/-! # Threads that share a state

A thread is a program cut into atomic steps (`Thread`). The threads of a pool share one state: the
scheduler names a thread, and it takes its next step (`Config.step`), until it is done or has failed.
Taken without a break, the steps of a thread are a program again (`Thread.alone`), and the threads can be
run one after the other (`serial`).

A step moves before another if taking it first makes no difference (`MovesBefore`). If the steps of every
thread move before those of the others, every schedule comes to what the threads do one after the other,
in any order (`one_outcome`). This is so where each thread keeps to a cell of its own
(`independent_of_local`). -/

namespace Kachow.Lib.Threads

open Kachow.Lib.Runs

/-- A program, cut into atomic steps. -/
inductive Thread (ε σ α : Type) : Type 1 where
  | done (a : α)
  | fail (e : ε)
  | atom {β : Type} (x : EStateM ε σ β) (next : β → Thread ε σ α)

variable {ε σ α β γ ι κ : Type}

namespace Thread

/-- One thread after the other. -/
def bind : Thread ε σ α → (α → Thread ε σ β) → Thread ε σ β
  | .done a, f => f a
  | .fail e, _ => .fail e
  | .atom x next, f => .atom x fun b => bind (next b) f

instance : Monad (Thread ε σ) where
  pure := .done
  bind := bind

/-- One atomic step. -/
def atomic (x : EStateM ε σ α) : Thread ε σ α := .atom x .done

/-- What the thread does if nothing comes in between. -/
def alone : Thread ε σ α → EStateM ε σ α
  | .done a => pure a
  | .fail e => throw e
  | .atom x next => x >>= fun b => alone (next b)

@[simp] theorem alone_pure (a : α) : (pure a : Thread ε σ α).alone = pure a := rfl

@[simp] theorem alone_fail (e : ε) : (.fail e : Thread ε σ α).alone = throw e := rfl

@[simp] theorem alone_atomic (x : EStateM ε σ α) : (atomic x).alone = x := bind_pure x

/-- **The steps of two threads, one after the other.** -/
@[simp] theorem alone_bind (t : Thread ε σ α) (f : α → Thread ε σ β) :
    (t >>= f).alone = t.alone >>= fun a => (f a).alone := by
  show (bind t f).alone = _
  induction t with
  | done a => rfl
  | fail e => rfl
  | atom x next ih =>
    simp only [bind, alone, bind_assoc]
    exact congrArg (x >>= ·) (funext ih)

@[simp] theorem alone_ite {p : Prop} {_ : Decidable p} (t u : Thread ε σ α) :
    (if p then t else u).alone = if p then t.alone else u.alone := apply_ite alone p t u

/-- The step can have this result in a state with the invariant. -/
def Gives (Inv : σ → Prop) (x : EStateM ε σ β) (b : β) : Prop := ∃ s t, Inv s ∧ x.run s = .ok b t

/-- `P` is true of every step the thread can come to while the invariant holds. -/
def All (Inv : σ → Prop) (P : ∀ β : Type, EStateM ε σ β → Prop) : Thread ε σ α → Prop
  | .done _ => True
  | .fail _ => True
  | .atom x next => P _ x ∧ ∀ b, Gives Inv x b → All Inv P (next b)

section All
variable {Inv : σ → Prop} {P Q : ∀ β : Type, EStateM ε σ β → Prop}

theorem All.mono (h : ∀ β x, P β x → Q β x) : ∀ {t : Thread ε σ α}, t.All Inv P → t.All Inv Q
  | .done _, _ => trivial
  | .fail _, _ => trivial
  | .atom _ _, ht => ⟨h _ _ ht.1, fun b hb => All.mono h (ht.2 b hb)⟩

theorem all_pure (a : α) : (pure a : Thread ε σ α).All Inv P := trivial

theorem all_atomic {x : EStateM ε σ α} (h : P α x) : (atomic x).All Inv P := ⟨h, fun _ _ => trivial⟩

theorem all_atomic_bind {x : EStateM ε σ α} {f : α → Thread ε σ β} (h : P α x)
    (hf : ∀ a, Gives Inv x a → (f a).All Inv P) : (atomic x >>= f).All Inv P := ⟨h, hf⟩

theorem all_bind {f : α → Thread ε σ β} (hf : ∀ a, (f a).All Inv P) :
    ∀ {t : Thread ε σ α}, t.All Inv P → (t >>= f).All Inv P
  | .done a, _ => hf a
  | .fail _, _ => trivial
  | .atom _ _, ht => ⟨ht.1, fun b hb => all_bind hf (ht.2 b hb)⟩

end All

end Thread

/-! ### Pools -/

/-- A pool of threads, and the state they share. -/
structure Config (ε σ α ι : Type) : Type 1 where
  state : σ
  threads : ι → Thread ε σ α

section Pool
variable [DecidableEq ι] {c : Config ε σ α ι} {i : ι}

/-- The thread takes its next step; one that has ended stays as it is. -/
def Config.step (c : Config ε σ α ι) (i : ι) : Config ε σ α ι :=
  match c.threads i with
  | .done _ => c
  | .fail _ => c
  | .atom x next =>
    match x.run c.state with
    | .ok b s => ⟨s, Function.update c.threads i (next b)⟩
    | .error e s => ⟨s, Function.update c.threads i (.fail e)⟩

/-- The threads take steps as the schedule says. -/
def Config.run (c : Config ε σ α ι) (schedule : List ι) : Config ε σ α ι := schedule.foldl Config.step c

theorem Config.run_append (c : Config ε σ α ι) (is js : List ι) :
    c.run (is ++ js) = (c.run is).run js := List.foldl_append

theorem step_of_ok {x : EStateM ε σ β} {next : β → Thread ε σ α} {b : β} {s : σ}
    (ht : c.threads i = .atom x next) (hx : x.run c.state = .ok b s) :
    c.step i = ⟨s, Function.update c.threads i (next b)⟩ := by
  unfold Config.step
  rw [ht]
  simp only [hx]

theorem step_of_error {x : EStateM ε σ β} {next : β → Thread ε σ α} {e : ε} {s : σ}
    (ht : c.threads i = .atom x next) (hx : x.run c.state = .error e s) :
    c.step i = ⟨s, Function.update c.threads i (.fail e)⟩ := by
  unfold Config.step
  rw [ht]
  simp only [hx]

theorem step_of_ended (ht : (∃ a, c.threads i = .done a) ∨ ∃ e, c.threads i = .fail e) :
    c.step i = c := by
  unfold Config.step
  rcases ht with ⟨a, ha⟩ | ⟨e, he⟩
  · rw [ha]
  · rw [he]

/-- A thread can be run to its end. -/
theorem run_replicate {a : α} {s : σ} : ∀ {t : Thread ε σ α} {c : Config ε σ α ι},
    c.threads i = t → t.alone.run c.state = .ok a s →
      ∃ n, c.run (List.replicate n i) = ⟨s, Function.update c.threads i (.done a)⟩
  | .done _, c, ht, h => by
    cases h
    refine ⟨0, ?_⟩
    rw [← ht, Function.update_eq_self]
    rfl
  | .fail _, _, _, h => by cases h
  | .atom x next, c, ht, h => by
    obtain ⟨b, u, hx, hnext⟩ := run_bind_ok h
    have hstep := step_of_ok ht hx
    obtain ⟨n, hn⟩ := @run_replicate a s (next b) (c.step i) (by rw [hstep]; exact Function.update_self ..)
      (by rw [hstep]; exact hnext)
    refine ⟨n + 1, ?_⟩
    rw [List.replicate_succ]
    show (c.step i).run _ = _
    rw [hn, hstep, Function.update_idem]

end Pool

/-- The threads, one after the other. -/
def serial (threads : ι → Thread ε σ α) (order : List ι) : EStateM ε σ (List α) :=
  runAll (fun i => (threads i).alone) order

/-! ### Steps that move before others -/

/-- The program keeps the invariant. -/
def Keeps (Inv : σ → Prop) (x : EStateM ε σ β) : Prop := ∀ s b t, Inv s → x.run s = .ok b t → Inv t

/-- Where `y` and then `x` ends, `x` and then `y` ends, with the same results and in the same state. -/
def MovesBefore (Inv : σ → Prop) (x : EStateM ε σ β) (y : EStateM ε σ γ) : Prop :=
  ∀ s c t b u, Inv s → y.run s = .ok c t → x.run t = .ok b u →
    ∃ v, x.run s = .ok b v ∧ y.run v = .ok c u

section Movers
variable {Inv : σ → Prop} {x : EStateM ε σ β}

theorem keeps_pure (a : α) : Keeps Inv (pure a : EStateM ε σ α) := by
  intro s b t hs h
  cases h
  exact hs

theorem Keeps.bind {y : EStateM ε σ α} {f : α → EStateM ε σ γ} (hy : Keeps Inv y)
    (hf : ∀ a, Thread.Gives Inv y a → Keeps Inv (f a)) : Keeps Inv (y >>= f) := by
  intro s c t hs h
  obtain ⟨a, u, h1, h2⟩ := run_bind_ok h
  exact hf a ⟨s, u, hs, h1⟩ u c t (hy s a u hs h1) h2

theorem movesBefore_pure (a : α) : MovesBefore Inv x (pure a : EStateM ε σ α) := by
  intro s c t b u _ hy hx
  cases hy
  exact ⟨u, hx, rfl⟩

/-- **Bind rule.** -/
theorem MovesBefore.bind {y : EStateM ε σ α} {f : α → EStateM ε σ γ} (hy : MovesBefore Inv x y)
    (hk : Keeps Inv y) (hf : ∀ a, Thread.Gives Inv y a → MovesBefore Inv x (f a)) :
    MovesBefore Inv x (y >>= f) := by
  intro s c t b u hs h hx
  obtain ⟨a, r, h1, h2⟩ := run_bind_ok h
  obtain ⟨v, hv, hfv⟩ := hf a ⟨s, r, hs, h1⟩ r c t b u (hk s a r hs h1) h2 hx
  obtain ⟨w, hw, hyw⟩ := hy s a r b v hs h1 hv
  refine ⟨w, hw, ?_⟩
  rw [EStateM.run_bind, hyw]
  exact hfv

theorem Thread.All.keeps_alone : ∀ {t : Thread ε σ α}, t.All Inv (fun _ y => Keeps Inv y) →
    Keeps Inv t.alone
  | .done a, _ => keeps_pure a
  | .fail _, _ => fun _ _ _ _ h => by cases h
  | .atom _ _, ht => ht.1.bind fun b hb => (ht.2 b hb).keeps_alone

theorem Thread.All.movesBefore_alone : ∀ {t : Thread ε σ α}, t.All Inv (fun _ y => Keeps Inv y) →
    t.All Inv (fun _ y => MovesBefore Inv x y) → MovesBefore Inv x t.alone
  | .done a, _, _ => movesBefore_pure a
  | .fail _, _, _ => fun _ _ _ _ _ _ h => by cases h
  | .atom _ _, hk, ht => ht.1.bind hk.1 fun b hb =>
    (hk.2 b hb).movesBefore_alone (ht.2 b hb)

/-- The steps of each thread keep the invariant, and move before those of the others. -/
structure Independent (Inv : σ → Prop) (threads : ι → Thread ε σ α) : Prop where
  keeps : ∀ i, (threads i).All Inv fun _ x => Keeps Inv x
  moves : ∀ i j, i ≠ j →
    (threads i).All Inv fun _ x => (threads j).All Inv fun _ y => MovesBefore Inv x y

variable {threads : ι → Thread ε σ α}

theorem movesBefore_serial (hk : ∀ i, (threads i).All Inv fun _ y => Keeps Inv y) :
    ∀ {order : List ι}, (∀ i ∈ order, (threads i).All Inv fun _ y => MovesBefore Inv x y) →
      MovesBefore Inv x (serial threads order)
  | [], _ => movesBefore_pure []
  | i :: order, h => by
    have hi := (hk i).movesBefore_alone (h i List.mem_cons_self)
    have ih := movesBefore_serial hk fun j hj => h j (List.mem_cons_of_mem i hj)
    have hpure : ∀ (o : α) (os : List α), MovesBefore Inv x (pure (o :: os) : EStateM ε σ (List α)) :=
      fun o os => movesBefore_pure (o :: os)
    have hkeeps : Keeps Inv (serial threads order) := by
      clear ih h
      induction order with
      | nil => exact keeps_pure []
      | cons j order ih => exact ((hk j).keeps_alone).bind fun _ _ => ih.bind fun _ _ => keeps_pure _
    exact hi.bind (hk i).keeps_alone fun o _ => ih.bind hkeeps fun os _ => hpure o os

theorem serial_congr {threads' : ι → Thread ε σ α} {order : List ι}
    (h : ∀ i ∈ order, threads i = threads' i) : serial threads order = serial threads' order := by
  induction order with
  | nil => rfl
  | cons i order ih =>
    have hi := h i List.mem_cons_self
    have hrest := ih fun j hj => h j (List.mem_cons_of_mem i hj)
    unfold serial at hrest ⊢
    rw [runAll, runAll, hi, hrest]

end Movers

/-! ### Every schedule is a serial one -/

section Leads
variable {Inv : σ → Prop} {order : List ι} {os : List α} {u : σ} {c : Config ε σ α ι}

/-- What is left of the pool can be run one after the other, with the results `os` and the end `u`. -/
structure Leads (Inv : σ → Prop) (order : List ι) (os : List α) (u : σ) (c : Config ε σ α ι) : Prop where
  inv : Inv c.state
  independent : Independent Inv c.threads
  serial : (serial c.threads order).run c.state = .ok os u

/-- No thread has failed. -/
theorem Leads.not_fail (h : Leads Inv order os u c) {i : ι} (hmem : i ∈ order) (e : ε) :
    c.threads i ≠ .fail e := by
  intro hi
  have hfail : ∀ {is : List ι} {s u : σ} {os : List α}, i ∈ is →
      (Threads.serial c.threads is).run s ≠ .ok os u := by
    intro is
    induction is with
    | nil => exact fun hm => absurd hm (by simp)
    | cons j is ih =>
      intro s u os hm hr
      obtain ⟨o, t, os', h1, h2, -⟩ := runAll_cons_ok hr
      rcases List.mem_cons.mp hm with rfl | hm
      · rw [hi] at h1
        cases h1
      · exact ih hm h2
  exact hfail hmem h.serial

/-- Where all threads are done, the end is there. -/
theorem Leads.done (h : Leads Inv order os u c) {a : ι → α} (hd : ∀ i, c.threads i = .done (a i)) :
    os = order.map a ∧ c.state = u := by
  have hser : ∀ (is : List ι) (s : σ), (Threads.serial c.threads is).run s = .ok (is.map a) s := by
    intro is s
    induction is with
    | nil => rfl
    | cons i is ih => exact runAll_cons (by rw [hd i]; rfl) ih
  have heq := h.serial
  rw [hser] at heq
  cases heq
  exact ⟨rfl, rfl⟩

end Leads

section Serial
variable [DecidableEq ι] {Inv : σ → Prop} {order : List ι} {os : List α} {u : σ}
  {c : Config ε σ α ι}

theorem Independent.update {threads : ι → Thread ε σ α} {i : ι} {x : EStateM ε σ β}
    {next : β → Thread ε σ α} (h : Independent Inv threads) (hi : threads i = .atom x next) {b : β}
    (hb : Thread.Gives Inv x b) : Independent Inv (Function.update threads i (next b)) := by
  have hkeep := h.keeps i
  rw [hi] at hkeep
  refine ⟨fun j => ?_, fun j k hjk => ?_⟩
  · by_cases hj : j = i
    · rw [hj, Function.update_self]
      exact hkeep.2 b hb
    · rw [Function.update_of_ne hj]
      exact h.keeps j
  · have hm := h.moves j k hjk
    by_cases hj : j = i
    · subst hj
      rw [hi] at hm
      rw [Function.update_self, Function.update_of_ne (Ne.symm hjk)]
      exact hm.2 b hb
    · rw [Function.update_of_ne hj]
      by_cases hk : k = i
      · subst hk
        rw [hi] at hm
        rw [Function.update_self]
        exact hm.mono fun _ _ hy => hy.2 b hb
      · rw [Function.update_of_ne hk]
        exact hm

/-- **One step** of a thread can be taken, and leads to the same end. -/
theorem Leads.atom {i : ι} {x : EStateM ε σ β} {next : β → Thread ε σ α} (h : Leads Inv order os u c)
    (hnodup : order.Nodup) (hmem : i ∈ order) (hi : c.threads i = .atom x next) :
    ∃ b s, x.run c.state = .ok b s ∧
      Leads Inv order os u ⟨s, Function.update c.threads i (next b)⟩ := by
  obtain ⟨hinv, hind, hser⟩ := h
  obtain ⟨before, after, rfl⟩ := List.append_of_mem hmem
  have hnot : i ∉ before ∧ i ∉ after := by
    rw [List.nodup_append, List.nodup_cons] at hnodup
    exact ⟨fun hb => hnodup.2.2 i hb i List.mem_cons_self rfl, hnodup.2.1.1⟩
  -- the threads in front of `i`, the step, the rest of `i`, and the threads behind it
  obtain ⟨os₁, s₁, os', hbefore, hrest, rfl⟩ := runAll_append_ok hser
  obtain ⟨o, s₃, os₂, halone, hafter, rfl⟩ := runAll_cons_ok hrest
  rw [hi] at halone
  obtain ⟨b, s₂, hx, hnext⟩ := run_bind_ok halone
  have hmove : MovesBefore Inv x (Threads.serial c.threads before) := by
    refine movesBefore_serial hind.keeps fun j hj => ?_
    have hij := hind.moves i j fun hc => hnot.1 (hc ▸ hj)
    rw [hi] at hij
    exact hij.1
  obtain ⟨v, hv, hbefore'⟩ := hmove _ _ _ _ _ hinv hbefore hx
  have hkeep := hind.keeps i
  rw [hi] at hkeep
  refine ⟨b, v, hv, hkeep.1 _ _ _ hinv hv, hind.update hi ⟨_, _, hinv, hv⟩, ?_⟩
  have hother : ∀ js : List ι, i ∉ js →
      Threads.serial (Function.update c.threads i (next b)) js = Threads.serial c.threads js :=
    fun js hjs => serial_congr fun j hj => Function.update_of_ne (ne_of_mem_of_not_mem hj hjs) _ _
  rw [← hother before hnot.1] at hbefore'
  have hi' : (runAll (fun j => (Function.update c.threads i (next b) j).alone) (i :: after)).run s₂ =
      .ok (o :: os₂) u := by
    refine runAll_cons (t := s₃) ?_ ?_
    · rw [Function.update_self]
      exact hnext
    · rw [show runAll _ after = _ from hother after hnot.2]
      exact hafter
  unfold Threads.serial at hbefore' ⊢
  rw [runAll_append hbefore', hi']

/-- The threads can be run to their ends one after the other. -/
theorem exists_schedule : ∀ {is : List ι} {c : Config ε σ α ι} {os : List α}, is.Nodup →
    (Threads.serial c.threads is).run c.state = .ok os u →
      ∃ schedule, (c.run schedule).state = u ∧
        ∀ i, (i ∈ is → ∃ a, (c.run schedule).threads i = .done a) ∧
          (i ∉ is → (c.run schedule).threads i = c.threads i)
  | [], c, os, _, h => by
    cases h
    exact ⟨[], rfl, fun i => ⟨fun hi => absurd hi (by simp), fun _ => rfl⟩⟩
  | j :: is, c, os, hn, h => by
    obtain ⟨hj, hn⟩ := List.nodup_cons.mp hn
    obtain ⟨a, s, os', h1, h2, -⟩ := runAll_cons_ok h
    obtain ⟨n, hrep⟩ := run_replicate rfl h1
    have hsame : Threads.serial (c.run (List.replicate n j)).threads is = Threads.serial c.threads is := by
      rw [hrep]
      exact serial_congr fun k hk => Function.update_of_ne (ne_of_mem_of_not_mem hk hj) _ _
    have h2' : (Threads.serial (c.run (List.replicate n j)).threads is).run
        (c.run (List.replicate n j)).state = .ok os' u := by
      rw [hsame, hrep]
      exact h2
    obtain ⟨schedule, hu, hthreads⟩ := exists_schedule hn h2'
    refine ⟨List.replicate n j ++ schedule, by rw [Config.run_append]; exact hu, fun i => ?_⟩
    rw [Config.run_append]
    obtain ⟨hin, hout⟩ := hthreads i
    refine ⟨fun hi => ?_, fun hi => ?_⟩
    · by_cases hmem : i ∈ is
      · exact hin hmem
      · obtain rfl := (List.mem_cons.mp hi).resolve_right hmem
        rw [hout hmem, hrep]
        exact ⟨a, Function.update_self ..⟩
    · have hi' : i ≠ j ∧ i ∉ is := by simpa using hi
      rw [hout hi'.2, hrep]
      exact Function.update_of_ne hi'.1 _ _

variable (hnodup : order.Nodup) (hall : ∀ i, i ∈ order)
include hnodup hall

theorem Leads.step (h : Leads Inv order os u c) (i : ι) : Leads Inv order os u (c.step i) := by
  cases ht : c.threads i with
  | done a =>
    rw [step_of_ended (Or.inl ⟨a, ht⟩)]
    exact h
  | fail e =>
    rw [step_of_ended (Or.inr ⟨e, ht⟩)]
    exact h
  | atom x next =>
    obtain ⟨b, s, hx, hl⟩ := h.atom hnodup (hall i) ht
    rw [step_of_ok ht hx]
    exact hl

theorem Leads.run : ∀ (schedule : List ι) {c : Config ε σ α ι}, Leads Inv order os u c →
    Leads Inv order os u (c.run schedule)
  | [], _, h => h
  | i :: schedule, _, h => Leads.run schedule (h.step hnodup hall i)

/-- **Every schedule comes to the serial end.** Whatever the schedule, no thread fails; the run can be
completed; and where all threads are done, their results and the state are those of running them one
after the other. -/
theorem serializable (hinv : Inv c.state) (hind : Independent Inv c.threads)
    (hser : (Threads.serial c.threads order).run c.state = .ok os u) (schedule : List ι) :
    (∀ i e, (c.run schedule).threads i ≠ .fail e) ∧
    (∃ further, ∀ i, ∃ a, (c.run (schedule ++ further)).threads i = .done a) ∧
    ∀ a, (∀ i, (c.run schedule).threads i = .done (a i)) → os = order.map a ∧
      (c.run schedule).state = u := by
  have hl : Leads Inv order os u (c.run schedule) :=
    Leads.run hnodup hall schedule ⟨hinv, hind, hser⟩
  refine ⟨fun i => hl.not_fail (hall i), ?_, fun a ha => hl.done ha⟩
  obtain ⟨further, -, hd⟩ := exists_schedule hnodup hl.serial
  refine ⟨further, fun i => ?_⟩
  rw [Config.run_append]
  exact (hd i).1 (hall i)

omit hnodup hall in
/-- **There is one outcome.** If the threads can be run one after the other in every order, all orders
have the same results and the same end, and so has every schedule: no thread fails, the run can be
completed, and where all threads are done it has come to this end. -/
theorem one_outcome [Fintype ι] (hinv : Inv c.state) (hind : Independent Inv c.threads)
    (hser : ∀ order : List ι, order.Nodup → (∀ i, i ∈ order) →
      ∃ os u, (Threads.serial c.threads order).run c.state = .ok os u) :
    ∃ (answers : ι → α) (u : σ),
      (∀ order : List ι, order.Nodup → (∀ i, i ∈ order) →
        (Threads.serial c.threads order).run c.state = .ok (order.map answers) u) ∧
      ∀ schedule, (∀ i e, (c.run schedule).threads i ≠ .fail e) ∧
        (∃ further, ∀ i, ∃ a, (c.run (schedule ++ further)).threads i = .done a) ∧
        ∀ a, (∀ i, (c.run schedule).threads i = .done (a i)) → a = answers ∧ (c.run schedule).state = u := by
  have hnodup : (Finset.univ : Finset ι).toList.Nodup := Finset.nodup_toList _
  have hall : ∀ i, i ∈ (Finset.univ : Finset ι).toList := fun i => by simp
  obtain ⟨os, u, hrun⟩ := hser _ hnodup hall
  obtain ⟨further, hdone⟩ := (serializable hnodup hall hinv hind hrun []).2.1
  choose answers hanswers using hdone
  have hfirst := (serializable hnodup hall hinv hind hrun further).2.2 answers hanswers
  have horder : ∀ order : List ι, order.Nodup → (∀ i, i ∈ order) →
      (Threads.serial c.threads order).run c.state = .ok (order.map answers) u := by
    intro order hn hc
    obtain ⟨os', u', hrun'⟩ := hser order hn hc
    obtain ⟨rfl, hu⟩ := (serializable hn hc hinv hind hrun' further).2.2 answers hanswers
    rw [hrun', ← hu, hfirst.2]
  refine ⟨answers, u, horder, fun schedule => ?_⟩
  obtain ⟨h1, h2, h3⟩ := serializable hnodup hall hinv hind (horder _ hnodup hall) schedule
  refine ⟨h1, h2, fun a ha => ?_⟩
  obtain ⟨hmap, hu⟩ := h3 a ha
  exact ⟨funext fun i => (List.map_inj_left.mp hmap i (hall i)).symm, hu⟩

end Serial

/-! ### Along a schedule -/

section Throughout
variable {τ : Type*} {step : τ → ι → τ} {P D Inv : τ → Prop}

/-- `P` is true of every state the schedule goes through. -/
def Throughout (step : τ → ι → τ) (P : τ → Prop) : τ → List ι → Prop
  | s, [] => P s
  | s, i :: is => P s ∧ Throughout step P (step s i) is

instance Throughout.decidable [∀ s, Decidable (P s)] :
    ∀ (is : List ι) (s : τ), Decidable (Throughout step P s is)
  | [], s => inferInstanceAs (Decidable (P s))
  | i :: is, s =>
    have := Throughout.decidable is (step s i)
    inferInstanceAs (Decidable (P s ∧ Throughout step P (step s i) is))

/-- An invariant that is kept as long as `P` is true. -/
theorem Throughout.inv (hkeep : ∀ s i, Inv s → P (step s i) → Inv (step s i)) :
    ∀ {is : List ι} {s : τ}, Inv s → Throughout step P s is → Inv (is.foldl step s)
  | [], _, hs, _ => hs
  | i :: is, s, hs, h => by
    have hnext : P (step s i) := by
      cases is with
      | nil => exact h.2
      | cons j is => exact h.2.1
    show Inv (is.foldl step (step s i))
    exact Throughout.inv hkeep (hkeep s i hs hnext) h.2

/-- **Watershed.** The first time `P` is false, `D` becomes false, and stays so; until then an invariant
holds that has them both. Then `P` was true throughout exactly if `D` is true at the end. -/
theorem throughout_iff (hgood : ∀ s, Inv s → P s ∧ D s)
    (hkeep : ∀ s i, Inv s → P (step s i) → Inv (step s i))
    (hbreak : ∀ s i, Inv s → ¬ P (step s i) → ¬ D (step s i))
    (hstay : ∀ s i, ¬ D s → ¬ D (step s i)) :
    ∀ {is : List ι} {s : τ}, Inv s → (Throughout step P s is ↔ D (is.foldl step s))
  | [], s, hs => iff_of_true (hgood s hs).1 (hgood s hs).2
  | i :: is, s, hs => by
    by_cases hp : P (step s i)
    · rw [List.foldl_cons, ← throughout_iff hgood hkeep hbreak hstay (hkeep s i hs hp)]
      exact and_iff_right (hgood s hs).1
    · refine iff_of_false (fun h => hp ?_) ?_
      · cases is with
        | nil => exact h.2
        | cons j is => exact h.2.1
      · have hfalse : ∀ (js : List ι) (t : τ), ¬ D t → ¬ D (js.foldl step t) := by
          intro js
          induction js with
          | nil => exact fun _ h => h
          | cons j js ih => exact fun t ht => ih _ (hstay t j ht)
        exact hfalse is _ (hbreak s i hs hp)

end Throughout

/-! ### Cells -/

/-- The state consists of cells: two states that are the same in every cell are the same. -/
structure Cells (Same : κ → σ → σ → Prop) : Prop where
  equiv : ∀ k, Equivalence (Same k)
  ext : ∀ {s t}, (∀ k, Same k s t) → s = t

/-- The step uses one cell only. -/
structure Local (Inv : σ → Prop) (Same : κ → σ → σ → Prop) (k : κ) (x : EStateM ε σ β) : Prop where
  keeps : Keeps Inv x
  frame : ∀ {s b t j}, Inv s → x.run s = .ok b t → j ≠ k → Same j s t
  agree : ∀ {s t b s'}, Inv s → Inv t → Same k s t → x.run s = .ok b s' →
    ∃ t', x.run t = .ok b t' ∧ Same k s' t'

/-- **Steps in different cells** move before each other. -/
theorem Local.movesBefore {Inv : σ → Prop} {Same : κ → σ → σ → Prop} {i j : κ} {x : EStateM ε σ β}
    {y : EStateM ε σ γ} (hc : Cells Same) (hx : Local Inv Same i x) (hy : Local Inv Same j y)
    (hij : i ≠ j) : MovesBefore Inv x y := by
  intro s c t b u hs h1 h2
  have ht := hy.keeps _ _ _ hs h1
  have hst := hy.frame hs h1 hij
  obtain ⟨v, hv, huv⟩ := hx.agree ht hs ((hc.equiv i).symm hst) h2
  have hv' := hx.keeps _ _ _ hs hv
  obtain ⟨w, hw, htw⟩ := hy.agree hs hv' (hx.frame hs hv hij.symm) h1
  refine ⟨v, hv, ?_⟩
  suffices hwu : w = u by rw [hw, hwu]
  refine hc.ext fun k => ?_
  by_cases hki : k = i
  · subst hki
    exact (hc.equiv k).trans ((hc.equiv k).symm (hy.frame hv' hw hij)) ((hc.equiv k).symm huv)
  · by_cases hkj : k = j
    · subst hkj
      exact (hc.equiv k).trans ((hc.equiv k).symm htw) (hx.frame ht h2 hki)
    · have h3 := hx.frame hs hv hki
      have h4 := hy.frame hv' hw hkj
      have h5 := hy.frame hs h1 hkj
      have h6 := hx.frame ht h2 hki
      exact (hc.equiv k).trans ((hc.equiv k).symm ((hc.equiv k).trans h3 h4)) ((hc.equiv k).trans h5 h6)

/-- Threads with a cell each are independent. -/
theorem independent_of_local {Inv : σ → Prop} {Same : κ → σ → σ → Prop} (hc : Cells Same)
    {threads : ι → Thread ε σ α} {cell : ι → κ} (hcell : Function.Injective cell)
    (h : ∀ i, (threads i).All Inv fun _ x => Local Inv Same (cell i) x) : Independent Inv threads where
  keeps i := (h i).mono fun _ _ hx => hx.keeps
  moves i j hij := (h i).mono fun _ _ hx => (h j).mono fun _ _ hy =>
    hx.movesBefore hc hy (hcell.ne hij)

end Kachow.Lib.Threads
