import Kachow.Lib.Threads
import Kachow.Server.Workers

/-! # Handlers in turn

A worker in `io_service::run` calls one handler after the other. A handler takes many steps (`Thread`), and
the steps of different workers can be mixed. Here the workers of `Workers` do so: they work on the handlers
they have called, and the process goes on creating its pools. A worker that has run the front of `handle_accept`
enters `start_accept` by a move of the process; that it must is not asked for, so there are more runs here
than the server has.

With one thread configured no two workers are in `io_service::run` at a time. So a handler that is called
has been worked on to its end before the next one is called, and what the steps come to is what the handlers
do without a break, in the order in which they were called (`run_in_turn`). -/

namespace Kachow.Server.Turns

open Kachow.Lib.Runs Kachow.Lib.Threads Kachow.Server.Workers

/-! ### Workers at their handlers -/

/-- The process, what each thread has still to do of the handler it has called, what the handlers share,
and the results of those that have returned. -/
structure Work (ε σ α : Type) where
  process : Process
  busy : ℕ → Option (Thread ε σ α)
  state : σ
  results : List α

/-- What happens next. -/
inductive Move (κ : Type) where
  /-- A thread that is in no handler creates its pool, or waits for it, or enters `start_accept`. -/
  | process (e : Event)
  /-- `io_service::run` calls a handler. -/
  | call (thread : ℕ) (handler : κ)
  /-- The handler takes a step. -/
  | work (thread : ℕ)
  /-- The handler returns. -/
  | back (thread : ℕ)

/-- The handler that is called. -/
def Move.called {κ : Type} : Move κ → Option κ
  | .call _ k => some k
  | _ => none

variable {ε σ α κ : Type} (n : ℕ) (program : κ → Thread ε σ α)

/-- A move, with `n` threads configured; it fails where it cannot be made. -/
def move (c : Work ε σ α) : Move κ → Option (Work ε σ α)
  | .process e =>
    if (c.busy e.thread).isNone then
      match (step n e).run c.process with
      | .ok _ p => some ⟨p, c.busy, c.state, c.results⟩
      | .error _ _ => none
    else none
  | .call t k =>
    if c.process.threads[t]? = some .running ∧ (c.busy t).isNone then
      some ⟨c.process, Function.update c.busy t (some (program k)), c.state, c.results⟩
    else none
  | .work t =>
    match c.busy t with
    | some (.atom x next) =>
      match x.run c.state with
      | .ok b s => some ⟨c.process, Function.update c.busy t (some (next b)), s, c.results⟩
      | .error e s => some ⟨c.process, Function.update c.busy t (some (.fail e)), s, c.results⟩
    | _ => none
  | .back t =>
    match c.busy t with
    | some (.done a) => some ⟨c.process, Function.update c.busy t none, c.state, c.results ++ [a]⟩
    | _ => none

/-- Some moves. -/
def moves (c : Work ε σ α) (ms : List (Move κ)) : Option (Work ε σ α) := ms.foldlM (move n program) c

/-- `run` has called `start_accept`, and no handler has been called yet. -/
def Work.first (s : σ) : Work ε σ α := ⟨start, fun _ => none, s, []⟩

/-! ### One at a time -/

/-- What is left of the handler of a thread is `t`: the handlers `ks` have returned, and `k`, called after
them, comes to the end `t` comes to. -/
structure AtWork (s : σ) (c : Work ε σ α) (ks : List κ) (k : κ) (t : Thread ε σ α) : Prop where
  before : ∃ s₁, (runAll (fun k => (program k).alone) ks).run s = .ok c.results s₁ ∧
    ∀ a u, t.alone.run c.state = .ok a u → (program k).alone.run s₁ = .ok a u

/-- The handlers `called` have been called in turn: all of them have returned, or all but the last. -/
inductive InTurn (s : σ) (c : Work ε σ α) (called : List κ) : Prop
  | free (hfree : ∀ t, c.busy t = none)
      (hrun : (runAll (fun k => (program k).alone) called).run s = .ok c.results c.state)
  | busy (t : ℕ) (th : Thread ε σ α) (ks : List κ) (k : κ) (ht : c.busy t = some th)
      (hother : ∀ t', t' ≠ t → c.busy t' = none) (hcalled : called = ks ++ [k])
      (hwork : AtWork program s c ks k th)

/-- What is true after some moves: the process has come where it is in a run of its own, and the threads
that are in a handler are in `io_service::run`. -/
structure Orderly (s : σ) (c : Work ε σ α) (called : List κ) : Prop where
  process : ∃ es os, (runAll (step n) es).run start = .ok os c.process
  running : ∀ t th, c.busy t = some th → c.process.threads[t]? = some .running
  turn : InTurn program s c called

variable {n program} {s : σ} {c c' : Work ε σ α} {called : List κ}

/-- Two threads that run handlers are one. -/
theorem eq_of_handling {p : Process} (h : handling p ≤ 1) {t t' : ℕ}
    (ht : p.threads[t]? = some .running) (ht' : p.threads[t']? = some .running) : t = t' := by
  by_contra hne
  have hset := count_set (.ended) ht
  have hpos : 0 < (p.threads.set t .ended).count .running :=
    List.count_pos_iff.mpr (List.mem_of_getElem? ((List.getElem?_set_ne hne).trans ht'))
  unfold handling at h
  simp only [if_true, reduceCtorEq, if_false] at hset
  omega

theorem orderly_first (s : σ) : Orderly n program s (.first s) [] where
  process := ⟨[], [], rfl⟩
  running _ _ h := by cases h
  turn := .free (fun _ => rfl) rfl

/-- The process goes on. -/
theorem Orderly.process_step (h : Orderly n program s c called) {e : Event} {p : Process}
    (hbusy : c.busy e.thread = none) (hs : (step n e).run c.process = .ok () p) :
    Orderly n program s ⟨p, c.busy, c.state, c.results⟩ called where
  process := by
    obtain ⟨es, os, hrun⟩ := h.process
    refine ⟨es ++ [e], os ++ [()], ?_⟩
    rw [runAll_append hrun, runAll_cons hs rfl]
  running t th ht := by
    refine step_other hs ?_ (h.running t th ht)
    rintro rfl
    rw [hbusy] at ht
    cases ht
  turn := by
    rcases h.turn with ⟨hfree, hrun⟩ | ⟨t, th, ks, k, ht, hother, hcalled, hwork⟩
    · exact .free hfree hrun
    · exact .busy t th ks k ht hother hcalled ⟨hwork.before⟩

/-- A handler is called: no other thread is in one. -/
theorem Orderly.call (hn : n ≤ 1) (h : Orderly n program s c called) {t : ℕ} (k : κ)
    (ht : c.process.threads[t]? = some .running) (hnone : c.busy t = none) :
    Orderly n program s
      ⟨c.process, Function.update c.busy t (some (program k)), c.state, c.results⟩ (called ++ [k]) where
  process := h.process
  running t' th ht' := by
    by_cases he : t' = t
    · rw [he]
      exact ht
    · exact h.running t' th (by simpa only [Function.update_of_ne he] using ht')
  turn := by
    rcases h.turn with ⟨hfree, hrun⟩ | ⟨t', th, ks, k', ht', -, -, -⟩
    · refine .busy t (program k) called k (Function.update_self ..) (fun t' he => ?_) rfl
        ⟨c.state, hrun, fun _ _ hend => hend⟩
      exact (Function.update_of_ne he _ _).trans (hfree t')
    · obtain ⟨es, os, hrun⟩ := h.process
      obtain rfl := eq_of_handling (handling_le_one hn hrun) ht (h.running t' th ht')
      rw [hnone] at ht'
      cases ht'

/-- The thread that is in a handler goes on with it. -/
theorem Orderly.go_on (h : Orderly n program s c called) {t : ℕ} {th th' : Thread ε σ α} {s' : σ}
    (ht : c.busy t = some th)
    (hnext : ∀ a u, th'.alone.run s' = .ok a u → th.alone.run c.state = .ok a u) :
    Orderly n program s ⟨c.process, Function.update c.busy t (some th'), s', c.results⟩ called where
  process := h.process
  running t' th'' ht' := by
    by_cases he : t' = t
    · rw [he]
      exact h.running t th ht
    · exact h.running t' th'' (by simpa only [Function.update_of_ne he] using ht')
  turn := by
    rcases h.turn with ⟨hfree, -⟩ | ⟨t', th₁, ks, k, ht', hother, hcalled, hwork⟩
    · rw [hfree] at ht
      cases ht
    · obtain rfl : t = t' := by
        by_contra hne
        rw [hother t hne] at ht
        cases ht
      obtain rfl := Option.some.inj (ht.symm.trans ht')
      obtain ⟨s₁, hrun, hend⟩ := hwork.before
      refine .busy t th' ks k (Function.update_self ..) (fun t' he => ?_) hcalled
        ⟨s₁, hrun, fun a u hu => hend a u (hnext a u hu)⟩
      exact (Function.update_of_ne he _ _).trans (hother t' he)

/-- The handler returns: all that have been called have returned. -/
theorem Orderly.back (h : Orderly n program s c called) {t : ℕ} {a : α} (ht : c.busy t = some (.done a)) :
    Orderly n program s ⟨c.process, Function.update c.busy t none, c.state, c.results ++ [a]⟩ called where
  process := h.process
  running t' th ht' := by
    by_cases he : t' = t
    · rw [he] at ht'
      simp only [Function.update_self] at ht'
      cases ht'
    · exact h.running t' th (by simpa only [Function.update_of_ne he] using ht')
  turn := by
    rcases h.turn with ⟨hfree, -⟩ | ⟨t', th, ks, k, ht', hother, rfl, hwork⟩
    · rw [hfree] at ht
      cases ht
    · obtain rfl : t = t' := by
        by_contra hne
        rw [hother t hne] at ht
        cases ht
      obtain rfl := Option.some.inj (ht.symm.trans ht')
      obtain ⟨s₁, hrun, hend⟩ := hwork.before
      refine .free (fun t' => ?_) ?_
      · by_cases he : t' = t
        · rw [he]
          exact Function.update_self ..
        · exact (Function.update_of_ne he _ _).trans (hother t' he)
      · rw [runAll_append hrun, runAll_cons (hend a c.state rfl) rfl]

/-- **One move.** -/
theorem Orderly.move (hn : n ≤ 1) (h : Orderly n program s c called) {m : Move κ}
    (hm : move n program c m = some c') : Orderly n program s c' (called ++ m.called.toList) := by
  unfold Turns.move at hm
  cases m with
  | process e =>
    simp only at hm
    split_ifs at hm with hbusy
    split at hm
    · next p hs =>
      cases hm
      rw [show (Move.process e : Move κ).called.toList = [] from rfl, List.append_nil]
      exact h.process_step (Option.isNone_iff_eq_none.mp hbusy) hs
    · cases hm
  | call t k =>
    simp only at hm
    split_ifs at hm with ht
    cases hm
    exact h.call hn k ht.1 (Option.isNone_iff_eq_none.mp ht.2)
  | work t =>
    simp only at hm
    rw [show (Move.work t : Move κ).called.toList = [] from rfl, List.append_nil]
    split at hm
    · next x rest ht =>
      split at hm
      · next b s' hx =>
        cases hm
        refine h.go_on ht fun a u hu => ?_
        show (x >>= fun b => (rest b).alone).run c.state = _
        rw [EStateM.run_bind, hx]
        exact hu
      · cases hm
        exact h.go_on ht fun a u hu => by cases hu
    · cases hm
  | back t =>
    simp only at hm
    rw [show (Move.back t : Move κ).called.toList = [] from rfl, List.append_nil]
    split at hm
    · next a ht =>
      cases hm
      exact h.back ht
    · cases hm

/-- **A run of moves.** -/
theorem Orderly.moves (hn : n ≤ 1) : ∀ {ms : List (Move κ)} {c c' : Work ε σ α} {called : List κ},
    Orderly n program s c called → moves n program c ms = some c' →
      Orderly n program s c' (called ++ ms.filterMap Move.called)
  | [], c, c', called, h, hms => by
    cases hms
    simpa using h
  | m :: ms, c, c', called, h, hms => by
    obtain ⟨d, hm, hrest⟩ := Option.bind_eq_some_iff.mp (List.foldlM_cons.symm.trans hms)
    have hend := (h.move hn hm).moves hn hrest
    rw [List.append_assoc] at hend
    have hcalled : (m :: ms).filterMap Move.called = m.called.toList ++ ms.filterMap Move.called := by
      rw [List.filterMap_cons]
      cases m.called <;> rfl
    rwa [hcalled]

/-- **The handlers are run in turn.** With one thread configured, however the steps of the workers follow
each other: once no worker is in a handler, what they share and the results are those of the handlers, run
without a break in the order in which they were called. -/
theorem run_in_turn (hn : n ≤ 1) {ms : List (Move κ)} (hms : moves n program (.first s) ms = some c)
    (hfree : ∀ t, c.busy t = none) :
    (runAll (fun k => (program k).alone) (ms.filterMap Move.called)).run s = .ok c.results c.state := by
  have hend := (orderly_first s).moves hn hms
  rcases hend.turn with ⟨-, hrun⟩ | ⟨t, th, ks, k, ht, -, -, -⟩
  · exact hrun
  · rw [hfree] at ht
    cases ht

end Kachow.Server.Turns
