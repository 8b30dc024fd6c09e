import Kachow.Lib.Runs

/-! # The pool of workers

`start_accept` arms the acceptor, creates as many workers as are configured, and waits for them to end;
a worker runs the handlers of the `io_service`. A connection is accepted by one of these handlers,
`handle_accept`, which calls `start_accept` again: in the worker it arms the acceptor once more, creates a
pool of its own and waits for that one. As the acceptor is armed all the time no worker ever ends.

So the pools add up: with every accept that completes, `n` further workers are created (`counted_step`). The
configured size is kept as long as no accept has completed, and once all pools are created only then
(`workers_iff`). One worker of each pool but the last is taken by `start_accept`; so the handlers of the
sessions are run one after the other if and only if no more than one thread is configured (`serial_iff`). -/

namespace Kachow.Server.Workers

open Kachow.Lib.Runs

/-! ### The process -/

/-- Where a thread is. -/
inductive Phase where
  /-- In `io_service::run`, between two handlers. -/
  | running
  /-- In the first loop of `start_accept`, with the pool it has created so far. -/
  | spawning (pool : List ℕ)
  /-- In the second loop, with the threads it has still to join. -/
  | joining (pool : List ℕ)
  /-- `io_service::run` has returned. -/
  | ended
  deriving DecidableEq, Repr

/-- The threads, the main thread first, and how many accepts are outstanding. -/
structure Process where
  threads : List Phase
  pending : ℕ
  deriving DecidableEq, Repr

/-- What happens next, and in which thread. -/
inductive Event where
  /-- The first loop creates a worker. -/
  | spawn (thread : ℕ)
  /-- It has created all. -/
  | spawned (thread : ℕ)
  /-- The second loop has joined its next thread. -/
  | join (thread : ℕ)
  /-- `start_accept` returns, and so does the handler. -/
  | leave (thread : ℕ)
  /-- The accept has completed, with an error or without one, and its handler is called. -/
  | accept (thread : ℕ) (error : Bool)
  /-- `io_service::run` returns. -/
  | finish (thread : ℕ)
  deriving DecidableEq, Repr

/-- The thread in which it happens. -/
def Event.thread : Event → ℕ
  | .spawn t => t
  | .spawned t => t
  | .join t => t
  | .leave t => t
  | .accept t _ => t
  | .finish t => t

/-- An accept completes. -/
def Event.isAccept : Event → Bool
  | .accept _ _ => true
  | _ => false

/-- The front of `start_accept`: the acceptor is armed, and the first loop begins. -/
def startAccept (t : ℕ) (p : Process) : Process := ⟨p.threads.set t (.spawning []), p.pending + 1⟩

/-- `handle_accept`. A session starts or is deleted; either way `start_accept` is called. -/
def handleAccept (t : ℕ) (_error : Bool) (p : Process) : Process := startAccept t p

/-- `run` has called `start_accept` in the main thread. -/
def start : Process := startAccept 0 ⟨[.running], 0⟩

/-- A step of the process, with `n` threads configured; it fails where the thread cannot do so. -/
def step (n : ℕ) (e : Event) : EStateM Unit Process Unit := fun p =>
  match e with
  | .spawn t =>
    match p.threads[t]? with
    | some (.spawning pool) =>
      if pool.length < n then
        .ok () ⟨p.threads.set t (.spawning (pool ++ [p.threads.length])) ++ [.running], p.pending⟩
      else .error () p
    | _ => .error () p
  | .spawned t =>
    match p.threads[t]? with
    | some (.spawning pool) =>
      if pool.length < n then .error () p else .ok () ⟨p.threads.set t (.joining pool), p.pending⟩
    | _ => .error () p
  | .join t =>
    match p.threads[t]? with
    | some (.joining (worker :: pool)) =>
      if p.threads[worker]? = some .ended then .ok () ⟨p.threads.set t (.joining pool), p.pending⟩
      else .error () p
    | _ => .error () p
  | .leave t =>
    if p.threads[t]? = some (.joining []) then .ok () ⟨p.threads.set t .running, p.pending⟩
    else .error () p
  | .accept t error =>
    if p.threads[t]? = some .running ∧ p.pending ≠ 0 then
      .ok () (handleAccept t error ⟨p.threads, p.pending - 1⟩)
    else .error () p
  | .finish t =>
    -- as long as an accept is outstanding, `io_service::run` has work
    if p.threads[t]? = some .running ∧ p.pending = 0 then .ok () ⟨p.threads.set t .ended, p.pending⟩
    else .error () p

/-- The workers that are alive. -/
def alive (p : Process) : ℕ := p.threads.tail.countP fun x => decide (x ≠ .ended)

/-- No thread is in the first loop of `start_accept`. -/
def Settled (p : Process) : Prop := ∀ x ∈ p.threads, ∀ pool, x ≠ .spawning pool

/-- A step leaves the other threads where they are. -/
theorem step_other {n : ℕ} {e : Event} {p p' : Process} (hs : (step n e).run p = .ok () p') {t : ℕ}
    (ht : t ≠ e.thread) {x : Phase} (hx : p.threads[t]? = some x) : p'.threads[t]? = some x := by
  have hset : ∀ y, (p.threads.set e.thread y)[t]? = some x := fun y => by
    rw [List.getElem?_set_ne ht.symm, hx]
  unfold step EStateM.run at hs
  rcases e with u | u | u | u | ⟨u, error⟩ | u
  · simp only at hs
    split at hs
    · split_ifs at hs
      cases hs
      obtain ⟨hlt, -⟩ := List.getElem?_eq_some_iff.mp (hset (.spawning []))
      have hold := hset (.spawning (‹List ℕ› ++ [p.threads.length]))
      rw [List.getElem?_append_left (by simpa using hlt)]
      exact hold
    · cases hs
  · simp only at hs
    split at hs
    · split_ifs at hs
      cases hs
      exact hset _
    · cases hs
  · simp only at hs
    split at hs
    · split_ifs at hs
      cases hs
      exact hset _
    · cases hs
  · simp only at hs
    split_ifs at hs
    cases hs
    exact hset _
  · simp only at hs
    split_ifs at hs
    cases hs
    exact hset _
  · simp only at hs
    split_ifs at hs
    cases hs
    exact hset _

/-! ### Counting -/

/-- The workers a thread has still to create. -/
def toSpawn (n : ℕ) : Phase → ℕ
  | .spawning pool => n - pool.length
  | _ => 0

/-- After `k` accepts: the acceptor is armed, no thread has ended, and the threads there are and those
still to be created are the main thread and `k + 1` pools. -/
structure Counted (n k : ℕ) (p : Process) : Prop where
  armed : p.pending = 1
  noneEnded : ∀ x ∈ p.threads, x ≠ .ended
  pools : ∀ pool, .spawning pool ∈ p.threads → pool.length ≤ n
  count : p.threads.length + (p.threads.map (toSpawn n)).sum = 1 + n * (k + 1)

/-- Changing one entry of a list changes the sum by it. -/
theorem sum_map_set {α : Type} (f : α → ℕ) : ∀ {l : List α} {i : ℕ} {x : α} (y : α), l[i]? = some x →
    ((l.set i y).map f).sum + f x = (l.map f).sum + f y
  | [], _, _, _, h => by simp at h
  | a :: l, 0, x, y, h => by
    obtain rfl : a = x := by simpa using h
    simp only [List.set_cons_zero, List.map_cons, List.sum_cons]
    omega
  | a :: l, i + 1, x, y, h => by
    have hrest : l[i]? = some x := by simpa using h
    have ih := sum_map_set f y hrest
    simp only [List.set_cons_succ, List.map_cons, List.sum_cons]
    omega

section Step
variable {n k t : ℕ} {p p' : Process} {x y : Phase}

/-- A thread moves on. -/
theorem Counted.set (h : Counted n k p) (hx : p.threads[t]? = some x) {d : ℕ} (hy : y ≠ .ended)
    (hpool : ∀ pool, y = .spawning pool → pool.length ≤ n) (hd : toSpawn n y = toSpawn n x + n * d) :
    Counted n (k + d) ⟨p.threads.set t y, p.pending⟩ := by
  refine ⟨h.armed, fun z hz => ?_, fun pool hz => ?_, ?_⟩
  · rcases List.mem_or_eq_of_mem_set hz with hz | rfl
    · exact h.noneEnded z hz
    · exact hy
  · rcases List.mem_or_eq_of_mem_set hz with hz | hz
    · exact h.pools pool hz
    · exact hpool pool hz.symm
  · have hsum := sum_map_set (toSpawn n) y hx
    have hcount := h.count
    have hmul : n * (k + d + 1) = n * (k + 1) + n * d := by ring
    simp only [List.length_set]
    omega

/-- A worker is created, instead of being still to be created. -/
theorem Counted.spawn (h : Counted n k p) {pool : List ℕ} (hx : p.threads[t]? = some (.spawning pool))
    (hlen : pool.length < n) (w : ℕ) :
    Counted n k ⟨p.threads.set t (.spawning (pool ++ [w])) ++ [.running], p.pending⟩ := by
  refine ⟨h.armed, fun z hz => ?_, fun pool' hz => ?_, ?_⟩
  · rcases List.mem_append.mp hz with hz | hz
    · rcases List.mem_or_eq_of_mem_set hz with hz | rfl
      · exact h.noneEnded z hz
      · simp
    · rw [List.mem_singleton.mp hz]
      simp
  · rcases List.mem_append.mp hz with hz | hz
    · rcases List.mem_or_eq_of_mem_set hz with hz | hz
      · exact h.pools pool' hz
      · obtain rfl := Phase.spawning.inj hz
        simp only [List.length_append, List.length_singleton]
        omega
    · simp at hz
  · have hsum := sum_map_set (toSpawn n) (.spawning (pool ++ [w])) hx
    have hcount := h.count
    have hone : toSpawn n (.spawning (pool ++ [w])) + 1 = toSpawn n (.spawning pool) := by
      simp only [toSpawn, List.length_append, List.length_singleton]
      omega
    have hnone : toSpawn n .running = 0 := rfl
    simp only [List.length_append, List.length_set, List.length_singleton, List.map_append,
      List.sum_append, List.map_cons, List.map_nil, List.sum_singleton, hnone]
    omega

/-- **One step** keeps the count; an accept that completes adds a pool. -/
theorem counted_step {e : Event} (h : Counted n k p) (hs : (step n e).run p = .ok () p') :
    Counted n (k + if e.isAccept then 1 else 0) p' := by
  unfold step EStateM.run at hs
  rcases e with t | t | t | t | ⟨t, error⟩ | t
  · simp only at hs
    split at hs
    · next pool hx =>
      split_ifs at hs with hlen
      cases hs
      exact h.spawn hx hlen _
    · cases hs
  · simp only at hs
    split at hs
    · next pool hx =>
      split_ifs at hs with hlen
      cases hs
      have hnone : toSpawn n (.spawning pool) = 0 := by
        simp only [toSpawn]
        omega
      exact h.set hx (by simp) (by simp) (by rw [hnone]; rfl)
    · cases hs
  · simp only at hs
    split at hs
    · next worker pool hx =>
      split_ifs at hs with hend
      cases hs
      exact h.set hx (by simp) (by simp) rfl
    · cases hs
  · simp only at hs
    split_ifs at hs with hx
    cases hs
    exact h.set hx (by simp) (by simp) rfl
  · simp only at hs
    split_ifs at hs with hx
    cases hs
    -- the accept that has completed is no longer outstanding, and the next one is
    have hpool : ∀ pool, Phase.spawning [] = .spawning pool → pool.length ≤ n := by
      rintro pool hp
      rw [← Phase.spawning.inj hp]
      exact Nat.zero_le n
    have hadd : toSpawn n (.spawning []) = toSpawn n .running + n * 1 := by simp [toSpawn]
    have hset := h.set hx.1 (by simp) hpool hadd
    have harmed : p.pending - 1 + 1 = p.pending := by
      have := hx.2
      omega
    simpa [handleAccept, startAccept, Event.isAccept, harmed] using hset
  · simp only at hs
    split_ifs at hs with hx
    have harmed := h.armed
    omega

end Step

/-- **A run** adds a pool for each accept that completes. -/
theorem counted_run {n : ℕ} : ∀ {es : List Event} {k : ℕ} {p p' : Process} {os : List Unit},
    Counted n k p → (runAll (step n) es).run p = .ok os p' → Counted n (k + es.countP Event.isAccept) p'
  | [], k, p, p', os, h, hr => by
    rw [runAll_nil] at hr
    cases hr
    exact h
  | e :: es, k, p, p', os, h, hr => by
    obtain ⟨o, q, os', h1, h2, -⟩ := runAll_cons_ok hr
    have hrest := counted_run (counted_step h h1) h2
    have hsum : k + (e :: es).countP Event.isAccept =
        k + (if e.isAccept then 1 else 0) + es.countP Event.isAccept := by
      rw [List.countP_cons]
      omega
    rw [hsum]
    exact hrest

theorem counted_start (n : ℕ) : Counted n 0 start := by
  refine ⟨rfl, by simp [start, startAccept], fun pool hp => ?_, ?_⟩
  · have hpool : pool = [] := by simpa [start, startAccept] using hp
    rw [hpool]
    exact Nat.zero_le n
  · simp [start, startAccept, toSpawn]

/-- The workers that are alive, and those still to be created. -/
theorem Counted.alive_eq {n k : ℕ} {p : Process} (h : Counted n k p) :
    alive p + (p.threads.map (toSpawn n)).sum = n * (k + 1) := by
  have hcount := h.count
  rcases hp : p.threads with - | ⟨x, xs⟩
  · rw [hp] at hcount
    simp only [List.length_nil, List.map_nil, List.sum_nil] at hcount
    omega
  · have hall : alive p = xs.length := by
      unfold alive
      rw [hp, List.tail_cons, List.countP_eq_length]
      intro z hz
      exact decide_eq_true (h.noneEnded z (by rw [hp]; simp [hz]))
    rw [hp] at hcount
    simp only [List.length_cons] at hcount
    omega

/-- Where all pools are created none is still to be. -/
theorem Settled.sum_eq {n : ℕ} {p : Process} (h : Settled p) : (p.threads.map (toSpawn n)).sum = 0 := by
  refine List.sum_eq_zero fun m hm => ?_
  obtain ⟨x, hx, rfl⟩ := List.mem_map.mp hm
  rcases x with - | pool | pool | -
  · rfl
  · exact absurd rfl (h _ hx pool)
  · rfl
  · rfl

/-- **The workers of a run.** With `n` threads configured, no more than `n` workers are alive as long as no
accept has completed; and where all pools are created, this is so only then. -/
theorem workers_iff {n : ℕ} (hn : 1 ≤ n) {es : List Event} {os : List Unit} {p : Process}
    (h : (runAll (step n) es).run start = .ok os p) :
    ((∀ e ∈ es, e.isAccept = false) → alive p ≤ n) ∧
      (Settled p → (alive p ≤ n ↔ ∀ e ∈ es, e.isAccept = false)) := by
  have hcounted := counted_run (counted_start n) h
  have halive := hcounted.alive_eq
  have hnone : es.countP Event.isAccept = 0 ↔ ∀ e ∈ es, e.isAccept = false := by
    rw [List.countP_eq_zero]
    simp
  constructor
  · intro he
    rw [hnone.mpr he] at halive
    omega
  · intro hsettled
    rw [← hnone]
    rw [hsettled.sum_eq] at halive
    constructor
    · intro hle
      by_contra hpos
      -- with one accept there are two pools already
      have htwo : n * 2 ≤ n * (0 + es.countP Event.isAccept + 1) := Nat.mul_le_mul_left n (by omega)
      omega
    · intro hzero
      rw [hzero] at halive
      omega

/-- Two workers are created; the first accepts a connection, and creates two further ones. -/
def twoPools : List Event :=
  [.spawn 0, .spawn 0, .spawned 0, .accept 1 false, .spawn 1, .spawn 1, .spawned 1]

/-- Where they come. -/
def afterTwoPools : Process := ⟨[.joining [1, 2], .joining [3, 4], .running, .running, .running], 1⟩

theorem workers_twoPools :
    ((∀ e ∈ twoPools, e.isAccept = false) → alive afterTwoPools ≤ 2) ∧
      (Settled afterTwoPools → (alive afterTwoPools ≤ 2 ↔ ∀ e ∈ twoPools, e.isAccept = false)) :=
  @workers_iff 2 one_le_two twoPools [(), (), (), (), (), (), ()] afterTwoPools rfl

/-- **The first connection adds a worker** to a pool of one. -/
theorem pool_grows : ∃ os p,
    (runAll (step 1) [.spawn 0, .spawned 0, .accept 1 false, .spawn 1]).run start = .ok os p ∧
      ¬ alive p ≤ 1 := ⟨_, _, rfl, by decide⟩

/-! ### Handlers at a time -/

/-- The threads in `io_service::run`; each of them may be in a handler of a session. -/
def handling (p : Process) : ℕ := p.threads.count .running

/-- After `k` accepts, `k + 1` threads are in `start_accept`, and each that joins has a worker to wait
for. -/
structure Waits (k : ℕ) (p : Process) : Prop where
  pools : ∀ pool, .joining pool ∈ p.threads → pool ≠ []
  count : handling p + (k + 1) = p.threads.length

section Waits
variable {n k t : ℕ} {p p' : Process} {x : Phase}

/-- A thread moves on, to or from `io_service::run` or not. -/
theorem count_set {l : List Phase} (y : Phase) (hx : l[t]? = some x) :
    (l.set t y).count .running + (if x = .running then 1 else 0) =
      l.count .running + if y = .running then 1 else 0 := by
  obtain ⟨ht, rfl⟩ := List.getElem?_eq_some_iff.mp hx
  have hpos : l[t] = .running → 1 ≤ l.count .running := fun hr =>
    List.count_pos_iff.mpr (hr ▸ List.getElem_mem ht)
  rw [List.count_set ht]
  simp only [beq_iff_eq]
  split_ifs with h1 h2
  · have := hpos h1
    omega
  · have := hpos h1
    omega
  · omega
  · omega

/-- A thread in `start_accept` stays there. -/
theorem Waits.set (h : Waits k p) (hx : p.threads[t]? = some x) (hxr : x ≠ .running) {y : Phase}
    (hyr : y ≠ .running) (hy : ∀ pool, y = .joining pool → pool ≠ []) :
    Waits k ⟨p.threads.set t y, p.pending⟩ := by
  refine ⟨fun pool hp => ?_, ?_⟩
  · rcases List.mem_or_eq_of_mem_set hp with hp | hp
    · exact h.pools pool hp
    · exact hy pool hp.symm
  · have hset := count_set y hx
    have hcount := h.count
    unfold handling at hcount ⊢
    rw [if_neg hxr, if_neg hyr] at hset
    simp only [List.length_set]
    omega

/-- **One step** keeps the count; an accept that completes takes its thread away. -/
theorem waits_step {e : Event} (hn : 1 ≤ n) (hc : Counted n k p) (h : Waits k p)
    (hs : (step n e).run p = .ok () p') : Waits (k + if e.isAccept then 1 else 0) p' := by
  unfold step EStateM.run at hs
  rcases e with t | t | t | t | ⟨t, error⟩ | t
  · simp only at hs
    split at hs
    · next pool hx =>
      split_ifs at hs with hlen
      cases hs
      have hset := h.set hx (by simp) (y := .spawning (pool ++ [p.threads.length])) (by simp) (by simp)
      refine ⟨fun pool' hp => hset.pools pool' (by simpa using hp), ?_⟩
      have hcount := hset.count
      unfold handling at hcount ⊢
      simp only [List.length_set, List.count_append, List.length_append, List.count_singleton_self,
        List.length_singleton, Event.isAccept, Bool.false_eq_true, if_false] at hcount ⊢
      omega
    · cases hs
  · simp only at hs
    split at hs
    · next pool hx =>
      split_ifs at hs with hlen
      cases hs
      refine h.set hx (by simp) (by simp) fun pool' hp => ?_
      rw [← Phase.joining.inj hp]
      rintro rfl
      simp only [List.length_nil] at hlen
      omega
    · cases hs
  · simp only at hs
    split at hs
    · split_ifs at hs with hend
      exact absurd rfl (hc.noneEnded _ (List.mem_of_getElem? hend))
    · cases hs
  · simp only at hs
    split_ifs at hs with hx
    exact absurd rfl (h.pools _ (List.mem_of_getElem? hx))
  · simp only at hs
    split_ifs at hs with hx
    cases hs
    refine ⟨fun pool hp => ?_, ?_⟩
    · rcases List.mem_or_eq_of_mem_set hp with hp | hp
      · exact h.pools pool hp
      · cases hp
    · have hset := count_set (.spawning []) hx.1
      have hcount := h.count
      unfold handling at hcount ⊢
      simp only [handleAccept, startAccept, Event.isAccept, List.length_set, if_true, reduceCtorEq,
        if_false] at hset ⊢
      omega
  · simp only at hs
    split_ifs at hs with hx
    have harmed := hc.armed
    omega

/-- **A run**: the threads that run handlers, those still to be created, and those the accepts have
taken. -/
theorem handling_run (hn : 1 ≤ n) : ∀ {es : List Event} {k : ℕ} {p p' : Process} {os : List Unit},
    Counted n k p → Waits k p → (runAll (step n) es).run p = .ok os p' →
      Waits (k + es.countP Event.isAccept) p'
  | [], k, p, p', os, _, h, hr => by
    rw [runAll_nil] at hr
    cases hr
    exact h
  | e :: es, k, p, p', os, hc, h, hr => by
    obtain ⟨o, q, os', h1, h2, -⟩ := runAll_cons_ok hr
    have hrest := handling_run hn (counted_step hc h1) (waits_step hn hc h h1) h2
    have hsum : k + (e :: es).countP Event.isAccept =
        k + (if e.isAccept then 1 else 0) + es.countP Event.isAccept := by
      rw [List.countP_cons]
      omega
    rw [hsum]
    exact hrest

theorem waits_start : Waits 0 start := by
  refine ⟨fun pool hp => ?_, rfl⟩
  simp [start, startAccept] at hp

end Waits

/-- What is true of the threads after every run. -/
theorem handling_eq {n : ℕ} (hn : 1 ≤ n) {es : List Event} {os : List Unit} {p : Process}
    (h : (runAll (step n) es).run start = .ok os p) :
    handling p + es.countP Event.isAccept + (p.threads.map (toSpawn n)).sum =
      n * (es.countP Event.isAccept + 1) := by
  have hcount := (counted_run (counted_start n) h).count
  have hwaits := (handling_run hn (counted_start n) waits_start h).count
  rw [Nat.zero_add] at hcount hwaits
  omega

/-- **The handlers that can run at a time.** Where all pools are created, as many threads as are configured
run handlers before the first accept has completed, and each accept adds them all but one. -/
theorem handling_settled {n : ℕ} (hn : 1 ≤ n) {es : List Event} {os : List Unit} {p : Process}
    (h : (runAll (step n) es).run start = .ok os p) (hs : Settled p) :
    handling p = n + es.countP Event.isAccept * (n - 1) := by
  have hall := handling_eq hn h
  rw [hs.sum_eq] at hall
  obtain ⟨m, rfl⟩ := Nat.exists_eq_add_of_le' hn
  rw [Nat.add_sub_cancel]
  ring_nf at hall ⊢
  omega

theorem handling_twoPools : handling afterTwoPools = 2 + twoPools.countP Event.isAccept * (2 - 1) :=
  @handling_settled 2 one_le_two twoPools [(), (), (), (), (), (), ()] afterTwoPools rfl
    fun x hx pool he => by
      rw [he] at hx
      simp [afterTwoPools] at hx

/-- With one thread configured at most one thread runs handlers. -/
theorem handling_le_one {n : ℕ} (hn : n ≤ 1) {es : List Event} {os : List Unit} {p : Process}
    (h : (runAll (step n) es).run start = .ok os p) : handling p ≤ 1 := by
  rcases Nat.le_one_iff_eq_zero_or_eq_one.mp hn with rfl | rfl
  · -- the main thread is alone
    have hcount := (counted_run (counted_start 0) h).count
    have hle : handling p ≤ p.threads.length := List.count_le_length
    omega
  · have hall := handling_eq le_rfl h
    omega

/-- **The handlers are run one after the other**, in every run, if and only if no more than one thread is
configured. -/
theorem serial_iff (n : ℕ) : (∀ es os p, (runAll (step n) es).run start = .ok os p → handling p ≤ 1) ↔
    n ≤ 1 := by
  constructor
  · intro h
    by_contra hn
    -- the first pool has two workers
    have h0 : (0 : ℕ) < n := by omega
    have h1 : 1 < n := by omega
    have hrun : (runAll (step n) [.spawn 0, .spawn 0]).run start =
        .ok [(), ()] ⟨[.spawning [1, 2], .running, .running], 1⟩ := by
      simp [runAll, step, EStateM.run, start, startAccept, bind, EStateM.bind, pure, EStateM.pure, h0, h1]
    exact absurd (h _ _ _ hrun) (by decide)
  · exact fun hn es os p hrun => handling_le_one hn hrun

end Kachow.Server.Workers
