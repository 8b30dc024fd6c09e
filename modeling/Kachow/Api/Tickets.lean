import Kachow.Api.Serializable

/-! # `POST`s at the same time

A `POST` takes its number in two steps: it copies the set of its entity and searches the copy, and it
writes the copy back with the number in it. In between, its section is open (`Open`). Here the thread of a
`POST` is a state machine (`Phase`), which does what `createThread` does (`config_run`).

Two `POST`s for one entity are given the same number if and only if two sections of one entity have been
open at the same time (`apart_iff`): this is the condition under which the numbers differ, for any number
of `POST`s, any schedule and any file system. -/

namespace Kachow.Api.Tickets

open Kachow.Lib.Text Kachow.Lib.Decimal Kachow.Lib.Sets Kachow.Lib.Files Kachow.Lib.Threads
open Kachow.Boost.Paths Kachow.Http.Messages Kachow.Disk Kachow.Api.Ids Kachow.Api.Handler
open Kachow.Api.Threads

/-- A `POST` whose path has been checked. -/
structure Post where
  req : Request
  res : Response
  url : ParsedUrl

/-- The step a `POST` is in front of, and what it goes on with. -/
inductive Phase where
  | checking
  | making
  | keying
  | copying
  | writing (existingIDs : IdSet) (id : ℤ)
  | storing (id : ℤ)
  | created (id : ℤ)
  | failed (taken : Option ℤ) (e : Fault)
  deriving DecidableEq

section Machine
variable {σ ι : Type} (file : FileSystem σ) (p : Post)

/-- The next step. -/
def Phase.step (w : World σ) : Phase → Phase × World σ
  | .checking =>
    match (onDisk (file.exists_ p.url.fullPath)).run w with
    | .ok there w' => (if !there then .making else .copying, w')
    | .error e w' => (.failed none e, w')
  | .making =>
    match (onDisk (file.createDirectory p.url.fullPath)).run w with
    | .ok _ w' => (.keying, w')
    | .error e w' => (.failed none e, w')
  | .keying => (.copying, ⟨w.disk, insertPair w.entityIdMap p.url.entity ∅⟩)
  | .copying =>
    match w.entityIdMap.lookup p.url.entity with
    | none => (.failed none .endDereference, w)
    | some existingIDs =>
      match nextFree existingIDs with
      | none => (.failed none .intOverflow, w)
      | some id => (.writing existingIDs id, w)
  | .writing existingIDs id =>
    (.storing id, ⟨w.disk, w.entityIdMap.insert p.url.entity (existingIDs.insert id)⟩)
  | .storing id =>
    match (onDisk (file.writeFile (p.url.fullPath.append (intToString id)) p.req.body)).run w with
    | .ok _ w' => (.created id, w')
    | .error e w' => (.failed (some id) e, w')
  | .created id => (.created id, w)
  | .failed taken e => (.failed taken e, w)

/-- The `POST`s, and what they share. -/
structure Posting (σ ι : Type) where
  world : World σ
  phases : ι → Phase

/-- All `POST`s are in front of their first step. -/
def start (w : World σ) : Posting σ ι := ⟨w, fun _ => .checking⟩

section Step
variable [DecidableEq ι] (posts : ι → Post)

/-- The `POST` number `i` takes its next step. -/
def Posting.step (c : Posting σ ι) (i : ι) : Posting σ ι :=
  let r := (c.phases i).step file (posts i) c.world
  ⟨r.2, Function.update c.phases i r.1⟩

/-- The `POST`s take steps as the schedule says. -/
def Posting.run (c : Posting σ ι) (schedule : List ι) : Posting σ ι :=
  schedule.foldl (Posting.step file posts) c

end Step

/-! ### The threads of the machine -/

/-- What is left from the last step on. -/
def storeThread (id : ℤ) : Thread Fault (World σ) (Bool × Response) := do
  let _ ← call (file.writeFile (p.url.fullPath.append (intToString id)) p.req.body)
  pure (true, setCreated p.res id)

/-- What is left once the copy was searched. -/
def writeThread (existingIDs : IdSet) (id : ℤ) : Thread Fault (World σ) (Bool × Response) := do
  Thread.atomic (writeBack p.url.entity (existingIDs.insert id))
  storeThread file p id

/-- What is left in front of the copy. -/
def copyThread : Thread Fault (World σ) (Bool × Response) := do
  let existingIDs ← Thread.atomic (copyKnownIDs p.url.entity)
  match nextFree existingIDs with
  | none => .fail .intOverflow
  | some id => writeThread file p existingIDs id

/-- What is left in front of the insertion of the key. -/
def keyThread : Thread Fault (World σ) (Bool × Response) := do
  Thread.atomic (onIds fun m => insertPair m p.url.entity ∅)
  copyThread file p

/-- What is left in front of the directory. -/
def makeThread : Thread Fault (World σ) (Bool × Response) := do
  let _ ← call (file.createDirectory p.url.fullPath)
  keyThread file p

/-- The whole `POST`. -/
def checkThread : Thread Fault (World σ) (Bool × Response) := do
  let there ← call (file.exists_ p.url.fullPath)
  if !there then makeThread file p else copyThread file p

/-- What is left of a `POST`. -/
def Phase.thread : Phase → Thread Fault (World σ) (Bool × Response)
  | .checking => checkThread file p
  | .making => makeThread file p
  | .keying => keyThread file p
  | .copying => copyThread file p
  | .writing existingIDs id => writeThread file p existingIDs id
  | .storing id => storeThread file p id
  | .created id => .done (true, setCreated p.res id)
  | .failed _ e => .fail e

/-- The pool of what is left. -/
def Posting.config (posts : ι → Post) (c : Posting σ ι) : Config Fault (World σ) (Bool × Response) ι :=
  ⟨c.world, fun i => (c.phases i).thread file (posts i)⟩

variable {file p}

/-- A `POST` is the thread of its handler. -/
theorem checkThread_eq {h : RequestHandlerAPI} (hs : p.url.fullPath.parentPath.same h.basePath = true) :
    checkThread file p = createThread h file (atOnce file) p.req p.res p.url := by
  have hcopy : copyThread file p = (do
      let id ← nextIdThread p.url.entity
      let _ ← call (file.writeFile (p.url.fullPath.append (intToString id)) p.req.body)
      pure (true, setCreated p.res id)) := by
    refine congrArg (Thread.atom _) (funext fun existingIDs => ?_)
    show _ = Thread.bind (Thread.bind _ _) _
    simp only [Thread.bind]
    cases nextFree existingIDs <;> rfl
  unfold checkThread createThread
  rw [hs]
  refine congrArg (Thread.atom _) (funext fun there => ?_)
  cases there with
  | true => exact hcopy
  | false =>
    show makeThread file p = _
    unfold makeThread keyThread
    rw [hcopy]
    rfl

variable [DecidableEq ι] {posts : ι → Post}

/-- The thread of the phase that changes. -/
theorem config_update (c : Posting σ ι) (i : ι) (ph : Phase) (w : World σ) :
    (⟨w, Function.update c.phases i ph⟩ : Posting σ ι).config file posts =
      ⟨w, Function.update (c.config file posts).threads i (ph.thread file (posts i))⟩ := by
  unfold Posting.config
  congr 1
  funext j
  by_cases hj : j = i
  · subst hj
    simp
  · simp [hj]

section Alike
variable {c : Posting σ ι} {i : ι} {β : Type} {x : EStateM Fault (World σ) β}
  {next : β → Thread Fault (World σ) (Bool × Response)} {w' : World σ}

/-- The step of a phase whose thread takes a step. -/
theorem config_of_ok {b : β} (ph : Phase) (ht : (c.phases i).thread file (posts i) = .atom x next)
    (hx : x.run c.world = .ok b w') (hstep : (c.phases i).step file (posts i) c.world = (ph, w'))
    (hnext : ph.thread file (posts i) = next b) :
    (c.step file posts i).config file posts = (c.config file posts).step i := by
  rw [step_of_ok (c := c.config file posts) ht hx, ← hnext, ← config_update]
  unfold Posting.step
  rw [hstep]

/-- The step of a phase whose thread fails. -/
theorem config_of_error {e : Fault} (ph : Phase) (ht : (c.phases i).thread file (posts i) = .atom x next)
    (hx : x.run c.world = .error e w') (hstep : (c.phases i).step file (posts i) c.world = (ph, w'))
    (hnext : ph.thread file (posts i) = .fail e) :
    (c.step file posts i).config file posts = (c.config file posts).step i := by
  rw [step_of_error (c := c.config file posts) ht hx, ← hnext, ← config_update]
  unfold Posting.step
  rw [hstep]

/-- A phase whose thread has ended or failed. -/
theorem config_of_ended (ht : (∃ a, (c.phases i).thread file (posts i) = .done a) ∨
      (∃ e, (c.phases i).thread file (posts i) = .fail e))
    (hstep : (c.phases i).step file (posts i) c.world = (c.phases i, c.world)) :
    (c.step file posts i).config file posts = (c.config file posts).step i := by
  rw [step_of_ended (c := c.config file posts) ht]
  unfold Posting.step
  rw [hstep, config_update]
  have hself : Function.update (c.config file posts).threads i ((c.phases i).thread file (posts i)) =
      (c.config file posts).threads := Function.update_eq_self i (c.config file posts).threads
  rw [hself]
  rfl

end Alike

/-- **One step** of the machine is one step of the threads. -/
theorem config_step (c : Posting σ ι) (i : ι) :
    (c.step file posts i).config file posts = (c.config file posts).step i := by
  have hok := @config_of_ok σ ι file _ posts c i
  have herror := @config_of_error σ ι file _ posts c i
  have hended := @config_of_ended σ ι file _ posts c i
  cases hph : c.phases i with
  | checking =>
    rw [hph] at hok herror
    cases hx : (onDisk (file.exists_ (posts i).url.fullPath)).run c.world with
    | ok there w' =>
      refine hok (if !there then .making else .copying) rfl hx (by simp only [Phase.step, hx]) ?_
      cases there <;> rfl
    | error e w' => exact herror (.failed none e) rfl hx (by simp only [Phase.step, hx]) rfl
  | making =>
    rw [hph] at hok herror
    cases hx : (onDisk (file.createDirectory (posts i).url.fullPath)).run c.world with
    | ok b w' => exact hok (.keying) rfl hx (by simp only [Phase.step, hx]) rfl
    | error e w' => exact herror (.failed none e) rfl hx (by simp only [Phase.step, hx]) rfl
  | keying =>
    rw [hph] at hok
    exact hok (.copying) rfl rfl rfl rfl
  | copying =>
    rw [hph] at hok herror
    cases hl : c.world.entityIdMap.lookup (posts i).url.entity with
    | none =>
      have hx : (copyKnownIDs (posts i).url.entity).run c.world = .error .endDereference c.world := by
        simp only [copyKnownIDs, EStateM.run, hl]
      exact herror (.failed none .endDereference) rfl hx (by simp only [Phase.step, hl]) rfl
    | some existingIDs =>
      have hx : (copyKnownIDs (posts i).url.entity).run c.world = .ok existingIDs c.world := by
        simp only [copyKnownIDs, EStateM.run, hl]
      cases hfree : nextFree existingIDs with
      | none =>
        refine hok (.failed none .intOverflow) rfl hx (by simp only [Phase.step, hl, hfree]) ?_
        show _ = Thread.bind (.done existingIDs) _
        simp only [Thread.bind, hfree]
        rfl
      | some id =>
        refine hok (.writing existingIDs id) rfl hx (by simp only [Phase.step, hl, hfree]) ?_
        show _ = Thread.bind (.done existingIDs) _
        simp only [Thread.bind, hfree]
        rfl
  | writing existingIDs id =>
    rw [hph] at hok
    exact hok (.storing id) rfl rfl rfl rfl
  | storing id =>
    rw [hph] at hok herror
    cases hx : (onDisk (file.writeFile ((posts i).url.fullPath.append (intToString id))
        (posts i).req.body)).run c.world with
    | ok b w' => exact hok (.created id) rfl hx (by simp only [Phase.step, hx]) rfl
    | error e w' => exact herror (.failed (some id) e) rfl hx (by simp only [Phase.step, hx]) rfl
  | created id =>
    rw [hph] at hended
    exact hended (Or.inl ⟨_, rfl⟩) rfl
  | failed taken e =>
    rw [hph] at hended
    exact hended (Or.inr ⟨_, rfl⟩) rfl

/-- **The machine is the pool of the threads.** -/
theorem config_run (c : Posting σ ι) : ∀ schedule,
    (c.run file posts schedule).config file posts = (c.config file posts).run schedule := by
  intro schedule
  induction schedule generalizing c with
  | nil => rfl
  | cons i schedule ih =>
    show ((c.step file posts i).run file posts schedule).config file posts = _
    rw [ih, config_step]
    rfl

end Machine

/-! ### Numbers -/

/-- The number a `POST` has taken. -/
def Phase.number : Phase → Option ℤ
  | .checking | .making | .keying | .copying => none
  | .writing _ id | .storing id | .created id => some id
  | .failed taken _ => taken

/-- The set is copied, and not written back yet. -/
def Phase.Open (ph : Phase) : Prop := ∃ existingIDs id, ph = .writing existingIDs id

instance Phase.decidableOpen : ∀ ph : Phase, Decidable ph.Open
  | .writing IDs id => isTrue ⟨IDs, id, rfl⟩
  | .checking | .making | .keying | .copying | .storing _ | .created _ | .failed _ _ =>
    isFalse fun ⟨_, _, h⟩ => Phase.noConfusion h

theorem Phase.not_open {ph : Phase} (h : ph.number = none) : ¬ ph.Open := by
  rintro ⟨existingIDs, id, rfl⟩
  cases h

/-- What a step of a `POST` does to the map. -/
inductive Moves (e : Str) (m : EntityIdMap) : Phase → Phase → EntityIdMap → Prop
  | early {ph ph' : Phase} {m' : EntityIdMap} (h : ph.number = none) (h' : ph'.number = none)
      (hm : ∀ x, m'.lookup x = m.lookup x ∨ m.lookup x = none ∧ m'.lookup x = some ∅) :
      Moves e m ph ph' m'
  | takes {IDs : IdSet} {id : ℤ} (hl : m.lookup e = some IDs) (hk : nextFree IDs = some id) :
      Moves e m .copying (.writing IDs id) m
  | writes {IDs : IdSet} {id : ℤ} : Moves e m (.writing IDs id) (.storing id) (m.insert e (IDs.insert id))
  | late {ph ph' : Phase} (hn : ph'.number = ph.number) (h : ¬ ph.Open) (h' : ¬ ph'.Open) :
      Moves e m ph ph' m

section Numbers
variable {σ ι : Type} {file : FileSystem σ}

/-- The calls of the file system leave the map alone. -/
theorem entityIdMap_onDisk {α : Type} {x : EStateM Fault σ α} {w w' : World σ} :
    (∀ a, (onDisk x).run w = .ok a w' → w'.entityIdMap = w.entityIdMap) ∧
    ∀ e, (onDisk x).run w = .error e w' → w'.entityIdMap = w.entityIdMap := by
  rw [run_onDisk]
  cases x.run w.disk with
  | ok a d =>
    refine ⟨fun b h => ?_, fun e h => by cases h⟩
    cases h
    rfl
  | error e d =>
    refine ⟨fun b h => (by cases h), fun e h => ?_⟩
    cases h
    rfl

/-- A pair that is inserted is the only change. -/
theorem lookup_insertPair (m : EntityIdMap) (e x : Str) (IDs : IdSet) :
    (insertPair m e IDs).lookup x = m.lookup x ∨
      m.lookup x = none ∧ (insertPair m e IDs).lookup x = some IDs := by
  unfold insertPair
  cases hl : m.lookup e with
  | some s => exact Or.inl rfl
  | none =>
    by_cases hx : x = e
    · subst hx
      exact Or.inr ⟨hl, by rw [lookup_insert, if_pos rfl]⟩
    · exact Or.inl (by rw [lookup_insert, if_neg hx])

/-- **What a step does to the map**, in one of four ways. -/
theorem moves_step (p : Post) (w : World σ) (ph : Phase) : Moves p.url.entity w.entityIdMap ph
    (ph.step file p w).1 (ph.step file p w).2.entityIdMap := by
  cases ph with
  | checking =>
    simp only [Phase.step]
    cases hx : (onDisk (file.exists_ p.url.fullPath)).run w with
    | ok there w' =>
      rw [entityIdMap_onDisk.1 _ hx]
      exact .early rfl (by cases there <;> rfl) fun _ => Or.inl rfl
    | error e w' =>
      rw [entityIdMap_onDisk.2 _ hx]
      exact .early rfl rfl fun _ => Or.inl rfl
  | making =>
    simp only [Phase.step]
    cases hx : (onDisk (file.createDirectory p.url.fullPath)).run w with
    | ok b w' =>
      rw [entityIdMap_onDisk.1 _ hx]
      exact .early rfl rfl fun _ => Or.inl rfl
    | error e w' =>
      rw [entityIdMap_onDisk.2 _ hx]
      exact .early rfl rfl fun _ => Or.inl rfl
  | keying => exact .early rfl rfl fun x => lookup_insertPair _ _ x _
  | copying =>
    simp only [Phase.step]
    cases hl : w.entityIdMap.lookup p.url.entity with
    | none => exact .early rfl rfl fun _ => Or.inl rfl
    | some existingIDs =>
      cases hfree : nextFree existingIDs with
      | none =>
        simp only [hfree]
        exact .early rfl rfl fun _ => Or.inl rfl
      | some id =>
        simp only [hfree]
        exact .takes hl hfree
  | writing existingIDs id => exact .writes
  | storing id =>
    simp only [Phase.step]
    cases hx : (onDisk (file.writeFile (p.url.fullPath.append (intToString id)) p.req.body)).run w with
    | ok b w' =>
      rw [entityIdMap_onDisk.1 _ hx]
      exact .late rfl (fun ⟨_, _, h⟩ => by cases h) fun ⟨_, _, h⟩ => by cases h
    | error e w' =>
      rw [entityIdMap_onDisk.2 _ hx]
      exact .late rfl (fun ⟨_, _, h⟩ => by cases h) fun ⟨_, _, h⟩ => by cases h
  | created id => exact .late rfl (fun ⟨_, _, h⟩ => by cases h) fun ⟨_, _, h⟩ => by cases h
  | failed taken e => exact .late rfl (fun ⟨_, _, h⟩ => by cases h) fun ⟨_, _, h⟩ => by cases h

/-! ### Sections -/

variable (posts : ι → Post) (c : Posting σ ι)

/-- No two sections of one entity are open. -/
def SectionsApart : Prop := ∀ i j, i ≠ j → (posts i).url.entity = (posts j).url.entity →
  (c.phases i).Open → ¬ (c.phases j).Open

instance [Fintype ι] [DecidableEq ι] : Decidable (SectionsApart posts c) :=
  inferInstanceAs (Decidable (∀ i j, i ≠ j → (posts i).url.entity = (posts j).url.entity →
    (c.phases i).Open → ¬ (c.phases j).Open))

/-- No two `POST`s for one entity have taken the same number. -/
def Distinct : Prop := ∀ i j, i ≠ j → (posts i).url.entity = (posts j).url.entity →
  ∀ k, (c.phases i).number = some k → (c.phases j).number ≠ some k

/-- As long as the sections are apart, an open copy is the set of the map, and every number that is
written back is in it. -/
structure Ordered : Prop where
  apart : SectionsApart posts c
  distinct : Distinct posts c
  copied : ∀ i IDs id, c.phases i = .writing IDs id →
    c.world.entityIdMap.lookup (posts i).url.entity = some IDs ∧ nextFree IDs = some id
  kept : ∀ i k, (c.phases i).number = some k → ¬ (c.phases i).Open →
    Has c.world.entityIdMap (posts i).url.entity k

variable {posts c} [DecidableEq ι]

variable (file posts) in
/-- A step changes the phase of one `POST`, in one of the four ways. -/
theorem step_cases (c : Posting σ ι) (i : ι) : ∃ ph w, c.step file posts i =
      ⟨w, Function.update c.phases i ph⟩ ∧
    Moves (posts i).url.entity c.world.entityIdMap (c.phases i) ph w.entityIdMap :=
  ⟨_, _, rfl, moves_step (posts i) c.world (c.phases i)⟩

/-- A number that is taken stays taken. -/
theorem number_step {i j : ι} {k : ℤ} (h : (c.phases j).number = some k) :
    ((c.step file posts i).phases j).number = some k := by
  obtain ⟨ph, w, hstep, hm⟩ := step_cases file posts c i
  rw [hstep]
  by_cases hj : j = i
  · subst hj
    simp only [Function.update_self]
    generalize c.phases j = ph₀ at h hm
    generalize w.entityIdMap = m at hm
    cases hm with
    | early h0 =>
      rw [h0] at h
      cases h
    | takes => cases h
    | writes => exact h
    | late hn => rw [hn, h]
  · simp only [Function.update_of_ne hj]
    exact h

/-- A change of one phase keeps the numbers in order. -/
theorem Ordered.update (h : Ordered posts c) {i : ι} {ph : Phase} {w : World σ}
    (ha : SectionsApart posts ⟨w, Function.update c.phases i ph⟩)
    (hnumber : ∀ j, j ≠ i → (posts i).url.entity = (posts j).url.entity →
      ∀ k, ph.number = some k → (c.phases j).number ≠ some k)
    (hopen : ∀ IDs id, ph = .writing IDs id →
      w.entityIdMap.lookup (posts i).url.entity = some IDs ∧ nextFree IDs = some id)
    (htaken : ∀ k, ph.number = some k → ¬ ph.Open → Has w.entityIdMap (posts i).url.entity k)
    (hcopied : ∀ j IDs id, j ≠ i → c.phases j = .writing IDs id →
      c.world.entityIdMap.lookup (posts j).url.entity = some IDs →
      w.entityIdMap.lookup (posts j).url.entity = some IDs)
    (hkept : ∀ x k, Has c.world.entityIdMap x k → Has w.entityIdMap x k) :
    Ordered posts ⟨w, Function.update c.phases i ph⟩ where
  apart := ha
  distinct := by
    intro j l hjl hent k hj hl
    simp only at hj hl
    by_cases hji : j = i
    · subst hji
      rw [Function.update_self] at hj
      rw [Function.update_of_ne hjl.symm] at hl
      exact hnumber l hjl.symm hent k hj hl
    · rw [Function.update_of_ne hji] at hj
      by_cases hli : l = i
      · subst hli
        rw [Function.update_self] at hl
        exact hnumber j hji hent.symm k hl hj
      · rw [Function.update_of_ne hli] at hl
        exact h.distinct j l hjl hent k hj hl
  copied := by
    intro j IDs id hj
    simp only at hj ⊢
    by_cases hji : j = i
    · subst hji
      rw [Function.update_self] at hj
      exact hopen IDs id hj
    · rw [Function.update_of_ne hji] at hj
      obtain ⟨hl, hk⟩ := h.copied j IDs id hj
      exact ⟨hcopied j IDs id hji hj hl, hk⟩
  kept := by
    intro j k hj ho
    simp only at hj ho ⊢
    by_cases hji : j = i
    · subst hji
      rw [Function.update_self] at hj ho
      exact htaken k hj ho
    · rw [Function.update_of_ne hji] at hj ho
      exact hkept _ _ (h.kept j k hj ho)

/-- **One step** keeps the numbers in order, as long as the sections are apart. -/
theorem Ordered.step (h : Ordered posts c) (i : ι) (ha : SectionsApart posts (c.step file posts i)) :
    Ordered posts (c.step file posts i) := by
  obtain ⟨ph, w, hstep, hm⟩ := step_cases file posts c i
  rw [hstep] at ha ⊢
  generalize hph : c.phases i = ph₀ at hm
  generalize hmap : w.entityIdMap = m at hm
  have hold : ∀ k, ph₀.number = some k → ∀ j, j ≠ i → (posts i).url.entity = (posts j).url.entity →
      (c.phases j).number ≠ some k := fun k hk j hj hent =>
    h.distinct i j hj.symm hent k (by rw [hph]; exact hk)
  cases hm with
  | early h0 h1 hsame =>
    have hkeep : ∀ x IDs, c.world.entityIdMap.lookup x = some IDs →
        w.entityIdMap.lookup x = some IDs := by
      intro x IDs hl
      rw [hmap]
      rcases hsame x with hx | ⟨hx, -⟩
      · rw [hx, hl]
      · rw [hl] at hx
        cases hx
    refine h.update ha (fun j _ _ k hk => ?_) (fun IDs id hw => ?_) (fun k hk _ => ?_)
      (fun j IDs id _ _ hl => hkeep _ _ hl) fun x k hk => ?_
    · rw [h1] at hk
      cases hk
    · rw [hw] at h1
      cases h1
    · rw [h1] at hk
      cases hk
    · obtain ⟨IDs, hl, hmem⟩ := hk
      exact ⟨IDs, hkeep _ _ hl, hmem⟩
  | @takes IDs id hl hk =>
    refine h.update ha (fun j hj hent k hk' hjk => ?_) (fun IDs' id' hw => ?_) (fun k _ ho => ?_)
      (fun j IDs id _ _ hl => by rw [hmap]; exact hl) fun x k hk => by rw [hmap]; exact hk
    · cases hk'
      -- the other number is in the set already, and the new one is not
      have hnot : ¬ (c.phases j).Open := by
        have hij := ha i j hj.symm hent
        simp only [Function.update_self, Function.update_of_ne hj] at hij
        exact hij ⟨_, _, rfl⟩
      have hhas := h.kept j id hjk hnot
      rw [← hent, has_of_lookup hl] at hhas
      exact (nextFree_eq_some.mp hk).2.2.1 hhas
    · cases hw
      exact ⟨by rw [hmap]; exact hl, hk⟩
    · exact absurd ⟨_, _, rfl⟩ ho
  | @writes IDs id =>
    obtain ⟨hl, -⟩ := h.copied i IDs id hph
    refine h.update ha (fun j hj hent k hk => hold k hk j hj hent) (fun IDs' id' hw => by cases hw)
      (fun k hk _ => ?_) (fun j IDs' id' hj hw hl' => ?_) fun x k hk => ?_
    · cases hk
      rw [hmap, has_insert hl]
      exact Or.inl ⟨rfl, rfl⟩
    · -- two sections of one entity would be open
      rw [hmap, lookup_insert, if_neg]
      · exact hl'
      · exact fun hent => h.apart i j hj.symm hent.symm ⟨IDs, id, hph⟩ ⟨IDs', id', hw⟩
    · rw [hmap, has_insert hl]
      exact Or.inr hk
  | late hn h0 h1 =>
    refine h.update ha (fun j hj hent k hk => hold k (by rw [← hn]; exact hk) j hj hent)
      (fun IDs id hw => absurd ⟨IDs, id, hw⟩ h1) (fun k hk _ => ?_)
      (fun j IDs id _ _ hl => by rw [hmap]; exact hl) fun x k hk => by rw [hmap]; exact hk
    rw [hmap]
    exact h.kept i k (by rw [hph, ← hn]; exact hk) (by rw [hph]; exact h0)

/-- **The first time** two sections of one entity are open, the same number has been taken twice. -/
theorem Ordered.breaks (h : Ordered posts c) (i : ι) (ha : ¬ SectionsApart posts (c.step file posts i)) :
    ¬ Distinct posts (c.step file posts i) := by
  obtain ⟨ph, w, hstep, hm⟩ := step_cases file posts c i
  rw [hstep] at ha ⊢
  -- the new section is that of `i`
  have hnew : ph.Open ∧ ∃ j, j ≠ i ∧ (posts i).url.entity = (posts j).url.entity ∧
      (c.phases j).Open := by
    by_contra hc
    refine ha fun j l hjl hent hj hl => ?_
    simp only at hj hl
    by_cases hji : j = i
    · subst hji
      rw [Function.update_self] at hj
      rw [Function.update_of_ne hjl.symm] at hl
      exact hc ⟨hj, l, hjl.symm, hent, hl⟩
    · rw [Function.update_of_ne hji] at hj
      by_cases hli : l = i
      · subst hli
        rw [Function.update_self] at hl
        exact hc ⟨hl, j, hji, hent.symm, hj⟩
      · rw [Function.update_of_ne hli] at hl
        exact h.apart j l hjl hent hj hl
  obtain ⟨hopen, j, hj, hent, IDs, id, hw⟩ := hnew
  generalize c.phases i = ph₀ at hm
  generalize w.entityIdMap = m at hm
  cases hm with
  | early _ h1 => exact absurd hopen (Phase.not_open h1)
  | writes => obtain ⟨_, _, hc⟩ := hopen; cases hc
  | late _ _ h1 => exact absurd hopen h1
  | @takes IDs₀ id₀ hl hk =>
    -- both have searched the same set
    obtain ⟨hl', hk'⟩ := h.copied j IDs id hw
    rw [← hent, hl, Option.some.injEq] at hl'
    subst hl'
    rw [hk, Option.some.injEq] at hk'
    subst hk'
    intro hd
    refine hd i j hj.symm hent id₀ ?_ ?_
    · simp only [Function.update_self, Phase.number]
    · simp only [Function.update_of_ne hj, hw, Phase.number]

omit [DecidableEq ι] in
theorem ordered_start (w : World σ) : Ordered posts (start w : Posting σ ι) where
  apart _ _ _ _ h := absurd h (Phase.not_open rfl)
  distinct _ _ _ _ _ h := by cases h
  copied _ _ _ h := by cases h
  kept _ _ h := by cases h

/-- **The numbers differ exactly if the sections were apart.** `POST`s start on any map, over any file
system. Whatever the schedule, no two of them for one entity have taken the same number if and only if
no two sections of one entity have been open at the same time. -/
theorem apart_iff (w : World σ) (schedule : List ι) :
    Throughout (Posting.step file posts) (SectionsApart posts) (start w) schedule ↔
      Distinct posts ((start w).run file posts schedule) := by
  have hgood : ∀ c : Posting σ ι, Ordered posts c → SectionsApart posts c ∧ Distinct posts c :=
    fun c hc => ⟨hc.apart, hc.distinct⟩
  refine throughout_iff hgood (fun c i hc ha => hc.step i ha) (fun c i hc ha => hc.breaks i ha)
    (fun c i hd hd' => hd ?_) (ordered_start w)
  intro j l hjl hent k hj hl
  exact hd' j l hjl hent k (number_step hj) (number_step hl)

end Numbers

end Kachow.Api.Tickets
