import Kachow.Lib.Runs
import Kachow.Sessions.Handlers

/-! # The life of a session

A session is called back for the operations it has started, and for no others (`Awaited`). It should
either have one operation outstanding, or have deleted itself once, with none outstanding (`Settled`).
One step keeps this if and only if it is no read that fails without a byte (`settled_deliver`): then
the session starts nothing and does not delete itself. -/

namespace Kachow.Sessions.Lifecycle

open Kachow.Lib.Files Kachow.Lib.Runs Kachow.Http.Messages Kachow.Disk
open Kachow.Server.Factories Kachow.Server.Routes Kachow.Sessions.Handlers

/-- The completion of an operation. With that of a read comes whether the peer is still connected when
its address is logged. -/
inductive Completion where
  | handshake (error : ErrorCode)
  | read (error : ErrorCode) (bytesTransferred : ℕ) (req : Request) (connected : Bool)
  | write (error : ErrorCode)

/-- The operations it can be the completion of. -/
def Completion.completes : Completion → Operation → Bool
  | .handshake _, .handshake => true
  | .read _ _ _ _, .read => true
  | .write _, .write _ => true
  | _, _ => false

/-- A read that fails before the first byte. -/
def Completion.readsNothing : Completion → Bool
  | .read error bytesTransferred _ _ => error ≠ 0 && bytesTransferred = 0
  | _ => false

section Deliver
variable {σ : Type} (routes : RouteMap) (out : Outside) (file : FileSystem σ)

/-- A completion is delivered: its operation is outstanding no more, and the session is called back. A
read that succeeds has replaced the request. -/
def deliver (e : Completion) : EStateM Fault (Connection σ) ℤ := do
  onSession fun s => { s with outstanding := s.outstanding.eraseP e.completes }
  match e with
  | .handshake error => handleHandshake error
  | .read error bytesTransferred req connected =>
    onSession fun s => if error = 0 then { s with request := req } else s
    handleRead routes out file error bytesTransferred connected
  | .write error => handleWrite error

/-- An operation it completes is outstanding. -/
def Awaited (c : Connection σ) (e : Completion) : Prop :=
  ∃ op ∈ c.session.outstanding, e.completes op = true

/-- The session has one operation outstanding, or has deleted itself once and has none. -/
def Settled (c : Connection σ) : Prop :=
  c.session.deleted = 0 ∧ c.session.outstanding.length = 1 ∨
    c.session.deleted = 1 ∧ c.session.outstanding = []

variable {routes out file}

/-- A session that is waiting has no other operation outstanding. -/
theorem outstanding_eq {c : Connection σ} {e : Completion} (hs : Settled c) (ha : Awaited c e) :
    c.session.deleted = 0 ∧ c.session.outstanding.eraseP e.completes = [] := by
  obtain ⟨op, hop, hc⟩ := ha
  rcases hs with ⟨hdel, hlen⟩ | ⟨-, hnil⟩
  · obtain ⟨op', hop'⟩ := List.length_eq_one_iff.mp hlen
    rw [hop', List.mem_singleton] at hop
    subst hop
    exact ⟨hdel, by simp [hop', hc]⟩
  · rw [hnil] at hop
    simp at hop

/-- The session when it is called back. -/
def calledBack (c : Connection σ) : Connection σ :=
  ⟨{ c.session with outstanding := [] }, c.memory⟩

theorem run_deliver {c : Connection σ} {e : Completion} (hs : Settled c) (ha : Awaited c e) :
    (deliver routes out file e).run c =
      match e with
      | .handshake error => (handleHandshake error).run (calledBack c)
      | .read error bytesTransferred req connected =>
        (handleRead routes out file error bytesTransferred connected).run
          ⟨if error = 0 then { (calledBack c).session with request := req }
            else (calledBack c).session, c.memory⟩
      | .write error => (handleWrite error).run (calledBack c) := by
  unfold deliver
  simp only [EStateM.run_bind, run_onSession, (outstanding_eq hs ha).2]
  cases e <;> rfl

/-- After the handshake or a write the session goes on, or deletes itself. -/
theorem settled_callback {c c' : Connection σ} {r : ℤ} {error : ErrorCode}
    (h0 : c.session.deleted = 0) (hnil : c.session.outstanding = [])
    (hr : (handleHandshake error).run c = .ok r c') : Settled c' := by
  unfold handleHandshake at hr
  split_ifs at hr
  · simp only [EStateM.run_bind, run_startOperation, EStateM.run_pure] at hr
    cases hr
    exact Or.inl ⟨h0, by simp [hnil]⟩
  · simp only [EStateM.run_bind, run_deleteThis, EStateM.run_pure] at hr
    cases hr
    exact Or.inr ⟨by simp [h0], hnil⟩

/-- After a read it writes a response, unless the read has failed before the first byte. -/
theorem settled_handleRead {c c' : Connection σ} {r : ℤ} {error : ErrorCode} {n : ℕ}
    {connected : Bool} (h0 : c.session.deleted = 0) (hnil : c.session.outstanding = [])
    (hr : (handleRead routes out file error n connected).run c = .ok r c') :
    Settled c' ↔ ¬ (error ≠ 0 ∧ n = 0) := by
  unfold handleRead at hr
  by_cases he : error = 0
  · rw [if_pos he] at hr
    obtain ⟨o, m, -, rfl⟩ := reply_ok hr
    exact iff_of_true (Or.inl ⟨h0, by simp [hnil]⟩) fun h => h.1 he
  · rw [if_neg he] at hr
    by_cases hn : 0 < n
    · rw [if_pos hn] at hr
      simp only [EStateM.run_bind, run_onSession, run_startWrite, EStateM.run_pure] at hr
      cases hr
      exact iff_of_true (Or.inl ⟨h0, by simp [hnil]⟩) fun h => absurd h.2 (by omega)
    · rw [if_neg hn] at hr
      cases hr
      refine iff_of_false ?_ fun h => h ⟨he, by omega⟩
      rintro (⟨-, hlen⟩ | ⟨hdel, -⟩)
      · rw [hnil] at hlen
        simp at hlen
      · omega

/-- **One completion** leaves the session settled, unless it is a read that fails before the first
byte. -/
theorem settled_deliver {c c' : Connection σ} {e : Completion} {r : ℤ} (hs : Settled c)
    (ha : Awaited c e) (hr : (deliver routes out file e).run c = .ok r c') :
    Settled c' ↔ e.readsNothing = false := by
  have h0 : (calledBack c).session.deleted = 0 := (outstanding_eq hs ha).1
  rw [run_deliver hs ha] at hr
  cases e with
  | handshake error => exact iff_of_true (settled_callback h0 rfl hr) rfl
  | write error => exact iff_of_true (settled_callback h0 rfl hr) rfl
  | read error n req connected =>
    have hread := @settled_handleRead σ routes out file _ c' r error n connected
      (by split_ifs <;> exact h0) (by split_ifs <;> rfl) hr
    rw [hread]
    simp [Completion.readsNothing]

end Deliver

/-- **The life of a session.** Started, and called back for operations it has outstanding, none of them
a read that fails before the first byte, a session is settled at every point. -/
theorem lifecycle {σ : Type} {routes : RouteMap} {out : Outside} {file : FileSystem σ} {m : Memory σ}
    {c c' : Connection σ} {r : ℤ} {rs : List ℤ} {es : List Completion}
    (hstart : start.run ⟨{}, m⟩ = .ok r c)
    (hes : Along (deliver routes out file)
      (fun c e => Awaited c e ∧ e.readsNothing = false) c es)
    (hrun : (runAll (deliver routes out file) es).run c = .ok rs c') : Settled c' := by
  have hfirst : Settled c := by
    cases hstart
    exact Or.inl ⟨rfl, rfl⟩
  have hstep : ∀ (c : Connection σ) (e : Completion) (o : ℤ) (c' : Connection σ), Settled c →
      (Awaited c e ∧ e.readsNothing = false) → (deliver routes out file e).run c = .ok o c' →
        Settled c' :=
    fun _ _ _ _ hs he hr => (settled_deliver hs he.1 hr).mpr he.2
  exact inv_of_run hstep hfirst hes hrun

/-- A server without locations, on an empty file system. -/
def deliverBare : Completion → EStateM Fault (Connection Tree) ℤ :=
  deliver ∅ ⟨fun _ => [], fun _ _ => Secure.Handler.FakeAuth.getAuth⟩ (realFileSystem [])

def bareMemory : Memory Tree := ⟨FileTree.empty, fun _ => ∅⟩

def someRequest : Request := ⟨.get, "/".toList, 11, [], []⟩

/-- A request is answered, and the peer is gone when the answer is written. -/
theorem lifecycle_answered : ∃ c rs c', start.run ⟨{}, bareMemory⟩ = .ok 1 c ∧
    (runAll deliverBare [.handshake 0, .read 0 18 someRequest true, .write 32]).run c = .ok rs c' ∧
    Settled c' ∧ c'.session.deleted = 1 := by
  have hstart : start.run ⟨{}, bareMemory⟩ = .ok 1 ⟨{ outstanding := [.handshake] }, bareMemory⟩ := rfl
  have hrun : (runAll deliverBare [.handshake 0, .read 0 18 someRequest true, .write 32]).run
      ⟨{ outstanding := [.handshake] }, bareMemory⟩ = .ok [1, 1, -1]
        ⟨{ request := someRequest, response := setInvalid {}, deleted := 1 }, bareMemory⟩ := rfl
  refine ⟨_, _, _, hstart, hrun, lifecycle hstart ?_ hrun, rfl⟩
  refine ⟨⟨⟨_, List.mem_singleton_self _, rfl⟩, rfl⟩, fun _ _ h1 => ?_⟩
  cases h1
  refine ⟨⟨⟨_, List.mem_singleton_self _, rfl⟩, rfl⟩, fun _ _ h2 => ?_⟩
  cases h2
  exact ⟨⟨⟨_, List.mem_singleton_self _, rfl⟩, rfl⟩, fun _ _ _ => trivial⟩

/-- After the handshake the peer closes the connection without sending anything, and the session is left
with nothing outstanding. -/
theorem closed_unnoticed : ∃ c rs c', start.run ⟨{}, bareMemory⟩ = .ok 1 c ∧
    Along deliverBare Awaited c [.handshake 0, .read 1 0 someRequest true] ∧
    (runAll deliverBare [.handshake 0, .read 1 0 someRequest true]).run c = .ok rs c' ∧
    ¬ Settled c' ∧ c'.session.deleted = 0 ∧ c'.session.outstanding = [] := by
  refine ⟨_, _, _, rfl, ?_, rfl, ?_, rfl, rfl⟩
  · refine ⟨⟨_, List.mem_singleton_self _, rfl⟩, fun _ _ h1 => ?_⟩
    cases h1
    exact ⟨⟨_, List.mem_singleton_self _, rfl⟩, fun _ _ _ => trivial⟩
  · rintro (⟨-, h⟩ | ⟨h, -⟩)
    · exact absurd h (by decide)
    · exact absurd h (by decide)

end Kachow.Sessions.Lifecycle
