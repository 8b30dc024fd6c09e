import Kachow.Lib.Crash
import Kachow.Api.Serializable

/-! # A process that is killed

The process can be killed at any time, between two steps of its workers, and while a file is written. The
tree is left, and the server starts again: `scanFS` builds the map from the tree.

A request that is cut off has left the store as it was, or with its entity made and no object in it yet,
or with the first bytes of the body in the file of its object, or has done all it was to do (`Cut`,
`within_responseThread`). Several requests at once, for different entities, have each left their entity so
(`exists_left`).

So a server that is killed any number of times while it works is a store (`batches_refine`): what was
answered is kept, and what was not answered is done, half done or not done at all. No object that was
stored, and for which an answer was given, is ever lost, unless a later request was to replace or to
delete it (`answered_kept`). -/

namespace Kachow.Api.Crash

open Kachow.Lib.Text Kachow.Lib.Decimal Kachow.Lib.Sets Kachow.Lib.Files Kachow.Lib.Runs
open Kachow.Lib.Threads Kachow.Lib.Crash Kachow.Boost.Paths Kachow.Http.Messages Kachow.Http.Mime
open Kachow.Disk Kachow.Api.Ids Kachow.Api.Handler Kachow.Api.Objects Kachow.Api.StoreStep
open Kachow.Api.Factory Kachow.Api.Frame Kachow.Api.Threads Kachow.Api.Serializable

/-! ### One request -/

/-- What a request that is cut off has left: what was there; or its entity without a new object; or the
object a `PUT` replaces or a `POST` adds, with the first bytes of the body in its file; or all it was to
leave. -/
inductive Cut (s s' : Store) (r : ObjectRequest) : Store → Prop
  | before : Cut s s' r s
  | made (h : s'.made r.entity = true) : Cut s s' r (s.make r.entity)
  | replacing {k : ObjectId} {b : Str} (hm : r.method = .put) (hid : r.id = some k) (hb : b <+: r.body) :
      Cut s s' r (s.put r.entity k b)
  | adding {k : ObjectId} {b : Str} (hm : r.method = .post) (hid : r.id = none)
      (hfree : s.content r.entity k.number = none) (hs' : s' = s.put r.entity k r.body)
      (hb : b <+: r.body) : Cut s s' r (s.put r.entity k b)
  | after : Cut s s' r s'

section Still
variable {d : Tree} {e : Str}

/-- The step leaves the tree `d` alone. -/
def StepsStill (d : Tree) (β : Type) (x : EStateM Fault (World Tree) β) : Prop :=
  ∀ w, w.disk = d → (∀ b v, x.run w = .ok b v → v.disk = d) ∧ ∀ f v, x.run w = .error f v → v.disk = d

/-- No step of the thread changes the tree `d`. -/
abbrev Still (d : Tree) {α : Type} (t : Thread Fault (World Tree) α) : Prop :=
  t.All (fun _ => True) (StepsStill d)

theorem stepsStill_read {α : Type} {x : EStateM Fault (World Tree) α} {f : World Tree → α}
    (hx : ∀ w, x.run w = .ok (f w) w) : StepsStill d α x := by
  intro w hw
  rw [hx]
  refine ⟨fun b v h => ?_, fun _ _ h => by cases h⟩
  cases h
  exact hw

theorem stepsStill_onIds (f : EntityIdMap → EntityIdMap) : StepsStill d Unit (onIds f) := by
  intro w hw
  rw [run_onIds]
  refine ⟨fun b v h => ?_, fun _ _ h => by cases h⟩
  cases h
  exact hw

theorem stepsStill_copyKnownIDs : StepsStill d IdSet (copyKnownIDs e) := by
  intro w hw
  cases hl : w.entityIdMap.lookup e with
  | none =>
    have hrun : (copyKnownIDs e).run w = .error .endDereference w := by
      simp [copyKnownIDs, EStateM.run, hl]
    rw [hrun]
    refine ⟨fun _ _ h => (by cases h), fun f v h => ?_⟩
    cases h
    exact hw
  | some IDs =>
    have hrun : (copyKnownIDs e).run w = .ok IDs w := by simp [copyKnownIDs, EStateM.run, hl]
    rw [hrun]
    refine ⟨fun b v h => ?_, fun _ _ h => by cases h⟩
    cases h
    exact hw

theorem still_nextIdThread : Still d (nextIdThread e) :=
  Thread.all_atomic_bind stepsStill_copyKnownIDs fun existingIDs _ => by
    cases nextFree existingIDs with
    | none => trivial
    | some id => exact Thread.all_atomic_bind (stepsStill_onIds _) fun _ _ => trivial

theorem still_eraseThread (id : ℤ) : Still d (eraseThread e id) :=
  Thread.all_atomic_bind (stepsStill_read fun _ => rfl) fun IDs _ => by
    cases IDs with
    | none => trivial
    | some existingIDs =>
      simp only
      split_ifs
      · exact Thread.all_atomic (stepsStill_onIds _)
      · trivial

theorem still_insertThread (id : ℤ) : Still d (insertThread e id) :=
  Thread.all_atomic_bind (stepsStill_read fun _ => rfl) fun IDs _ => by
    cases IDs with
    | none => exact Thread.all_atomic (stepsStill_onIds _)
    | some existingIDs =>
      simp only
      split_ifs
      · trivial
      · exact Thread.all_atomic (stepsStill_onIds _)

/-- A thread that leaves the tree alone goes through states with this tree only. -/
theorem Still.within {α : Type} {D : Tree → Prop} {t : Thread Fault (World Tree) α} {w : World Tree}
    (h : Still w.disk t) (hw : D w.disk) : Within (fun v => D v.disk) t w := by
  intro n
  have hn := within_of_all (C := fun v : World Tree => v.disk = w.disk) h rfl n
  exact hn ▸ hw

end Still

section Pieces
variable {C : World Tree → Prop} {cwd : Loc Str} {t : Tree} {p : Path} {m : EntityIdMap}

theorem within_fillThread : ∀ {rest b : Str}, (∀ b', b' <+: b ++ rest → C ⟨writeAt cwd t p b', m⟩) →
    Within C (fillThread cwd p b rest) ⟨writeAt cwd t p b, m⟩
  | [], b, hC => within_done () (hC b (List.prefix_append b []))
  | c :: rest, b, hC => by
    refine within_atomic_bind (a := ()) (t := ⟨writeAt cwd t p (b ++ [c]), m⟩)
      (hC b (List.prefix_append _ _)) ?_
      (within_fillThread fun b' hb' => hC b' (by rwa [List.append_cons]))
    rw [← fillAt_writeAt b (b ++ [c])]
    rfl

/-- While a file is written it holds the first bytes of the body. -/
theorem within_inPieces {body : Str} (hs : C ⟨t, m⟩)
    (hC : ∀ b, b <+: body → C ⟨writeAt cwd t p b, m⟩) : Within C (inPieces cwd p body) ⟨t, m⟩ := by
  refine within_atomic_bind hs (run_writeFile _ _ _ _) ?_
  exact within_bind (f := fun _ => pure true) (within_done true (hC body List.prefix_rfl))
    (run_fillThread m body []) (within_fillThread hC)

theorem run_inPieces (body : Str) :
    (inPieces cwd p body).alone.run ⟨t, m⟩ = .ok true ⟨writeAt cwd t p body, m⟩ := by
  rw [alone_inPieces, run_writeFile]

end Pieces

/-- The directory of an entity is made, and nothing else. -/
theorem exists_mkdir {base : Path} {cwd B : Loc Str} {t : Tree} {s : Store} {e : Str}
    (hd : OnDisk base cwd B t s) (he : IsName e) (hm : s.made e = false) :
    ∃ t', mkdirAt cwd t (entityPath base e) = some (true, t') ∧ OnDisk base cwd B t' (s.make e) ∧
      Touches B e t t' := by
  obtain ⟨t', ht, hd'⟩ := hd.make he hm
  refine ⟨t', ht, hd', fun l => ?_, fun l => isDir_mkdirAt ht⟩
  rcases node_mkdirAt ht l with h1 | ⟨h1, -⟩
  · exact Or.inl h1
  · rw [← locate_resolve (hd.locate_entity he)] at h1
    exact Or.inr (Or.inl h1)

section Request
variable {h : RequestHandlerAPI} {cwd B : Loc Str} {loc : Str} {w : World Tree} {s s' : Store}
  {m' : EntityIdMap} {r : ObjectRequest} {req : Request} {res : Response} {o : Bool × Response}

/-- What a request that is cut off has done to the tree `t₀`. -/
def LeftBy (base : Path) (cwd B : Loc Str) (t₀ : Tree) (s s' : Store) (r : ObjectRequest) (t : Tree) :
    Prop := ∃ sd, Cut s s' r sd ∧ OnDisk base cwd B t sd ∧ Touches B r.entity t₀ t

theorem still_retrieveThread (d : Tree) (u : ParsedUrl) :
    Still d (retrieveThread (realFileSystem cwd) res u) := by
  unfold retrieveThread
  refine Thread.all_atomic_bind (stepsStill_read fun _ => rfl) fun there _ => ?_
  have hrest : ∀ regular : Bool, Still d (if !regular then do
        eraseThread u.entity u.id
        pure (false, setNotfoundRequest res)
      else do
        let body ← call ((realFileSystem cwd).readFile u.fullPath)
        insertThread u.entity u.id
        pure (true, res.fill 200 (extensionToMIME u.fullPath.extension) body)) := by
    intro regular
    cases regular with
    | false => exact Thread.all_bind (fun _ => Thread.all_pure _) (still_eraseThread _)
    | true =>
      exact Thread.all_atomic_bind (stepsStill_read fun _ => rfl) fun _ _ =>
        Thread.all_bind (fun _ => Thread.all_pure _) (still_insertThread _)
  split_ifs
  · trivial
  · exact Thread.all_atomic_bind (stepsStill_read fun _ => rfl) fun _ _ => trivial
  · exact Thread.all_atomic_bind (stepsStill_read fun _ => rfl) fun regular _ => hrest regular
  · exact hrest false

/-- While an object is written the tree holds the store with the first bytes of the body in it. -/
theorem within_writing {C : Tree → Prop} {t : Tree} {m : EntityIdMap} {e : Str}
    (hd : OnDisk h.basePath cwd B t (s.make e)) (he : IsName e) (k : ObjectId) {body : Str}
    {next : Thread Fault (World Tree) (Bool × Response)} (hs : C t)
    (hC : ∀ t' b, b <+: body → OnDisk h.basePath cwd B t' (s.put e k b) → Touches B e t t' → C t')
    (hnext : ∀ t', C t' → Within (fun v => C v.disk) next ⟨t', m⟩) :
    Within (fun v => C v.disk)
      (inPieces cwd (objectPath h.basePath e k.number) body >>= fun _ => next) ⟨t, m⟩ := by
  have hmk : (s.make e).made e = true := by simp [Store.make]
  have hwritten : ∀ b, b <+: body → C (writeAt cwd t (objectPath h.basePath e k.number) b) := by
    intro b hb
    refine hC _ b hb ?_ (touches_writeAt he hd hmk k b)
    rw [← Store.make_put]
    exact hd.put k he hmk b
  exact within_bind (hnext _ (hwritten body List.prefix_rfl)) (run_inPieces body)
    (within_inPieces hs hwritten)

variable (hb : TakesNames h.basePath) (hd : OnDisk h.basePath cwd B w.disk s)
include hb hd

theorem within_createThread (hi : InMap w.entityIdMap s) (hm : r.method = .post)
    (hr : respond s w.entityIdMap r res = .ok (o, s', m')) (hbody : req.body = r.body) :
    Within (fun v => LeftBy h.basePath cwd B w.disk s s' r v.disk)
      (createThread h (realFileSystem cwd) (inPieces cwd) req res (parsedObject h.basePath r)) w := by
  have hbefore : LeftBy h.basePath cwd B w.disk s s' r w.disk := ⟨s, .before, hd, .rfl⟩
  unfold createThread
  rw [entity_parsedObject]
  cases hid : r.id with
  | some k =>
    have hup : (parsedObject h.basePath r).fullPath.parentPath.same h.basePath = false := by
      simp only [parsedObject, hid]
      rw [(named_object hb r.isName k.number).2, not_same_entity hb r.isName]
    rw [hup]
    exact within_done _ hbefore
  | none =>
    have hpath : (parsedObject h.basePath r).fullPath = entityPath h.basePath r.entity := by
      simp only [parsedObject, hid]
    rw [hpath, (named_entity hb r.isName).2.2]
    -- the number the entity gives out
    simp only [respond, hm, hid] at hr
    cases hnext : getNextId (if s.made r.entity then w.entityIdMap
        else insertKey w.entityIdMap r.entity) r.entity with
    | error f => simp [hnext] at hr
    | ok q =>
      obtain ⟨id, m''⟩ := q
      simp only [hnext, Except.ok.injEq, Prod.mk.injEq] at hr
      obtain ⟨-, rfl, -⟩ := hr
      obtain ⟨IDs, hl, hfree, -⟩ := getNextId_ok hnext
      obtain ⟨h1, h2, hnot, -⟩ := nextFree_eq_some.mp hfree
      have hnone : s.content r.entity id = none := by
        cases hmade : s.made r.entity with
        | false => exact s.content_of_not_made hmade id
        | true =>
          rw [hmade, if_pos rfl] at hl
          exact not_ne_iff.mp fun hne => hnot ((hi.mem _ _ _ hl).mpr hne)
      have hwrite : Store.write (s.make r.entity) r.entity id r.body =
          s.put r.entity ⟨id, h1, h2⟩ r.body := by
        rw [Store.write, dif_pos ⟨h1, h2⟩, Store.make_put]
      rw [hwrite] at hbefore ⊢
      -- once the entity is made
      have hrest : ∀ t, OnDisk h.basePath cwd B t (s.make r.entity) → Touches B r.entity w.disk t →
          Within (fun v => LeftBy h.basePath cwd B w.disk s (s.put r.entity ⟨id, h1, h2⟩ r.body) r v.disk)
            (do
              let id ← nextIdThread r.entity
              let _ ← inPieces cwd ((entityPath h.basePath r.entity).append (intToString id)) req.body
              pure (true, setCreated res id))
            (⟨t, if s.made r.entity then w.entityIdMap else insertKey w.entityIdMap r.entity⟩ :
              World Tree) := by
        intro t ht htouch
        have hmade : LeftBy h.basePath cwd B w.disk s (s.put r.entity ⟨id, h1, h2⟩ r.body) r t :=
          ⟨_, .made (by simp [Store.put]), ht, htouch⟩
        refine within_bind (a := id) (u := ⟨t, m''⟩) ?_ ?_ (still_nextIdThread.within hmade)
        · rw [append_entity hb r.isName, hbody]
          exact within_writing ht r.isName ⟨id, h1, h2⟩ hmade
            (fun t' b hb hd' htouch' => ⟨_, .adding hm hid hnone rfl hb, hd', htouch.trans htouch'⟩)
            fun t' ht' => within_done _ ht'
        · rw [alone_nextIdThread, run_takeNextId]
          simp only [hnext]
      refine within_atomic_bind hbefore (run_exists _ _ _) ?_
      rw [hd.existsAt_entity r.isName]
      cases hmade : s.made r.entity with
      | true =>
        have hr := hrest w.disk (by rw [Store.make_of_made hmade]; exact hd) .rfl
        rw [hmade] at hr
        exact hr
      | false =>
        obtain ⟨t, ht, hd', htouch⟩ := exists_mkdir hd r.isName hmade
        have hdir : (onDisk ((realFileSystem cwd).createDirectory (entityPath h.basePath r.entity))).run w =
            .ok true ⟨t, w.entityIdMap⟩ := by rw [run_createDirectory, ht]
        have hleft : LeftBy h.basePath cwd B w.disk s (s.put r.entity ⟨id, h1, h2⟩ r.body) r t :=
          ⟨_, .made (by simp [Store.put]), hd', htouch⟩
        have hr := hrest t hd' htouch
        rw [hmade] at hr
        exact within_atomic_bind hbefore hdir (within_atomic_bind hleft (run_onIds _ _) hr)

theorem within_updateThread (hm : r.method = .put)
    (hr : respond s w.entityIdMap r res = .ok (o, s', m')) (hbody : req.body = r.body) :
    Within (fun v => LeftBy h.basePath cwd B w.disk s s' r v.disk)
      (updateThread h (realFileSystem cwd) (inPieces cwd) req res (parsedObject h.basePath r)) w := by
  have hbefore : LeftBy h.basePath cwd B w.disk s s' r w.disk := ⟨s, .before, hd, .rfl⟩
  unfold updateThread
  rw [entity_parsedObject]
  cases hid : r.id with
  | none =>
    have hpath : (parsedObject h.basePath r).fullPath = entityPath h.basePath r.entity := by
      simp only [parsedObject, hid]
    rw [hpath, if_pos (Or.inr (by rw [not_same_base hb r.isName]; rfl))]
    exact within_done _ hbefore
  | some k =>
    have hpath : (parsedObject h.basePath r).fullPath = objectPath h.basePath r.entity k.number := by
      simp only [parsedObject, hid]
    have hk : (parsedObject h.basePath r).id = k.number := by simp only [parsedObject, hid]
    have hcond : ¬ ((parsedObject h.basePath r).id = 0 ∨
        !((entityPath h.basePath r.entity).parentPath.same h.basePath)) := by
      rw [hk, (named_entity hb r.isName).2.2]
      have := k.pos
      simp
      omega
    simp only [respond, hm, hid] at hr
    obtain ⟨-, rfl, -⟩ := Except.ok.inj hr
    rw [hpath, (named_object hb r.isName k.number).2, if_neg hcond]
    -- once the entity is made
    have hrest : ∀ t m, OnDisk h.basePath cwd B t (s.make r.entity) → Touches B r.entity w.disk t →
        Within (fun v => LeftBy h.basePath cwd B w.disk s (s.put r.entity k r.body) r v.disk) (do
          let _ ← inPieces cwd (objectPath h.basePath r.entity k.number) req.body
          insertThread r.entity (parsedObject h.basePath r).id
          pure (true, setOk res)) (⟨t, m⟩ : World Tree) := by
      intro t m ht htouch
      rw [hbody]
      refine within_writing ht r.isName k ⟨_, .made (by simp [Store.put]), ht, htouch⟩
        (fun t' b hb hd' htouch' => ⟨_, .replacing hm hid hb, hd', htouch.trans htouch'⟩) fun t' ht' => ?_
      refine Still.within (D := LeftBy h.basePath cwd B w.disk s (s.put r.entity k r.body) r) ?_ ht'
      exact Thread.all_bind (fun _ => Thread.all_pure _) (still_insertThread _)
    refine within_atomic_bind hbefore (run_exists _ _ _) ?_
    rw [hd.existsAt_entity r.isName]
    cases hmade : s.made r.entity with
    | true => exact hrest w.disk w.entityIdMap (by rw [Store.make_of_made hmade]; exact hd) .rfl
    | false =>
      obtain ⟨t, ht, hd', htouch⟩ := exists_mkdir hd r.isName hmade
      have hdir : (onDisk ((realFileSystem cwd).createDirectory (entityPath h.basePath r.entity))).run w =
          .ok true ⟨t, w.entityIdMap⟩ := by rw [run_createDirectory, ht]
      exact within_atomic_bind hbefore hdir (hrest t w.entityIdMap hd' htouch)

omit hb in
theorem within_removeThread (hm : r.method = .delete)
    (hr : respond s w.entityIdMap r res = .ok (o, s', m')) :
    Within (fun v => LeftBy h.basePath cwd B w.disk s s' r v.disk)
      (removeThread (realFileSystem cwd) res (parsedObject h.basePath r)) w := by
  have hbefore : LeftBy h.basePath cwd B w.disk s s' r w.disk := ⟨s, .before, hd, .rfl⟩
  have hent : (parsedObject h.basePath r).entity = r.entity := entity_parsedObject _ _
  -- where there is no object nothing is done
  have hnone : Within (fun v => LeftBy h.basePath cwd B w.disk s s' r v.disk)
      (pure (false, setNotfoundRequest res) : Thread Fault (World Tree) (Bool × Response)) w :=
    within_done _ hbefore
  unfold removeThread
  refine within_atomic_bind hbefore (run_exists _ _ _) ?_
  cases hthere : existsAt cwd w.disk (parsedObject h.basePath r).fullPath with
  | false => exact hnone
  | true =>
    refine within_atomic_bind hbefore (run_isRegularFile _ _ _) ?_
    cases hfile : isFileAt cwd w.disk (parsedObject h.basePath r).fullPath with
    | false => exact hnone
    | true =>
      cases hid : r.id with
      | none =>
        simp only [parsedObject, hid] at hfile
        rw [hd.isFileAt_entity r.isName] at hfile
        cases hfile
      | some k =>
        have hpath : (parsedObject h.basePath r).fullPath = objectPath h.basePath r.entity k.number := by
          simp only [parsedObject, hid]
        have hobj := hd.isFileAt_object k r.isName
        rw [hpath] at hthere hfile ⊢
        rw [hthere, hfile, Bool.and_self, eq_comm, Option.isSome_iff_ne_none] at hobj
        obtain ⟨b, hc⟩ := Option.ne_none_iff_exists'.mp hobj
        simp only [respond, hm, hid, hc] at hr
        obtain ⟨-, rfl, -⟩ := Except.ok.inj hr
        obtain ⟨t, hrm, ht⟩ := hd.drop k r.isName hobj
        have hrun : (onDisk ((realFileSystem cwd).remove (objectPath h.basePath r.entity k.number))).run w =
            .ok true ⟨t, w.entityIdMap⟩ := by rw [run_fsRemove, hrm]
        refine within_atomic_bind hbefore hrun ?_
        refine Still.within (D := LeftBy h.basePath cwd B w.disk s (s.drop r.entity k.number) r) ?_
          ⟨_, .after, ht, touches_removeAt hd r.isName k hobj hrm⟩
        rw [hent]
        exact Thread.all_bind (fun _ => Thread.all_pure _) (still_eraseThread _)

/-- **A request that is cut off** has left the store as it was, or with its entity made, or with the first
bytes of the body in its file, or has done all it was to do. -/
theorem within_responseThread (hp : h.prefixLength = loc.length) (hi : InMap w.entityIdMap s)
    (hr : respond s w.entityIdMap r res = .ok (o, s', m')) :
    Within (fun v => LeftBy h.basePath cwd B w.disk s s' r v.disk)
      (responseThread h (realFileSystem cwd) (inPieces cwd) (r.toRequest loc) res) w := by
  have hbefore : LeftBy h.basePath cwd B w.disk s s' r w.disk := ⟨s, .before, hd, .rfl⟩
  unfold responseThread
  rw [parseUrlTarget_toRequest hp]
  simp only [parsedObject_ok, Bool.not_true, Bool.false_eq_true, if_false]
  unfold serveThread
  have hmethod : (r.toRequest loc).method = r.method := rfl
  rw [hmethod]
  cases hm : r.method with
  | post => exact within_createThread hb hd hi hm hr rfl
  | get =>
    exact Still.within (D := LeftBy h.basePath cwd B w.disk s s' r) (still_retrieveThread _ _) hbefore
  | put => exact within_updateThread hb hd hm hr rfl
  | delete => exact within_removeThread hd hm hr
  | _ => exact within_done _ hbefore

end Request

/-! ### Several requests -/

/-- What two stores have under the name is the same. -/
structure SameObjects (s s' : Store) (e : Str) : Prop where
  made : s.made e = s'.made e
  content : ∀ k, s.content e k = s'.content e k

/-- The store in the directory `B` of a tree. -/
def storeIn (B : Loc Str) (t : Tree) : Store where
  made e := t.isDir (B ++ [e])
  content e k :=
    if t.isDir (B ++ [e]) = true ∧ 1 ≤ k ∧ k ≤ intMax then t.read (B ++ [e] ++ [intToString k]) else none
  live e k h := by
    split_ifs at h with hc
    · exact hc
    · exact absurd rfl h

section Stores
variable {base : Path} {cwd B : Loc Str} {t t' : Tree} {s s' : Store} {e : Str}

/-- A tree with directories in `B`, and files in those, holds a store. -/
theorem onDisk_storeIn (h : Based base cwd B t) : OnDisk base cwd B t (storeIn B t) where
  base := h.base
  dir := h.dir
  entity e := by
    have hfile := h.entity e
    unfold storeIn
    cases hn : t.node (B ++ [e]) with
    | none => simp [FileTree.isDir, hn]
    | some n =>
      cases n with
      | dir => simp [FileTree.isDir, hn]
      | file b => simp [FileTree.isFile, hn] at hfile
  object e k h1 h2 := by
    have hdir := h.object e (intToString k)
    simp only [storeIn, h1, h2, and_self, and_true]
    split_ifs with hd
    · unfold FileTree.read
      cases hn : t.node (B ++ [e] ++ [intToString k]) with
      | none => rfl
      | some n =>
        cases n with
        | dir =>
          rw [FileTree.isDir_iff.mpr hn] at hdir
          cases hdir
        | file b => rfl
    · exact FileTree.node_eq_none_of_not_isDir (by simpa using hd) _

/-- Two trees with the same directory for an entity hold the same objects of it. -/
theorem sameObjects_of_sameDir (h : OnDisk base cwd B t s) (h' : OnDisk base cwd B t' s')
    (hs : SameDir B e t t') : SameObjects s s' e where
  made := by
    rw [← h.isDir_entity, ← h'.isDir_entity]
    exact (FileTree.node_congr (hs [])).1
  content k := by
    by_cases hk : 1 ≤ k ∧ k ≤ intMax
    · have h1 := h.object e k hk.1 hk.2
      have h2 := h'.object e k hk.1 hk.2
      have hnode := hs [intToString k]
      rw [List.append_cons] at hnode
      rw [h1, h2] at hnode
      exact Option.map_injective (fun _ _ => Node.file.inj) hnode
    · have hnone : ∀ s : Store, s.content e k = none := by
        intro s
        by_contra hc
        exact hk (s.live e k hc).2
      rw [hnone, hnone]

end Stores

section Pool
variable {ι : Type} [DecidableEq ι] {h : RequestHandlerAPI} {cwd B : Loc Str} {loc : Str}
  {w : World Tree} {s : Store} {rs : ι → ObjectRequest × Response}

/-- The store answers the request with `o`, and is `s'` then. -/
def Serves (s : Store) (r : ObjectRequest × Response) (o : Bool × Response) (s' : Store) : Prop :=
  ∃ m m', InMap m s ∧ respond s m r.1 r.2 = .ok (o, s', m')

/-- The answer a thread has given, if it is done. -/
def answerOf {α : Type} : Thread Fault (World Tree) α → Option α
  | .done a => some a
  | .fail _ => none
  | .atom _ _ => none

/-- The requests that were answered have been served, and the others have been cut off; what is kept under
other names is as it was. -/
structure Outcome (s : Store) (rs : ι → ObjectRequest × Response) (answers : ι → Option (Bool × Response))
    (sd : Store) : Prop where
  answered : ∀ i o, answers i = some o → ∃ s', Serves s (rs i) o s' ∧ SameObjects sd s' (rs i).1.entity
  cut : ∀ i, answers i = none → ∃ o s' sc, Serves s (rs i) o s' ∧ Cut s s' (rs i).1 sc ∧
    SameObjects sd sc (rs i).1.entity
  other : ∀ e, (∀ i, (rs i).1.entity ≠ e) → SameObjects sd s e

theorem answerOf_eq_some {α : Type} {t : Thread Fault (World Tree) α} {a : α} :
    answerOf t = some a ↔ t = .done a := by
  cases t <;> simp [answerOf]

/-- Where a thread of the pool is: in the directory of its entity, and in the set of it in the map, is
what the request leaves when it is cut off; or, if it is answered, what it leaves then. -/
structure Stopped (base : Path) (cwd B : Loc Str) (s : Store) (m : EntityIdMap)
    (r : ObjectRequest × Response) (t : Thread Fault (World Tree) (Bool × Response)) (u v : World Tree)
    (o : Bool × Response) (s' sc : Store) (m' : EntityIdMap) : Prop where
  respond : respond s m r.1 r.2 = .ok (o, s', m')
  cut : Cut s s' r.1 sc
  disk : OnDisk base cwd B v.disk sc
  only : OnlyObjects B v.disk
  same : SameEntity B (some r.1.entity) u v
  done : ∀ a, t = .done a → a = o ∧ OnDisk base cwd B v.disk s' ∧ v.entityIdMap = m'

omit [DecidableEq ι] in
/-- Alone, a request that can be served is. -/
theorem alone_requestPool (hp : h.prefixLength = loc.length) (hb : TakesNames h.basePath)
    (hd : OnDisk h.basePath cwd B w.disk s) {i : ι} (hready : Ready s w.entityIdMap (rs i).1) :
    ∃ o s' m' t, respond s w.entityIdMap (rs i).1 (rs i).2 = .ok (o, s', m') ∧
      ((requestPool h cwd (inPieces cwd) loc w rs).threads i).alone.run w = .ok o ⟨t, m'⟩ ∧
      OnDisk h.basePath cwd B t s' := by
  obtain ⟨⟨o, s', m'⟩, hr⟩ := @exists_respond s w.entityIdMap (rs i).1 (rs i).2 hready.key hready.room
  obtain ⟨t, hrun, hd', -⟩ := run_respond hp hb hd hr
  refine ⟨o, s', m', t, hr, ?_, hd'⟩
  show (responseThread h (realFileSystem cwd) (inPieces cwd) ((rs i).1.toRequest loc) (rs i).2).alone.run w = _
  rw [alone_responseThread (alone_inPieces cwd), hrun]

variable (hp : h.prefixLength = loc.length) (hb : TakesNames h.basePath)
  (hw : Holds h.basePath cwd B w s) (ho : OnlyObjects B w.disk)
  (hne : Function.Injective fun i => (rs i).1.entity) (hready : ∀ i, Ready s w.entityIdMap (rs i).1)
  (schedule : List ι)
include hp hb hw ho hne hready

/-- Every thread has stopped somewhere, and what is kept under other names is as it was. -/
theorem exists_stopped :
    Based h.basePath cwd B ((requestPool h cwd (inPieces cwd) loc w rs).run schedule).state.disk ∧
    (∀ i, ∃ v o s' sc m', Stopped h.basePath cwd B s w.entityIdMap (rs i)
      (((requestPool h cwd (inPieces cwd) loc w rs).run schedule).threads i)
      ((requestPool h cwd (inPieces cwd) loc w rs).run schedule).state v o s' sc m') ∧
    ∀ e, (∀ i, (rs i).1.entity ≠ e) →
      SameEntity B (some e) w ((requestPool h cwd (inPieces cwd) loc w rs).run schedule).state := by
  have htracks : ∃ n, Tracks (fun w => Based h.basePath cwd B w.disk) (SameEntity B)
      (fun i => some (rs i).1.entity) (requestPool h cwd (inPieces cwd) loc w rs) n
      ((requestPool h cwd (inPieces cwd) loc w rs).run schedule) := by
    refine run_cells (cells_sameEntity B).equiv (fun i j hij => hne (Option.some.inj hij)) (fun i => ?_)
      (based_of_onDisk hw.disk ho) (fun i => allLocal_responseThread hb hp) schedule
    obtain ⟨o, s', m', t, -, hrun, -⟩ := alone_requestPool hp hb hw.disk (hready i)
    exact ⟨o, ⟨t, m'⟩, hrun⟩
  obtain ⟨n, htr⟩ := htracks
  refine ⟨htr.inv, fun i => ?_, fun e he => htr.other (some e) fun i hi => he i (Option.some.inj hi)⟩
  obtain ⟨o, s', m', t, hr, hrun, hd'⟩ := alone_requestPool hp hb hw.disk (hready i)
  have hwithin := within_responseThread hb hw.disk hp hw.map hr (n i)
  obtain ⟨sc, hcut, hdisk, htouch⟩ := hwithin
  refine ⟨_, o, s', sc, m', hr, hcut, hdisk, ho.of_touches htouch, htr.own i, fun a ha => ?_⟩
  rw [htr.thread i] at ha
  have hend := alone_of_alongside (n := n i) (Prod.ext ha rfl)
  obtain ⟨rfl, hv⟩ := EStateM.Result.ok.inj (hrun.symm.trans hend)
  exact ⟨rfl, congrArg World.disk hv ▸ hd', (congrArg World.entityIdMap hv).symm⟩

/-- **What requests at the same time leave**, whenever the process is killed: a store in which each
request has been served or cut off. Once all are answered, the map has this store too. -/
theorem exists_left : ∃ sd,
    OnDisk h.basePath cwd B ((requestPool h cwd (inPieces cwd) loc w rs).run schedule).state.disk sd ∧
    OnlyObjects B ((requestPool h cwd (inPieces cwd) loc w rs).run schedule).state.disk ∧
    Outcome s rs (fun i => answerOf (((requestPool h cwd (inPieces cwd) loc w rs).run schedule).threads i)) sd ∧
    ((∀ i, nameId (rs i).1.entity = 0) →
      (∀ i, ∃ a, ((requestPool h cwd (inPieces cwd) loc w rs).run schedule).threads i = .done a) →
      InMap ((requestPool h cwd (inPieces cwd) loc w rs).run schedule).state.entityIdMap sd) := by
  obtain ⟨hbased, hstopped, hother⟩ := exists_stopped hp hb hw ho hne hready schedule
  generalize (requestPool h cwd (inPieces cwd) loc w rs).run schedule = c at hbased hstopped hother
  have hd := onDisk_storeIn hbased
  have hsame : ∀ e, (∀ i, (rs i).1.entity ≠ e) → SameObjects (storeIn B c.state.disk) s e := fun e he =>
    sameObjects_of_sameDir hd hw.disk fun r => ((hother e he).1 r).symm
  refine ⟨storeIn B c.state.disk, hd, ?_, ⟨fun i a ha => ?_, fun i _ => ?_, hsame⟩, fun hname hdone => ?_⟩
  · intro e x hx
    by_cases he : ∃ i, (rs i).1.entity = e
    · obtain ⟨i, rfl⟩ := he
      obtain ⟨v, o, s', sc, m', hv⟩ := hstopped i
      have hnode := hv.same.1 [x]
      rw [List.append_cons] at hnode
      exact hv.only _ _ (hnode ▸ hx)
    · push Not at he
      have hnode := (hother e he).1 [x]
      rw [List.append_cons] at hnode
      exact ho _ _ (hnode ▸ hx)
  · obtain ⟨v, o, s', sc, m', hv⟩ := hstopped i
    obtain ⟨rfl, hdisk, -⟩ := hv.done a (answerOf_eq_some.mp ha)
    exact ⟨s', ⟨_, _, hw.map, hv.respond⟩, sameObjects_of_sameDir hd hdisk hv.same.1⟩
  · obtain ⟨v, o, s', sc, m', hv⟩ := hstopped i
    exact ⟨o, s', sc, ⟨_, _, hw.map, hv.respond⟩, hv.cut, sameObjects_of_sameDir hd hv.disk hv.same.1⟩
  · -- each set of the map is one that a served request has left, or is as it was
    have hset : ∀ e, ∃ m' s', InMap m' s' ∧ c.state.entityIdMap.lookup e = m'.lookup e ∧
        SameObjects (storeIn B c.state.disk) s' e := by
      intro e
      by_cases he : ∃ i, (rs i).1.entity = e
      · obtain ⟨i, rfl⟩ := he
        obtain ⟨v, o, s', sc, m', hv⟩ := hstopped i
        obtain ⟨a, ha⟩ := hdone i
        obtain ⟨-, hdisk, rfl⟩ := hv.done a ha
        exact ⟨_, s', (change_respond hv.respond).inMap hw.map (hname i), hv.same.2,
          sameObjects_of_sameDir hd hdisk hv.same.1⟩
      · push Not at he
        exact ⟨_, s, hw.map, (hother e he).2.symm, hsame e he⟩
    refine ⟨fun e => ?_, fun e ids k hl => ?_⟩
    · obtain ⟨m', s', hm, hlook, hs⟩ := hset e
      rw [hlook, hm.key, hs.made]
    · obtain ⟨m', s', hm, hlook, hs⟩ := hset e
      rw [hm.mem e ids k (hlook ▸ hl), hs.content]

end Pool

/-! ### Batches of requests -/

section Batches
variable {ι : Type} [Fintype ι] [DecidableEq ι]

/-- Requests for different entities, that the workers serve at the same time, and the order of the steps
until all are answered or the process is killed. -/
structure Batch (ι : Type) where
  requests : ι → ObjectRequest × Response
  distinct : Function.Injective fun i => (requests i).1.entity
  schedule : List ι

variable (it : DirectoryIterator) (h : RequestHandlerAPI) (cwd : Loc Str) (loc : Str)

/-- The server starts again: the tree is there, and the factory builds the map. -/
def restart : EStateM Fault (World Tree) Bool := fun w => (scanFS it cwd h.basePath).run ⟨w.disk, ∅⟩

/-- The workers serve a batch. If the process is killed before all of it is answered, the server starts
again. -/
def serveBatch (b : Batch ι) : EStateM Fault (World Tree) (ι → Option (Bool × Response)) := fun w =>
  let c := (requestPool h cwd (inPieces cwd) loc w b.requests).run b.schedule
  let answers := fun i => answerOf (c.threads i)
  if ∀ i, (answers i).isSome then .ok answers c.state
  else (do
    let _ ← restart it h cwd
    pure answers).run c.state

/-- The requests of the batch are for entities whose names are not taken for numbers, and a `POST` finds a
number that is free. -/
def PlainBatch (w : World Tree) (b : Batch ι) : Prop := ∀ i, PlainRequest w (b.requests i)

variable {h cwd loc} {B : Loc Str}

/-- **One batch** leaves a store, in the tree and in the map. -/
theorem holds_serveBatch (hp : h.prefixLength = loc.length) (hb : TakesNames h.basePath)
    {w : World Tree} {s : Store} (hw : Holds h.basePath cwd B w s) (ho : OnlyObjects B w.disk)
    {b : Batch ι} (hplain : PlainBatch w b) :
    ∃ answers w' s', (serveBatch it h cwd loc b).run w = .ok answers w' ∧
      Outcome s b.requests answers s' ∧ Holds h.basePath cwd B w' s' ∧ OnlyObjects B w'.disk := by
  have hready : ∀ i, Ready s w.entityIdMap (b.requests i).1 := by
    intro i
    refine ⟨fun hm => ?_, fun hm _ => (hplain i).2 hm⟩
    obtain ⟨ids, hids⟩ := hw.map.exists_ids hm
    simp [hids]
  obtain ⟨sd, hd, honly, hout, hmap⟩ := exists_left hp hb hw ho b.distinct hready b.schedule
  have hname : ∀ i, nameId (b.requests i).1.entity = 0 := fun i => by simp [nameId, (hplain i).1]
  set c := (requestPool h cwd (inPieces cwd) loc w b.requests).run b.schedule
  have hrun : (serveBatch it h cwd loc b).run w =
      if ∀ i, (answerOf (c.threads i)).isSome then .ok (fun i => answerOf (c.threads i)) c.state
      else (do
        let _ ← restart it h cwd
        pure fun i => answerOf (c.threads i)).run c.state := rfl
  by_cases hall : ∀ i, (answerOf (c.threads i)).isSome
  · rw [if_pos hall] at hrun
    refine ⟨_, c.state, sd, hrun, hout, ⟨hd, hmap hname fun i => ?_⟩, honly⟩
    obtain ⟨a, ha⟩ := Option.isSome_iff_exists.mp (hall i)
    exact ⟨a, answerOf_eq_some.mp ha⟩
  · have hscan : (restart it h cwd).run c.state = .ok true ⟨c.state.disk, scan it c.state.disk B ∅⟩ :=
      @run_scanFS it cwd B h.basePath ⟨c.state.disk, ∅⟩ hd.base hd.dir
    rw [if_neg hall, EStateM.run_bind, hscan] at hrun
    exact ⟨_, _, sd, hrun, hout, ⟨hd, inMap_scan it hd honly⟩, honly⟩

/-- The answers are those the threads have given. -/
theorem answers_serveBatch {w w' : World Tree} {b : Batch ι} {o : ι → Option (Bool × Response)}
    (hrun : (serveBatch it h cwd loc b).run w = .ok o w') (i : ι) :
    o i = answerOf (((requestPool h cwd (inPieces cwd) loc w b.requests).run b.schedule).threads i) := by
  set c := (requestPool h cwd (inPieces cwd) loc w b.requests).run b.schedule
  have heq : (if ∀ i, (answerOf (c.threads i)).isSome then .ok (fun i => answerOf (c.threads i)) c.state
      else (do
        let _ ← restart it h cwd
        pure fun i => answerOf (c.threads i)).run c.state) = .ok o w' := hrun
  split_ifs at heq
  · cases heq
    rfl
  · obtain ⟨x, v, -, hpure⟩ := run_bind_ok heq
    cases hpure
    rfl

/-- Batch after batch. -/
theorem run_batches (hp : h.prefixLength = loc.length) (hb : TakesNames h.basePath) {w : World Tree}
    {s : Store} (hw : Holds h.basePath cwd B w s) (ho : OnlyObjects B w.disk) {bs : List (Batch ι)}
    (hplain : Along (serveBatch it h cwd loc) PlainBatch w bs) :
    ∃ os w' s', (runAll (serveBatch it h cwd loc) bs).run w = .ok os w' ∧
      RunsTo (fun s b answers s' => Outcome s b.requests answers s') s bs os s' ∧
      Holds h.basePath cwd B w' s' ∧ OnlyObjects B w'.disk := by
  have hstep : ∀ (w : World Tree) (s : Store) (b : Batch ι),
      (Holds h.basePath cwd B w s ∧ OnlyObjects B w.disk) → PlainBatch w b →
      ∃ o w' s', (serveBatch it h cwd loc b).run w = .ok o w' ∧ Outcome s b.requests o s' ∧
        Holds h.basePath cwd B w' s' ∧ OnlyObjects B w'.disk :=
    fun w s b hw hb' => holds_serveBatch it hp hb hw.1 hw.2 hb'
  exact simulation_rel hstep ⟨hw, ho⟩ hplain

/-- The root directory is missing, or holds a store. -/
def Starts (base : Path) (cwd B : Loc Str) (t : Tree) (s : Store) : Prop :=
  base.locateNew t cwd = some B ∧ t.node B = none ∧ s = Store.empty ∨
    OnDisk base cwd B t s ∧ OnlyObjects B t

/-- **A server that is killed any number of times is a store.** The server starts on a root directory
that is missing or holds a store. Then, whatever the batches and their steps, each leads from a store to
one in which every request has been served, if it was answered, or cut off; in the end the tree and the
map hold the store, and so they do when the server starts again. -/
theorem batches_refine (hp : h.prefixLength = loc.length) (hb : TakesNames h.basePath) {t : Tree}
    {s : Store} (hs : Starts h.basePath cwd B t s) :
    ∃ made w, (scanFS it cwd h.basePath).run ⟨t, ∅⟩ = .ok made w ∧
      ∀ bs : List (Batch ι), Along (serveBatch it h cwd loc) PlainBatch w bs →
        ∃ os w' s', (runAll (serveBatch it h cwd loc) bs).run w = .ok os w' ∧
          RunsTo (fun s b answers s' => Outcome s b.requests answers s') s bs os s' ∧
          Holds h.basePath cwd B w' s' ∧ ∀ it', (restart it' h cwd).run w' = .ok true w' := by
  have hstart : ∃ made w, (scanFS it cwd h.basePath).run ⟨t, ∅⟩ = .ok made w ∧
      Holds h.basePath cwd B w s ∧ OnlyObjects B w.disk := by
    rcases hs with ⟨hl, hn, rfl⟩ | ⟨hd, ho⟩
    · obtain ⟨t', hscan, hfresh⟩ := run_scanFS_missing it hl hn
      exact ⟨false, _, hscan, hfresh.holds, onlyObjects_of_fresh hfresh⟩
    · exact ⟨true, _, @run_scanFS it cwd B h.basePath ⟨t, ∅⟩ hd.base hd.dir, ⟨hd, inMap_scan it hd ho⟩, ho⟩
  obtain ⟨made, w, hscan, hw, ho⟩ := hstart
  refine ⟨made, w, hscan, fun bs hplain => ?_⟩
  obtain ⟨os, ⟨t', m'⟩, s', hrun, hto, ⟨hd', hm'⟩, ho'⟩ := run_batches it hp hb hw ho hplain
  refine ⟨os, _, s', hrun, hto, ⟨hd', hm'⟩, fun it' => ?_⟩
  have hagain := @run_scanFS it' cwd B h.basePath ⟨t', ∅⟩ hd'.base hd'.dir
  rwa [scan_eq it' hd' hm' ho'] at hagain

end Batches

/-! ### What was answered is kept -/

section Kept
variable {s s' : Store} {m m' : EntityIdMap} {r : ObjectRequest} {res : Response} {o : Bool × Response}
  {k : ℤ} {b : Str}

/-- The request replaces or deletes the object. -/
def Changes (r : ObjectRequest) (e : Str) (k : ℤ) : Prop :=
  (r.method = .put ∨ r.method = .delete) ∧ r.entity = e ∧ ∃ j : ObjectId, r.id = some j ∧ j.number = k

/-- The request was answered: the object is stored. -/
def Stored (r : ObjectRequest) (res : Response) (a : Bool × Response) (k : ℤ) : Prop :=
  r.method = .put ∧ (∃ j : ObjectId, r.id = some j ∧ j.number = k) ∨
    r.method = .post ∧ r.id = none ∧ a = (true, setCreated res k)

/-- The object is in the store then. -/
theorem content_of_stored (hr : respond s m r res = .ok (o, s', m')) (hk : Stored r res o k) :
    s'.content r.entity k = some r.body := by
  rcases hk with ⟨hm, j, hj, rfl⟩ | ⟨hm, hid, ho⟩
  · simp only [respond, hm, hj] at hr
    obtain ⟨-, rfl, -⟩ := Except.ok.inj hr
    simp [Store.put]
  · simp only [respond, hm, hid] at hr
    cases hnext : getNextId (if s.made r.entity then m else insertKey m r.entity) r.entity with
    | error f => simp [hnext] at hr
    | ok q =>
      obtain ⟨id, m''⟩ := q
      simp only [hnext, Except.ok.injEq, Prod.mk.injEq] at hr
      obtain ⟨rfl, rfl, -⟩ := hr
      obtain ⟨IDs, -, hfree, -⟩ := getNextId_ok hnext
      obtain ⟨h1, h2, -, -⟩ := nextFree_eq_some.mp hfree
      have hbody : createdBody id = createdBody k := congrArg (fun p => p.2.body) ho
      rw [Store.write, dif_pos ⟨h1, h2⟩, ← createdBody_inj hbody]
      simp [Store.put]

/-- A request that does not change the object leaves it in the store. -/
theorem content_respond (hi : InMap m s) (hr : respond s m r res = .ok (o, s', m'))
    (hk : ¬ Changes r r.entity k) (hc : s.content r.entity k = some b) :
    s'.content r.entity k = some b := by
  unfold respond at hr
  split at hr
  · next hm hid =>
    -- a new object has a number that is free
    cases hnext : getNextId (if s.made r.entity then m else insertKey m r.entity) r.entity with
    | error f => simp [hnext] at hr
    | ok q =>
      obtain ⟨id, m''⟩ := q
      simp only [hnext] at hr
      obtain ⟨-, rfl, -⟩ := Except.ok.inj hr
      obtain ⟨IDs, hl, hfree, -⟩ := getNextId_ok hnext
      obtain ⟨h1, h2, hnot, -⟩ := nextFree_eq_some.mp hfree
      rw [if_pos (s.live _ _ (by rw [hc]; simp)).1] at hl
      have hne : k ≠ id := by
        rintro rfl
        exact hnot ((hi.mem _ _ _ hl).mpr (by rw [hc]; simp))
      rw [Store.write, dif_pos ⟨h1, h2⟩]
      simp [Store.put, Store.make, hne, hc]
  · obtain ⟨-, rfl, -⟩ := Except.ok.inj hr
    exact hc
  · split_ifs at hr
    all_goals
      obtain ⟨-, rfl, -⟩ := Except.ok.inj hr
      exact hc
  · split at hr
    all_goals
      obtain ⟨-, rfl, -⟩ := Except.ok.inj hr
      exact hc
  · obtain ⟨-, rfl, -⟩ := Except.ok.inj hr
    exact hc
  · next j hm hid =>
    obtain ⟨-, rfl, -⟩ := Except.ok.inj hr
    have hne : k ≠ j.number := fun hk' => hk ⟨Or.inl hm, rfl, j, hid, hk'.symm⟩
    simp [Store.put, hne, hc]
  · obtain ⟨-, rfl, -⟩ := Except.ok.inj hr
    exact hc
  · next j hm hid =>
    have hne : k ≠ j.number := fun hk' => hk ⟨Or.inr hm, rfl, j, hid, hk'.symm⟩
    split at hr
    · obtain ⟨-, rfl, -⟩ := Except.ok.inj hr
      simp [Store.drop, hne, hc]
    · obtain ⟨-, rfl, -⟩ := Except.ok.inj hr
      exact hc
  all_goals
    obtain ⟨-, rfl, -⟩ := Except.ok.inj hr
    exact hc

/-- So it is, whenever the request is cut off. -/
theorem content_cut {sc : Store} (hi : InMap m s) (hr : respond s m r res = .ok (o, s', m'))
    (hcut : Cut s s' r sc) (hk : ¬ Changes r r.entity k) (hc : s.content r.entity k = some b) :
    sc.content r.entity k = some b := by
  cases hcut with
  | before => exact hc
  | made h => exact hc
  | @replacing j b' hm hid hb =>
    have hne : k ≠ j.number := fun hk' => hk ⟨Or.inl hm, rfl, j, hid, hk'.symm⟩
    simp [Store.put, hne, hc]
  | @adding j b' hm hid hfree hs' hb =>
    have hne : k ≠ j.number := by
      rintro rfl
      rw [hfree] at hc
      cases hc
    simp [Store.put, hne, hc]
  | after => exact content_respond hi hr hk hc

end Kept

section Run
variable {ι : Type} [Fintype ι] [DecidableEq ι] {h : RequestHandlerAPI} {cwd B : Loc Str} {loc : Str}

omit [DecidableEq ι] [Fintype ι] in
/-- A batch without a request that changes the object leaves it in the store. -/
theorem Outcome.content {s sd : Store} {rs : ι → ObjectRequest × Response}
    {answers : ι → Option (Bool × Response)} (h : Outcome s rs answers sd) {e : Str} {k : ℤ} {b : Str}
    (hk : ∀ i, ¬ Changes (rs i).1 e k) (hc : s.content e k = some b) : sd.content e k = some b := by
  by_cases he : ∃ i, (rs i).1.entity = e
  · obtain ⟨i, rfl⟩ := he
    cases ha : answers i with
    | some o =>
      obtain ⟨s', ⟨m, m', hi, hr⟩, hs⟩ := h.answered i o ha
      rw [hs.content]
      exact content_respond hi hr (hk i) hc
    | none =>
      obtain ⟨o, s', sc, ⟨m, m', hi, hr⟩, hcut, hs⟩ := h.cut i ha
      rw [hs.content]
      exact content_cut hi hr hcut (hk i) hc
  · push Not at he
    rw [(h.other e he).content]
    exact hc

/-- **What was answered is kept.** Whatever the batches, and however often the process is killed: an
object for which an answer was given is in its file in the end, unless a later request was to replace or
to delete it. -/
theorem answered_kept (it : DirectoryIterator) (hp : h.prefixLength = loc.length)
    (hb : TakesNames h.basePath) {w w' : World Tree} {s : Store} (hw : Holds h.basePath cwd B w s)
    (ho : OnlyObjects B w.disk) {bs bs' : List (Batch ι)} {b : Batch ι}
    (hplain : Along (serveBatch it h cwd loc) PlainBatch w (bs ++ b :: bs'))
    {os os' : List (ι → Option (Bool × Response))} {o : ι → Option (Bool × Response)}
    (hrun : (runAll (serveBatch it h cwd loc) (bs ++ b :: bs')).run w = .ok (os ++ o :: os') w')
    (hlen : os.length = bs.length) {i : ι} {a : Bool × Response} (ha : o i = some a) {k : ℤ}
    (hk : Stored (b.requests i).1 (b.requests i).2 a k)
    (hkeep : ∀ b' ∈ bs', ∀ j, ¬ Changes (b'.requests j).1 (b.requests i).1.entity k) :
    w'.disk.node (B ++ [(b.requests i).1.entity] ++ [intToString k]) =
      some (.file (b.requests i).1.body) := by
  obtain ⟨qs, v, s', hrun', hto, ⟨hd, -⟩, -⟩ := run_batches it hp hb hw ho hplain
  obtain ⟨rfl, rfl⟩ := EStateM.Result.ok.inj (hrun.symm.trans hrun')
  obtain ⟨c, d, -, hbatch, hrest⟩ := hto.split hlen
  obtain ⟨s₁, ⟨m, m', -, hr⟩, hs⟩ := hbatch.answered i a ha
  have hstored : d.content (b.requests i).1.entity k = some (b.requests i).1.body := by
    rw [hs.content]
    exact content_of_stored hr hk
  have hstep : ∀ (s : Store) (b' : Batch ι) (q : ι → Option (Bool × Response)) (s' : Store),
      Outcome s b'.requests q s' → (∀ j, ¬ Changes (b'.requests j).1 (b.requests i).1.entity k) →
      s.content (b.requests i).1.entity k = some (b.requests i).1.body →
        s'.content (b.requests i).1.entity k = some (b.requests i).1.body :=
    fun _ _ _ _ hout hnot hc => hout.content hnot hc
  have hend := hrest.inv hstep hkeep hstored
  obtain ⟨-, h1, h2⟩ := s'.live _ _ (by rw [hend]; simp)
  rw [hd.object _ k h1 h2, hend]
  rfl

end Run

/-! ### A process that is killed -/

/-- The shoes are listed, and the first hat is replaced. -/
def shoesAndHat : Bool → ObjectRequest × Response
  | true => (⟨.get, "shoes".toList, isName_shoes, none, false, 11, [], []⟩, {})
  | false => (⟨.put, "hats".toList, isName_hats, some ⟨1, ObjectId.pos_one, ObjectId.one_le⟩, false, 11,
      [], "straw".toList⟩, {})

theorem names_differ : "shoes".toList ≠ "hats".toList := by decide

theorem distinct_shoesAndHats {rs : Bool → ObjectRequest × Response}
    (ht : (rs true).1.entity = "shoes".toList) (hf : (rs false).1.entity = "hats".toList) :
    Function.Injective fun i => (rs i).1.entity := by
  intro i j hij
  cases i <;> cases j
  · rfl
  · exact absurd (ht.symm.trans (hij.symm.trans hf)) names_differ
  · exact absurd (ht.symm.trans (hij.trans hf)) names_differ
  · rfl

/-- The first batch, with the steps it takes. -/
def firstBatch (schedule : List Bool) : Batch Bool := ⟨shoeAndHat, distinct_shoesAndHats rfl rfl, schedule⟩

/-- In the second batch the process is killed while the hat is written. -/
def secondBatch : Batch Bool :=
  ⟨shoesAndHat, distinct_shoesAndHats rfl rfl, [true, false, false, false, true, false]⟩

theorem notNumbers : stoi "shoes".toList = none ∧ stoi "hats".toList = none := by decide

/-- The batches are plain, whatever the steps of the first one. -/
theorem plain_batches (schedule : List Bool) :
    Along (serveBatch inOrder ⟨⟨"data".toList⟩, 4⟩ [] "/api".toList) PlainBatch ⟨withDir "data".toList, ∅⟩
      [firstBatch schedule, secondBatch] := by
  refine ⟨fun i => ?_, fun _ _ _ => ⟨fun i => ?_, fun _ _ _ => trivial⟩⟩
  · cases i
    · refine ⟨notNumbers.2, fun _ hn => ?_⟩
      rw [nextFree_eq_none] at hn
      exact absurd (hn 1 le_rfl (by decide)) (by simp)
    · exact ⟨notNumbers.1, fun hm => by cases hm⟩
  · cases i
    · exact ⟨notNumbers.2, fun hm => by cases hm⟩
    · exact ⟨notNumbers.1, fun hm => by cases hm⟩

theorem fresh_data : Fresh ⟨"data".toList⟩ [] ["data".toList] ⟨withDir "data".toList, ∅⟩ :=
  fresh_withDir (by decide) (by decide) (by decide)

theorem takesNames_data : TakesNames ⟨"data".toList⟩ :=
  (⟨by decide, by decide⟩ : Named (⟨"data".toList⟩ : Boost.Paths.Path)).takesNames

theorem batches_refine_killed : ∃ w os w' s',
    (scanFS inOrder [] ⟨"data".toList⟩).run ⟨withDir "data".toList, ∅⟩ = .ok true w ∧
    (runAll (serveBatch inOrder ⟨⟨"data".toList⟩, 4⟩ [] "/api".toList)
      [firstBatch [true, true, false], secondBatch]).run w = .ok os w' ∧
    RunsTo (fun s (b : Batch Bool) answers s' => Outcome s b.requests answers s') Store.empty
      [firstBatch [true, true, false], secondBatch] os s' ∧
    Holds ⟨"data".toList⟩ [] ["data".toList] w' s' := by
  have hd := fresh_data.holds.disk
  have ho := onlyObjects_of_fresh fresh_data
  obtain ⟨made, w, hscan, hall⟩ := @batches_refine Bool _ _ inOrder ⟨⟨"data".toList⟩, 4⟩ [] "/api".toList
    ["data".toList] rfl takesNames_data _ _ (Or.inr ⟨hd, ho⟩)
  have hagain := @run_scanFS inOrder [] ["data".toList] ⟨"data".toList⟩ ⟨withDir "data".toList, ∅⟩ hd.base hd.dir
  obtain ⟨rfl, rfl⟩ := EStateM.Result.ok.inj (hscan.symm.trans hagain)
  rw [scan_eq inOrder hd fresh_data.holds.map ho] at hall hscan
  obtain ⟨os, w', s', hrun, hto, hw', -⟩ := hall _ (plain_batches [true, true, false])
  exact ⟨_, os, w', s', hscan, hrun, hto, hw'⟩

/-- Whatever steps are taken until the shoe is stored, it is in its file in the end. -/
theorem answered_kept_killed : ∃ (schedule : List Bool) (os : List (Bool → Option (Bool × Response)))
    (w' : World Tree),
    (runAll (serveBatch inOrder ⟨⟨"data".toList⟩, 4⟩ [] "/api".toList)
      [firstBatch schedule, secondBatch]).run ⟨withDir "data".toList, ∅⟩ = .ok os w' ∧
    w'.disk.node (["data".toList] ++ ["shoes".toList] ++ [intToString 1]) = some (.file "red".toList) := by
  have honly := onlyObjects_of_fresh fresh_data
  obtain ⟨a, -, m, t, -, halone, -⟩ := @alone_requestPool Bool ⟨⟨"data".toList⟩, 4⟩ [] ["data".toList]
    "/api".toList _ _ shoeAndHat rfl takesNames_data fresh_data.holds.disk true
    ⟨fun hm => absurd hm (by simp [Store.empty]), fun hm => by cases hm⟩
  have hsteps : ∃ n, (requestPool ⟨⟨"data".toList⟩, 4⟩ [] (inPieces []) "/api".toList
      ⟨withDir "data".toList, ∅⟩ shoeAndHat).run (List.replicate n true) =
      ⟨⟨t, m⟩, Function.update _ true (.done a)⟩ :=
    run_replicate rfl halone
  obtain ⟨n, hn⟩ := hsteps
  obtain ⟨os, w', -, hrun, -⟩ := run_batches inOrder rfl takesNames_data fresh_data.holds honly
    (plain_batches (List.replicate n true))
  refine ⟨_, os, w', hrun, ?_⟩
  obtain ⟨o, v, os', h1, -, rfl⟩ := runAll_cons_ok hrun
  have ho : o true = some a := by
    refine (answers_serveBatch inOrder h1 true).trans (answerOf_eq_some.mpr ?_)
    show ((requestPool _ _ _ _ _ shoeAndHat).run (List.replicate n true)).threads true = .done a
    rw [hn]
    simp only [Function.update_self]
  have hplain : Along (serveBatch inOrder ⟨⟨"data".toList⟩, 4⟩ [] "/api".toList) PlainBatch
      ⟨withDir "data".toList, ∅⟩ ([] ++ firstBatch (List.replicate n true) :: [secondBatch]) :=
    plain_batches _
  have hrun' : (runAll (serveBatch inOrder ⟨⟨"data".toList⟩, 4⟩ [] "/api".toList)
      ([] ++ firstBatch (List.replicate n true) :: [secondBatch])).run ⟨withDir "data".toList, ∅⟩ =
        .ok ([] ++ o :: os') w' := hrun
  refine answered_kept inOrder rfl takesNames_data fresh_data.holds honly hplain hrun' rfl ho
    (Or.inl ⟨rfl, _, rfl, rfl⟩) ?_
  rintro b' hb' j ⟨hm, he, -⟩
  obtain rfl := List.mem_singleton.mp hb'
  cases j
  · exact names_differ he.symm
  · rcases hm with hm | hm <;> cases hm

end Kachow.Api.Crash
