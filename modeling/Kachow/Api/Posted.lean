import Kachow.Api.Tickets

/-! # What `POST`s at the same time leave behind

Here the `POST`s of `Tickets` run on the tree of files, from a state that holds a store. As long as the
sections of each entity are apart, the tree and the map stay in step with the numbers that are taken
(`Posted`): a directory is there once a `POST` has made it, a number is in its set once it is written back,
and a file has the body of the `POST` with its number.

So once every `POST` is answered the store is the old one with the new objects in it, each under a number
that was free (`apart_posted`). Apart or not, a `POST` can find its key missing only while another one for
the same new entity has made the directory and not inserted the key yet (`missing_key`). -/

namespace Kachow.Api.Posted

open Kachow.Lib.Text Kachow.Lib.Decimal Kachow.Lib.Sets Kachow.Lib.Files Kachow.Lib.Threads
open Kachow.Boost.Paths Kachow.Http.Messages Kachow.Disk Kachow.Api.Ids Kachow.Api.Handler
open Kachow.Api.Objects Kachow.Api.StoreStep Kachow.Api.Threads Kachow.Api.Serializable Kachow.Api.Tickets

/-- A `POST` for an entity that is named right behind the location. -/
structure IsPost (base : Path) (p : Post) : Prop where
  isName : IsName p.url.entity
  path : p.url.fullPath = entityPath base p.url.entity

/-- The directory of the entity has been found, or made. -/
def Past (ph : Phase) : Prop := ph ≠ .checking ∧ ph ≠ .making

section Updates
variable {ι : Type} [DecidableEq ι] {phases : ι → Phase} {i : ι} {ph : Phase}

/-- What no longer and not yet depends on the phase that changes. -/
theorem exists_update_iff {Q : ι → Phase → Prop} (h : Q i ph ↔ Q i (phases i)) :
    (∃ j, Q j (Function.update phases i ph j)) ↔ ∃ j, Q j (phases j) := by
  refine exists_congr fun j => ?_
  by_cases hj : j = i
  · subst hj
    rw [Function.update_self, h]
  · rw [Function.update_of_ne hj]

theorem exists_update {Q : ι → Phase → Prop} :
    (∃ j, Q j (Function.update phases i ph j)) ↔ Q i ph ∨ ∃ j, j ≠ i ∧ Q j (phases j) := by
  constructor
  · rintro ⟨j, hj⟩
    by_cases hji : j = i
    · subst hji
      rw [Function.update_self] at hj
      exact Or.inl hj
    · rw [Function.update_of_ne hji] at hj
      exact Or.inr ⟨j, hji, hj⟩
  · rintro (h | ⟨j, hji, hj⟩)
    · exact ⟨i, by rw [Function.update_self]; exact h⟩
    · exact ⟨j, by rw [Function.update_of_ne hji]; exact hj⟩

end Updates

section Invariants
variable {ι : Type} (posts : ι → Post) (s : Store)

/-- The entity was there at the start, or a `POST` has found or made its directory. -/
def Made (phases : ι → Phase) (e : Str) : Prop :=
  s.made e = true ∨ ∃ i, (posts i).url.entity = e ∧ Past (phases i)

/-- What the tree holds: the old objects, and those of the `POST`s that are answered. -/
structure Filed (sd : Store) (phases : ι → Phase) : Prop where
  created : ∀ i k, phases i = .created k → sd.content (posts i).url.entity k = some (posts i).req.body
  old : ∀ e k, (∀ i, (posts i).url.entity = e → phases i ≠ .created k) → sd.content e k = s.content e k

/-- The keys of the map: where one is missing, a `POST` is about to insert it. -/
structure PostedKeyed (m : EntityIdMap) (phases : ι → Phase) : Prop where
  kept : ∀ e, s.made e = true → m.lookup e ≠ none
  made : ∀ e, m.lookup e ≠ none → Made posts s phases e
  window : ∀ e, Made posts s phases e → m.lookup e = none →
    ∃ i, (posts i).url.entity = e ∧ phases i = .keying

/-- The numbers of the map: the old ones, and those that have been written back. A number is new when it is
taken, and the smaller ones are not free. -/
structure Numbered (m : EntityIdMap) (phases : ι → Phase) : Prop where
  has : ∀ e k, Has m e k ↔ s.content e k ≠ none ∨
    ∃ i, (posts i).url.entity = e ∧ (phases i).number = some k ∧ ¬ (phases i).Open
  new : ∀ i k, (phases i).number = some k → s.content (posts i).url.entity k = none
  least : ∀ i k, (phases i).number = some k → ∀ j, 1 ≤ j → j < k →
    s.content (posts i).url.entity j ≠ none ∨
      ∃ l, (posts l).url.entity = (posts i).url.entity ∧ (phases l).number = some j

/-- How a `POST` can fail: no number is left, or its key is missing. The entity is new then, and another
`POST` has made the directory or found it. -/
def Faults (phases : ι → Phase) : Prop := ∀ i taken e, phases i = .failed taken e → taken = none ∧
  (e = .intOverflow ∨ e = .endDereference ∧ s.made (posts i).url.entity = false ∧
    ∃ j, j ≠ i ∧ (posts j).url.entity = (posts i).url.entity ∧ Past (phases j))

/-- The numbers are those of objects. -/
def InRange (phases : ι → Phase) : Prop :=
  ∀ i k, (phases i).number = some k → 1 ≤ k ∧ k ≤ intMax

end Invariants

section Run
variable {ι : Type} [DecidableEq ι] {posts : ι → Post} {base : Path} {cwd B : Loc Str} {s sd : Store}
  {c : Posting Tree ι} {i : ι} {ph : Phase}

/-- A phase that comes behind the directory as the one before it does. -/
theorem made_update (h : Past ph ↔ Past (c.phases i)) (e : Str) :
    Made posts s (Function.update c.phases i ph) e ↔ Made posts s c.phases e :=
  or_congr_right (exists_update_iff (Q := fun j p => (posts j).url.entity = e ∧ Past p)
    (and_congr_right fun _ => h))

/-- A step that stores nothing. -/
theorem Filed.update (h : Filed posts s sd c.phases) (h0 : ∀ k, c.phases i ≠ .created k)
    (h1 : ∀ k, ph ≠ .created k) : Filed posts s sd (Function.update c.phases i ph) where
  created j k hj := by
    by_cases hji : j = i
    · subst hji
      rw [Function.update_self] at hj
      exact absurd hj (h1 k)
    · rw [Function.update_of_ne hji] at hj
      exact h.created j k hj
  old e k hno := by
    refine h.old e k fun j hj hjk => hno j hj ?_
    have hji : j ≠ i := by
      rintro rfl
      exact h0 k hjk
    rw [Function.update_of_ne hji]
    exact hjk

/-- The directory of an entity can be made, also where it is there. -/
theorem run_makeEntity {e : Str} {t : Tree} (hd : OnDisk base cwd B t sd) (hname : IsName e)
    (m : EntityIdMap) : ∃ b t', (onDisk ((realFileSystem cwd).createDirectory (entityPath base e))).run
      ⟨t, m⟩ = .ok b ⟨t', m⟩ ∧ OnDisk base cwd B t' (sd.make e) := by
  have hmk : ∃ b t', mkdirAt cwd t (entityPath base e) = some (b, t') ∧
      OnDisk base cwd B t' (sd.make e) := by
    cases hmade : sd.made e with
    | false =>
      obtain ⟨t', ht, hd'⟩ := hd.make hname hmade
      exact ⟨true, t', ht, hd'⟩
    | true =>
      refine ⟨false, t, ?_, by rw [Store.make_of_made hmade]; exact hd⟩
      rw [mkdirAt_of_locate (hd.locate_entity hname)]
      unfold FileTree.mkdir
      rw [if_pos (by rw [hd.isDir_entity, hmade])]
  obtain ⟨b, t', hmk, hd'⟩ := hmk
  exact ⟨b, t', by rw [run_createDirectory, hmk], hd'⟩

/-- What a step of a `POST` does on a tree that holds the store `sd`: the phase it comes to, and what is then
in the tree and the map. -/
inductive Acts (base : Path) (cwd B : Loc Str) (p : Post) (sd : Store) (w : World Tree) :
    Phase → Phase → World Tree → Prop
  | found (hmade : sd.made p.url.entity = true) : Acts base cwd B p sd w .checking .copying w
  | absent (hnew : sd.made p.url.entity = false) : Acts base cwd B p sd w .checking .making w
  | made {t : Tree} (hd : OnDisk base cwd B t (sd.make p.url.entity)) :
    Acts base cwd B p sd w .making .keying ⟨t, w.entityIdMap⟩
  | keyed : Acts base cwd B p sd w .keying .copying ⟨w.disk, insertPair w.entityIdMap p.url.entity ∅⟩
  | missing (hl : w.entityIdMap.lookup p.url.entity = none) :
    Acts base cwd B p sd w .copying (.failed none .endDereference) w
  | full {IDs : IdSet} (hl : w.entityIdMap.lookup p.url.entity = some IDs) (hfree : nextFree IDs = none) :
    Acts base cwd B p sd w .copying (.failed none .intOverflow) w
  | copied {IDs : IdSet} {id : ℤ} (hl : w.entityIdMap.lookup p.url.entity = some IDs)
    (hfree : nextFree IDs = some id) : Acts base cwd B p sd w .copying (.writing IDs id) w
  | written {IDs : IdSet} {id : ℤ} : Acts base cwd B p sd w (.writing IDs id) (.storing id)
    ⟨w.disk, w.entityIdMap.insert p.url.entity (IDs.insert id)⟩
  | stored {id : ℤ} : Acts base cwd B p sd w (.storing id) (.created id)
    ⟨writeAt cwd w.disk (p.url.fullPath.append (intToString id)) p.req.body, w.entityIdMap⟩
  | created {id : ℤ} : Acts base cwd B p sd w (.created id) (.created id) w
  | failed {taken : Option ℤ} {e : Fault} : Acts base cwd B p sd w (.failed taken e) (.failed taken e) w

theorem acts_step {p : Post} {w : World Tree} (hp : IsPost base p) (hd : OnDisk base cwd B w.disk sd)
    (ph : Phase) : Acts base cwd B p sd w ph (ph.step (realFileSystem cwd) p w).1
      (ph.step (realFileSystem cwd) p w).2 := by
  obtain ⟨hname, hpath⟩ := hp
  cases ph with
  | checking =>
    have hex : (onDisk ((realFileSystem cwd).exists_ p.url.fullPath)).run w =
        .ok (sd.made p.url.entity) w := by
      rw [run_exists, hpath, hd.existsAt_entity hname]
    simp only [Phase.step, hex]
    cases hmade : sd.made p.url.entity with
    | false => exact .absent hmade
    | true => exact .found hmade
  | making =>
    obtain ⟨b, t, hrun, hd'⟩ := run_makeEntity hd hname w.entityIdMap
    rw [← hpath] at hrun
    simp only [Phase.step, hrun]
    exact .made hd'
  | keying => exact .keyed
  | copying =>
    simp only [Phase.step]
    cases hl : w.entityIdMap.lookup p.url.entity with
    | none => exact .missing hl
    | some existingIDs =>
      cases hfree : nextFree existingIDs with
      | none =>
        simp only [hfree]
        exact .full hl hfree
      | some id =>
        simp only [hfree]
        exact .copied hl hfree
  | writing existingIDs id => exact .written
  | storing id =>
    simp only [Phase.step, run_writeFile]
    exact .stored
  | created id => exact .created
  | failed taken e => exact .failed

/-- **One step**, of any of them. -/
theorem acts_cases (hpost : ∀ j, IsPost base (posts j)) (hd : OnDisk base cwd B c.world.disk sd) (i : ι) :
    ∃ ph w, c.step (realFileSystem cwd) posts i = ⟨w, Function.update c.phases i ph⟩ ∧
      Acts base cwd B (posts i) sd c.world (c.phases i) ph w :=
  ⟨_, _, rfl, acts_step (hpost i) hd (c.phases i)⟩

/-- A `POST` that finds the directory of its entity makes none. -/
theorem made_found (hm : ∀ e, sd.made e = true ↔ Made posts s c.phases e) (hph : ¬ Past (c.phases i))
    (hmade : sd.made (posts i).url.entity = true) (e : Str) :
    Made posts s c.phases e ↔ Made posts s (Function.update c.phases i ph) e := by
  refine or_congr_right' fun hs => ?_
  constructor
  · rintro ⟨j, rfl, hj⟩
    refine ⟨j, rfl, ?_⟩
    rw [Function.update_of_ne]
    · exact hj
    · rintro rfl
      exact hph hj
  · rintro ⟨j, rfl, hj⟩
    by_cases hji : j = i
    · subst hji
      exact ((hm _).mp hmade).resolve_left hs
    · rw [Function.update_of_ne hji] at hj
      exact ⟨j, rfl, hj⟩

/-- A `POST` that makes the directory of its entity. -/
theorem made_making (hph : ¬ Past (c.phases i)) (hp : Past ph) (e : Str) :
    Made posts s (Function.update c.phases i ph) e ↔
      e = (posts i).url.entity ∨ Made posts s c.phases e := by
  unfold Made
  rw [exists_update (Q := fun j p => (posts j).url.entity = e ∧ Past p)]
  constructor
  · rintro (h | ⟨h, -⟩ | ⟨j, -, h⟩)
    · exact Or.inr (Or.inl h)
    · exact Or.inl h.symm
    · exact Or.inr (Or.inr ⟨j, h⟩)
  · rintro (h | h | ⟨j, h⟩)
    · exact Or.inr (Or.inl ⟨h.symm, hp⟩)
    · exact Or.inl h
    · exact Or.inr (Or.inr ⟨j, by rintro rfl; exact hph h.2, h⟩)

/-- A `POST` that stores its object. No other one has its number. -/
theorem Filed.store (h : Filed posts s sd c.phases) (hdist : Distinct posts c) {id : ℤ}
    (hph : c.phases i = .storing id) (h1 : 1 ≤ id) (h2 : id ≤ intMax) :
    Filed posts s (sd.put (posts i).url.entity ⟨id, h1, h2⟩ (posts i).req.body)
      (Function.update c.phases i (.created id)) where
  created j k hj := by
    by_cases hji : j = i
    · subst hji
      rw [Function.update_self] at hj
      cases hj
      simp [Store.put]
    · rw [Function.update_of_ne hji] at hj
      have hother : ¬ ((posts j).url.entity = (posts i).url.entity ∧ k = id) := by
        rintro ⟨hent, rfl⟩
        exact hdist j i hji hent k (by rw [hj]; rfl) (by rw [hph]; rfl)
      simp only [Store.put, if_neg hother]
      exact h.created j k hj
  old e k hno := by
    have hother : ¬ (e = (posts i).url.entity ∧ k = id) := by
      rintro ⟨rfl, rfl⟩
      exact hno i rfl (Function.update_self ..)
    simp only [Store.put, if_neg hother]
    refine h.old e k fun j hj hjk => hno j hj ?_
    have hji : j ≠ i := by
      rintro rfl
      rw [hph] at hjk
      cases hjk
    rw [Function.update_of_ne hji]
    exact hjk

/-- **The tree, in one step.** -/
theorem disk_step (hb : TakesNames base) (hpost : ∀ j, IsPost base (posts j))
    (hd : OnDisk base cwd B c.world.disk sd)
    (hm : ∀ e, sd.made e = true ↔ Made posts s c.phases e) (hrange : InRange c.phases) (i : ι) : ∃ sd',
      OnDisk base cwd B (c.step (realFileSystem cwd) posts i).world.disk sd' ∧
      (∀ e, sd'.made e = true ↔ Made posts s (c.step (realFileSystem cwd) posts i).phases e) ∧
      (Distinct posts c → Filed posts s sd c.phases →
        Filed posts s sd' (c.step (realFileSystem cwd) posts i).phases) := by
  obtain ⟨hname, hpath⟩ := hpost i
  have hsame : ∀ ph, (Past ph ↔ Past (c.phases i)) → (∀ k, c.phases i ≠ .created k) →
      (∀ k, ph ≠ .created k) → ∃ sd', OnDisk base cwd B c.world.disk sd' ∧
        (∀ e, sd'.made e = true ↔ Made posts s (Function.update c.phases i ph) e) ∧
        (Distinct posts c → Filed posts s sd c.phases →
          Filed posts s sd' (Function.update c.phases i ph)) :=
    fun ph hp h0 h1 => ⟨sd, hd, fun e => (hm e).trans (made_update hp e).symm, fun _ hf =>
      hf.update h0 h1⟩
  obtain ⟨ph, w, hstep, hacts⟩ := acts_cases hpost hd i
  rw [hstep]
  generalize hph : c.phases i = ph₀ at hacts hsame
  cases hacts with
  | found hmade =>
    exact ⟨sd, hd, fun e => (hm e).trans (made_found hm (by simp [Past, hph]) hmade e), fun _ hf =>
      hf.update (by simp [hph]) (by simp)⟩
  | made hd' =>
    refine ⟨sd.make (posts i).url.entity, hd', fun e => ?_, fun _ hf => ?_⟩
    · rw [made_making (by simp [Past, hph]) (by simp [Past]), ← hm]
      simp [Store.make]
    · have hmake : Filed posts s (sd.make (posts i).url.entity) c.phases := ⟨hf.created, hf.old⟩
      exact hmake.update (by simp [hph]) (by simp)
  | absent | keyed | missing | full | copied | written =>
    exact hsame _ (by simp [Past]) (by simp) (by simp)
  | @stored id =>
    obtain ⟨h1, h2⟩ := hrange i id (by rw [hph]; rfl)
    have hmade : sd.made (posts i).url.entity = true :=
      (hm _).mpr (Or.inr ⟨i, rfl, by simp [Past, hph]⟩)
    rw [hpath, append_entity hb hname]
    refine ⟨sd.put (posts i).url.entity ⟨id, h1, h2⟩ (posts i).req.body,
      hd.put ⟨id, h1, h2⟩ hname hmade (posts i).req.body, fun e => ?_, fun hdist hf =>
      hf.store hdist hph h1 h2⟩
    rw [made_update (by simp [Past, hph]), ← hm]
    simp only [Store.put, Bool.or_eq_true, decide_eq_true_eq, or_iff_right_iff_imp]
    rintro rfl
    exact hmade
  | created | failed =>
    rw [← hph, Function.update_eq_self]
    exact ⟨sd, hd, hm, fun _ hf => hf⟩

theorem inRange_step {σ : Type} {file : FileSystem σ} {c : Posting σ ι} (h : InRange c.phases) (i : ι) :
    InRange (c.step file posts i).phases := by
  obtain ⟨ph, w, hstep, hm⟩ := step_cases file posts c i
  rw [hstep]
  intro j k hj
  simp only at hj
  by_cases hji : j = i
  · subst hji
    rw [Function.update_self] at hj
    generalize hph : c.phases j = ph₀ at hm
    generalize w.entityIdMap = m at hm
    cases hm with
    | early _ h1 =>
      rw [h1] at hj
      cases hj
    | takes hl hk =>
      cases hj
      obtain ⟨h1, h2, -⟩ := nextFree_eq_some.mp hk
      exact ⟨h1, h2⟩
    | writes => exact h j k (by rw [hph]; exact hj)
    | late hn => exact h j k (by rw [hph, ← hn]; exact hj)
  · rw [Function.update_of_ne hji] at hj
    exact h j k hj

/-- A change of one phase keeps the keys as they should be. -/
theorem PostedKeyed.update (h : PostedKeyed posts s c.world.entityIdMap c.phases) {w : World Tree}
    (hgrow : ∀ x, w.entityIdMap.lookup x = none → c.world.entityIdMap.lookup x = none)
    (hnew : ∀ x, w.entityIdMap.lookup x ≠ none → c.world.entityIdMap.lookup x ≠ none ∨
      x = (posts i).url.entity ∧ Past ph)
    (hpast : Past (c.phases i) → Past ph)
    (hkey : c.phases i = .keying → w.entityIdMap.lookup (posts i).url.entity ≠ none)
    (hnow : Past ph → Made posts s c.phases (posts i).url.entity ∨ ph = .keying) :
    PostedKeyed posts s w.entityIdMap (Function.update c.phases i ph) where
  kept e he hn := h.kept e he (hgrow e hn)
  made e hl := by
    rcases hnew e hl with hl | ⟨rfl, hp⟩
    · refine (h.made e hl).imp_right fun ⟨j, hj, hp⟩ => ⟨j, hj, ?_⟩
      by_cases hji : j = i
      · subst hji
        rw [Function.update_self]
        exact hpast hp
      · rw [Function.update_of_ne hji]
        exact hp
    · exact Or.inr ⟨i, rfl, by rw [Function.update_self]; exact hp⟩
  window e he hn := by
    have hold : Made posts s c.phases e → ∃ j, (posts j).url.entity = e ∧
        Function.update c.phases i ph j = .keying := by
      intro hm
      obtain ⟨j, hj, hk⟩ := h.window e hm (hgrow e hn)
      refine ⟨j, hj, ?_⟩
      rw [Function.update_of_ne]
      · exact hk
      · rintro rfl
        exact hkey hk (hj ▸ hn)
    rcases he with he | ⟨j, hj, hp⟩
    · exact hold (Or.inl he)
    · by_cases hji : j = i
      · subst hji
        rw [Function.update_self] at hp
        rcases hnow hp with hm | rfl
        · exact hold (hj ▸ hm)
        · exact ⟨j, hj, Function.update_self ..⟩
      · rw [Function.update_of_ne hji] at hp
        exact hold (Or.inr ⟨j, hj, hp⟩)

/-- **The keys, in one step.** -/
theorem keyed_step (hpost : ∀ j, IsPost base (posts j)) (hd : OnDisk base cwd B c.world.disk sd)
    (hm : ∀ e, sd.made e = true ↔ Made posts s c.phases e)
    (h : PostedKeyed posts s c.world.entityIdMap c.phases) (i : ι) :
    PostedKeyed posts s (c.step (realFileSystem cwd) posts i).world.entityIdMap
      (c.step (realFileSystem cwd) posts i).phases := by
  have hself : Past (c.phases i) → Made posts s c.phases (posts i).url.entity :=
    fun hp => Or.inr ⟨i, rfl, hp⟩
  -- where the map stays as it is, only the phase is to be looked at
  have hsame : ∀ (ph : Phase) (w : World Tree), w.entityIdMap = c.world.entityIdMap →
      (Past (c.phases i) → Past ph) → c.phases i ≠ .keying →
      (Past ph → Made posts s c.phases (posts i).url.entity ∨ ph = .keying) →
      PostedKeyed posts s w.entityIdMap (Function.update c.phases i ph) := by
    intro ph w hw hp hk hn
    exact h.update (fun x hx => by rw [← hw]; exact hx) (fun x hx => Or.inl (by rw [← hw]; exact hx)) hp
      (fun hc => absurd hc hk) hn
  obtain ⟨ph, w, hstep, hacts⟩ := acts_cases hpost hd i
  rw [hstep]
  generalize hph : c.phases i = ph₀ at hacts hsame hself
  cases hacts with
  | found hmade =>
    exact hsame _ _ rfl (fun hp => absurd rfl hp.1) (by simp) fun _ => Or.inl ((hm _).mp hmade)
  | absent => exact hsame _ _ rfl (fun hp => absurd rfl hp.1) (by simp) fun hp => absurd rfl hp.2
  | made => exact hsame _ _ rfl (fun hp => absurd rfl hp.2) (by simp) fun _ => Or.inr rfl
  | keyed =>
    have hl : ∀ x, (insertPair c.world.entityIdMap (posts i).url.entity ∅).lookup x =
        if x = (posts i).url.entity then some ((c.world.entityIdMap.lookup (posts i).url.entity).getD ∅)
        else c.world.entityIdMap.lookup x := fun x => by
      rw [insertPair_empty, lookup_insertKey]
    have hp : Past Phase.copying := by simp [Past]
    refine h.update (w := ⟨c.world.disk, insertPair c.world.entityIdMap (posts i).url.entity ∅⟩)
      (fun x hx => ?_) (fun x hx => ?_) (fun _ => hp) (fun _ => ?_)
      fun _ => Or.inl (hself (by simp [Past]))
    · simp only [hl] at hx
      split_ifs at hx
      exact hx
    · simp only [hl] at hx
      split_ifs at hx with hxe
      · exact Or.inr ⟨hxe, hp⟩
      · exact Or.inl hx
    · simp [hl]
  | missing | full | copied | stored =>
    exact hsame _ _ rfl (fun _ => by simp [Past]) (by simp) fun _ => Or.inl (hself (by simp [Past]))
  | @written IDs id =>
    have hp : Past (Phase.storing id) := by simp [Past]
    refine h.update (w := ⟨c.world.disk, c.world.entityIdMap.insert (posts i).url.entity (IDs.insert id)⟩)
      (fun x hx => (lookup_insert_eq_none.mp hx).2) (fun x hx => ?_) (fun _ => hp)
      (fun hc => by rw [hph] at hc; cases hc) fun _ => Or.inl (hself (by simp [Past]))
    by_cases hxe : x = (posts i).url.entity
    · exact Or.inr ⟨hxe, hp⟩
    · rw [lookup_insert, if_neg hxe] at hx
      exact Or.inl hx
  | created | failed =>
    rw [← hph, Function.update_eq_self]
    exact h

/-- A change of one phase keeps the numbers as they should be. -/
theorem Numbered.update {σ : Type} {c : Posting σ ι} {m : EntityIdMap}
    (h : Numbered posts s c.world.entityIdMap c.phases)
    (hstays : ∀ {e j}, (∃ l, (posts l).url.entity = e ∧ (c.phases l).number = some j) →
      ∃ l, (posts l).url.entity = e ∧ (Function.update c.phases i ph l).number = some j)
    (hhas : ∀ e k, Has m e k ↔ s.content e k ≠ none ∨ ∃ j, (posts j).url.entity = e ∧
      (Function.update c.phases i ph j).number = some k ∧ ¬ (Function.update c.phases i ph j).Open)
    (hnew : ∀ k, ph.number = some k → s.content (posts i).url.entity k = none ∧
      ∀ j, 1 ≤ j → j < k → s.content (posts i).url.entity j ≠ none ∨
        ∃ l, (posts l).url.entity = (posts i).url.entity ∧
          (Function.update c.phases i ph l).number = some j) :
    Numbered posts s m (Function.update c.phases i ph) where
  has := hhas
  new j k hj := by
    by_cases hji : j = i
    · subst hji
      rw [Function.update_self] at hj
      exact (hnew k hj).1
    · rw [Function.update_of_ne hji] at hj
      exact h.new j k hj
  least j k hj := by
    by_cases hji : j = i
    · subst hji
      rw [Function.update_self] at hj
      exact (hnew k hj).2
    · rw [Function.update_of_ne hji] at hj
      exact fun l h1 hl => (h.least j k hj l h1 hl).imp_right hstays

/-- **The numbers, in one step.** -/
theorem numbered_step {σ : Type} {file : FileSystem σ} {c : Posting σ ι} (ho : Ordered posts c)
    (h : Numbered posts s c.world.entityIdMap c.phases) (i : ι) :
    Numbered posts s (c.step file posts i).world.entityIdMap (c.step file posts i).phases := by
  have hstays : ∀ {e j}, (∃ l, (posts l).url.entity = e ∧ (c.phases l).number = some j) →
      ∃ l, (posts l).url.entity = e ∧ ((c.step file posts i).phases l).number = some j := by
    rintro e j ⟨l, hl, hj⟩
    exact ⟨l, hl, number_step hj⟩
  obtain ⟨ph, w, hstep, hm⟩ := step_cases file posts c i
  rw [hstep] at hstays ⊢
  simp only at hstays ⊢
  -- the numbers that were there are new and the least as before
  have hold : ∀ k, (c.phases i).number = some k → s.content (posts i).url.entity k = none ∧
      ∀ j, 1 ≤ j → j < k → s.content (posts i).url.entity j ≠ none ∨
        ∃ l, (posts l).url.entity = (posts i).url.entity ∧
          (Function.update c.phases i ph l).number = some j := fun k hk =>
    ⟨h.new i k hk, fun j h1 hj => (h.least i k hk j h1 hj).imp_right hstays⟩
  -- where the step neither closes the section nor ends with a new number, the same ones are back
  have hsame : ∀ e k, (ph.number = some k ∧ ¬ ph.Open ↔
      (c.phases i).number = some k ∧ ¬ (c.phases i).Open) →
      ((∃ j, (posts j).url.entity = e ∧ (Function.update c.phases i ph j).number = some k ∧
        ¬ (Function.update c.phases i ph j).Open) ↔
      ∃ j, (posts j).url.entity = e ∧ (c.phases j).number = some k ∧ ¬ (c.phases j).Open) :=
    fun e k hiff => exists_update_iff
      (Q := fun j p => (posts j).url.entity = e ∧ p.number = some k ∧ ¬ p.Open) (and_congr_right fun _ => hiff)
  generalize hph : c.phases i = ph₀ at hm hold hsame
  generalize w.entityIdMap = m at hm ⊢
  cases hm with
  | early h0 h1 hgrow =>
    refine h.update hstays (fun e k => ?_) fun k hk => by rw [h1] at hk; cases hk
    rw [hsame e k (by rw [h0, h1]; simp), ← h.has]
    unfold Has
    rcases hgrow e with hx | ⟨hx, hx'⟩
    · rw [hx]
    · rw [hx, hx']
      simp
  | @takes IDs id hl hk =>
    obtain ⟨-, -, hnot, hless⟩ := nextFree_eq_some.mp hk
    refine h.update hstays (fun e k => ?_) fun k hk' => ?_
    · rw [hsame e k (by simp [Phase.number, Phase.Open]), ← h.has]
    · cases hk'
      refine ⟨?_, fun j h1 hj => ?_⟩
      · by_contra hc
        exact hnot ((has_of_lookup hl id).mp ((h.has _ _).mpr (Or.inl hc)))
      · have hhas := (h.has _ _).mp ((has_of_lookup hl j).mpr (hless j h1 hj))
        refine hhas.imp_right ?_
        rintro ⟨l, hent, hn, -⟩
        exact hstays ⟨l, hent, hn⟩
  | @writes IDs id =>
    obtain ⟨hl, -⟩ := ho.copied i IDs id hph
    refine h.update hstays (fun e k => ?_) fun k hk => hold k hk
    rw [has_insert hl, h.has, exists_update
      (Q := fun j p => (posts j).url.entity = e ∧ p.number = some k ∧ ¬ p.Open)]
    have hothers : (∃ j, (posts j).url.entity = e ∧ (c.phases j).number = some k ∧ ¬ (c.phases j).Open) ↔
        ∃ j, j ≠ i ∧ (posts j).url.entity = e ∧ (c.phases j).number = some k ∧ ¬ (c.phases j).Open := by
      refine exists_congr fun j => (and_iff_right_of_imp ?_).symm
      rintro ⟨-, -, hno⟩ rfl
      exact hno ⟨IDs, id, hph⟩
    rw [hothers]
    simp only [Phase.number, Phase.Open, Option.some.injEq, reduceCtorEq, exists_const, eq_comm (a := e),
      eq_comm (a := k)]
    tauto
  | late hn h0 h1 =>
    refine h.update hstays (fun e k => ?_) fun k hk => hold k (by rw [← hn]; exact hk)
    rw [hsame e k (by rw [hn]; simp [h0, h1]), ← h.has]

/-- A change of one phase keeps the faults as they should be. -/
theorem Faults.update (h : Faults posts s c.phases) (hp : Past (c.phases i) → Past ph)
    (hfail : ∀ taken e, ph = .failed taken e → taken = none ∧
      (e = .intOverflow ∨ e = .endDereference ∧ s.made (posts i).url.entity = false ∧
        ∃ j, j ≠ i ∧ (posts j).url.entity = (posts i).url.entity ∧ Past (c.phases j))) :
    Faults posts s (Function.update c.phases i ph) := by
  intro j taken e hj
  have hother : ∀ l, (∃ j, j ≠ l ∧ (posts j).url.entity = (posts l).url.entity ∧ Past (c.phases j)) →
      ∃ j, j ≠ l ∧ (posts j).url.entity = (posts l).url.entity ∧ Past (Function.update c.phases i ph j) := by
    rintro l ⟨j, hj, hent, hpj⟩
    refine ⟨j, hj, hent, ?_⟩
    by_cases hji : j = i
    · subst hji
      rw [Function.update_self]
      exact hp hpj
    · rw [Function.update_of_ne hji]
      exact hpj
  by_cases hji : j = i
  · subst hji
    rw [Function.update_self] at hj
    exact (hfail taken e hj).imp_right (Or.imp_right fun hmiss => hmiss.imp_right
      (And.imp_right (hother j)))
  · rw [Function.update_of_ne hji] at hj
    exact (h j taken e hj).imp_right (Or.imp_right fun hmiss => hmiss.imp_right
      (And.imp_right (hother j)))

/-- **The faults, in one step.** -/
theorem faults_step (hpost : ∀ j, IsPost base (posts j)) (hd : OnDisk base cwd B c.world.disk sd)
    (hk : PostedKeyed posts s c.world.entityIdMap c.phases) (h : Faults posts s c.phases) (i : ι) :
    Faults posts s (c.step (realFileSystem cwd) posts i).phases := by
  obtain ⟨ph, w, hstep, hacts⟩ := acts_cases hpost hd i
  rw [hstep]
  generalize hph : c.phases i = ph₀ at hacts
  cases hacts with
  | missing hl =>
    refine h.update (fun _ => by simp [Past]) fun taken e hf => ?_
    cases hf
    -- the key is on its way
    obtain ⟨j, hent, hj⟩ := hk.window _ (Or.inr ⟨i, rfl, by simp [Past, hph]⟩) hl
    have hji : j ≠ i := by
      rintro rfl
      rw [hph] at hj
      cases hj
    have hnew : s.made (posts i).url.entity = false :=
      Bool.eq_false_iff.mpr fun hm => hk.kept _ hm hl
    exact ⟨rfl, Or.inr ⟨rfl, hnew, j, hji, hent, by simp [Past, hj]⟩⟩
  | full =>
    refine h.update (fun _ => by simp [Past]) fun taken e hf => ?_
    cases hf
    exact ⟨rfl, Or.inl rfl⟩
  | found | absent | made | keyed | copied | written | stored =>
    exact h.update (by simp [Past, hph]) fun _ _ hf => by cases hf
  | created | failed =>
    rw [← hph, Function.update_eq_self]
    exact h

end Run

/-! ### Runs -/

section Runs
variable {ι : Type} {posts : ι → Post} {base : Path} {cwd B : Loc Str} {s : Store}

/-- What holds at every moment of every schedule. -/
structure Working (posts : ι → Post) (base : Path) (cwd B : Loc Str) (s sd : Store) (c : Posting Tree ι) :
    Prop where
  disk : OnDisk base cwd B c.world.disk sd
  made : ∀ e, sd.made e = true ↔ Made posts s c.phases e
  keyed : PostedKeyed posts s c.world.entityIdMap c.phases
  faults : Faults posts s c.phases
  range : InRange c.phases

/-- What holds as long as the sections are apart. -/
structure InOrder (posts : ι → Post) (base : Path) (cwd B : Loc Str) (s sd : Store) (c : Posting Tree ι) :
    Prop extends Working posts base cwd B s sd c where
  filed : Filed posts s sd c.phases
  ordered : Ordered posts c
  numbered : Numbered posts s c.world.entityIdMap c.phases

theorem has_iff {m : EntityIdMap} (h : InMap m s) (e : Str) (k : ℤ) : Has m e k ↔ s.content e k ≠ none := by
  constructor
  · rintro ⟨IDs, hl, hk⟩
    exact (h.mem e IDs k hl).mp hk
  · intro hk
    obtain ⟨IDs, hl⟩ := h.exists_ids (s.live e k hk).1
    exact ⟨IDs, hl, (h.mem e IDs k hl).mpr hk⟩

theorem inOrder_start {w : World Tree} (hw : Holds base cwd B w s) :
    InOrder posts base cwd B s s (start w) where
  disk := hw.disk
  made e := by simp [Made, Past, start]
  keyed := {
    kept := fun e he => by
      obtain ⟨IDs, hl⟩ := hw.map.exists_ids he
      simp [start, hl]
    made := fun e hl => Or.inl (by
      rw [← hw.map.key e]
      exact Option.isSome_iff_ne_none.mpr hl)
    window := fun e he hn => by
      rcases he with he | ⟨i, -, hp, -⟩
      · obtain ⟨IDs, hl⟩ := hw.map.exists_ids he
        have hn : w.entityIdMap.lookup e = none := hn
        rw [hl] at hn
        cases hn
      · exact absurd rfl hp }
  faults i taken e h := by cases h
  range i k h := by cases h
  filed := ⟨fun i k h => (by cases h), fun e k _ => rfl⟩
  ordered := ordered_start w
  numbered := {
    has := fun e k => by
      refine (has_iff hw.map e k).trans (or_iff_left ?_).symm
      rintro ⟨i, -, hk, -⟩
      cases hk
    new := fun i k h => by cases h
    least := fun i k h => by cases h }

variable [DecidableEq ι]

/-- **One step** of any `POST`. -/
theorem Working.step {sd : Store} {c : Posting Tree ι} (hb : TakesNames base)
    (hpost : ∀ j, IsPost base (posts j)) (h : Working posts base cwd B s sd c) (i : ι) :
    ∃ sd', Working posts base cwd B s sd' (c.step (realFileSystem cwd) posts i) := by
  obtain ⟨sd', hd, hm, -⟩ := disk_step hb hpost h.disk h.made h.range i
  exact ⟨sd', hd, hm, keyed_step hpost h.disk h.made h.keyed i, faults_step hpost h.disk h.keyed h.faults i,
    inRange_step h.range i⟩

/-- **One step** with the sections apart. -/
theorem InOrder.step {sd : Store} {c : Posting Tree ι} (hb : TakesNames base)
    (hpost : ∀ j, IsPost base (posts j)) (h : InOrder posts base cwd B s sd c) (i : ι)
    (ha : SectionsApart posts (c.step (realFileSystem cwd) posts i)) :
    ∃ sd', InOrder posts base cwd B s sd' (c.step (realFileSystem cwd) posts i) := by
  obtain ⟨sd', hd, hm, hf⟩ := disk_step hb hpost h.disk h.made h.range i
  exact ⟨sd', ⟨hd, hm, keyed_step hpost h.disk h.made h.keyed i,
    faults_step hpost h.disk h.keyed h.faults i, inRange_step h.range i⟩,
    hf h.ordered.distinct h.filed, h.ordered.step i ha, numbered_step h.ordered h.numbered i⟩

/-- Every schedule. -/
theorem Working.run (hb : TakesNames base) (hpost : ∀ j, IsPost base (posts j)) :
    ∀ (schedule : List ι) {sd : Store} {c : Posting Tree ι}, Working posts base cwd B s sd c →
      ∃ sd', Working posts base cwd B s sd' (c.run (realFileSystem cwd) posts schedule)
  | [], sd, _, h => ⟨sd, h⟩
  | i :: schedule, _, _, h => by
    obtain ⟨sd', h'⟩ := h.step hb hpost i
    exact Working.run hb hpost schedule h'

/-- Every schedule with the sections apart. -/
theorem InOrder.run (hb : TakesNames base) (hpost : ∀ j, IsPost base (posts j)) {schedule : List ι}
    {w : World Tree} (hw : Holds base cwd B w s)
    (ha : Throughout (Posting.step (realFileSystem cwd) posts) (SectionsApart posts) (start w) schedule) :
    ∃ sd, InOrder posts base cwd B s sd ((start w).run (realFileSystem cwd) posts schedule) := by
  have hkeep : ∀ (c : Posting Tree ι) (i : ι), (∃ sd, InOrder posts base cwd B s sd c) →
      SectionsApart posts (c.step (realFileSystem cwd) posts i) →
      ∃ sd, InOrder posts base cwd B s sd (c.step (realFileSystem cwd) posts i) := by
    rintro c i ⟨sd, h⟩ hi
    exact h.step hb hpost i hi
  exact Throughout.inv hkeep ⟨s, inOrder_start hw⟩ ha

omit [DecidableEq ι] in
/-- Once every `POST` is answered, the tree and the map hold one store. -/
theorem InOrder.holds {sd : Store} {c : Posting Tree ι} (h : InOrder posts base cwd B s sd c) {k : ι → ℤ}
    (hdone : ∀ i, c.phases i = .created (k i)) : Holds base cwd B c.world sd where
  disk := h.disk
  map := by
    have hno : ∀ i, ¬ (c.phases i).Open := by
      rintro i ⟨IDs, id, ho⟩
      rw [hdone] at ho
      cases ho
    have hcontent : ∀ e j, Has c.world.entityIdMap e j ↔ sd.content e j ≠ none := by
      intro e j
      rw [h.numbered.has]
      by_cases hnew : ∃ i, (posts i).url.entity = e ∧ k i = j
      · obtain ⟨i, rfl, rfl⟩ := hnew
        refine iff_of_true (Or.inr ⟨i, rfl, by rw [hdone]; rfl, hno i⟩) ?_
        rw [h.filed.created i (k i) (hdone i)]
        simp
      · rw [h.filed.old e j fun i hi hij => hnew ⟨i, hi, by rw [hdone] at hij; cases hij; rfl⟩]
        refine or_iff_left ?_
        rintro ⟨i, hi, hn, -⟩
        rw [hdone] at hn
        cases hn
        exact hnew ⟨i, hi, rfl⟩
    refine ⟨fun e => ?_, fun e IDs j hl => ?_⟩
    · rw [Bool.eq_iff_iff, h.made, Option.isSome_iff_ne_none]
      refine ⟨h.keyed.made e, fun hm hn => ?_⟩
      obtain ⟨i, -, hi⟩ := h.keyed.window e hm hn
      rw [hdone] at hi
      cases hi
    · rw [← hcontent, has_of_lookup hl]

omit [DecidableEq ι] in
/-- The store at the end. -/
theorem InOrder.posted {sd : Store} {c : Posting Tree ι} (h : InOrder posts base cwd B s sd c) {k : ι → ℤ}
    (hdone : ∀ i, c.phases i = .created (k i)) :
    (∀ i, s.content (posts i).url.entity (k i) = none ∧
      sd.content (posts i).url.entity (k i) = some (posts i).req.body) ∧
    (∀ i j, i ≠ j → (posts i).url.entity = (posts j).url.entity → k i ≠ k j) ∧
    (∀ i j, 1 ≤ j → j < k i → sd.content (posts i).url.entity j ≠ none) ∧
    (∀ e j, (∀ i, (posts i).url.entity = e → k i ≠ j) → sd.content e j = s.content e j) ∧
    ∀ e, sd.made e = true ↔ s.made e = true ∨ ∃ i, (posts i).url.entity = e := by
  have hnumber : ∀ i, (c.phases i).number = some (k i) := fun i => by rw [hdone]; rfl
  have hold : ∀ e j, (∀ i, (posts i).url.entity = e → k i ≠ j) → sd.content e j = s.content e j :=
    fun e j hno => h.filed.old e j fun i hi hij => hno i hi (by rw [hdone] at hij; cases hij; rfl)
  refine ⟨fun i => ⟨h.numbered.new i _ (hnumber i), h.filed.created i _ (hdone i)⟩,
    fun i j hij hent hk => ?_, fun i j h1 hj => ?_, hold, fun e => ?_⟩
  · exact h.ordered.distinct i j hij hent _ (hnumber i) (by rw [hk]; exact hnumber j)
  · by_cases hnew : ∃ l, (posts l).url.entity = (posts i).url.entity ∧ k l = j
    · obtain ⟨l, hent, rfl⟩ := hnew
      rw [← hent, h.filed.created l _ (hdone l)]
      simp
    · rw [hold _ _ fun l hl hlj => hnew ⟨l, hl, hlj⟩]
      refine (h.numbered.least i _ (hnumber i) j h1 hj).resolve_right ?_
      rintro ⟨l, hl, hlj⟩
      rw [hnumber] at hlj
      cases hlj
      exact hnew ⟨l, hl, rfl⟩
  · rw [h.made]
    refine or_congr_right (exists_congr fun i => and_iff_left ?_)
    rw [hdone]
    simp [Past]

end Runs

/-! ### Requests -/

/-- A `POST` on an entity. -/
structure IsCreate (r : ObjectRequest) : Prop where
  post : r.method = .post
  id : r.id = none

/-- What the handler has parsed of it. -/
def postOf (base : Path) (loc : Str) (r : ObjectRequest × Response) : Post :=
  ⟨r.1.toRequest loc, r.2, parsedObject base r.1⟩

theorem isPost_postOf {base : Path} {r : ObjectRequest × Response} (hr : IsCreate r.1) (loc : Str) :
    IsPost base (postOf base loc r) := by
  unfold postOf parsedObject
  rw [hr.id]
  exact ⟨r.1.isName, rfl⟩

theorem entity_postOf (base : Path) (loc : Str) (r : ObjectRequest × Response) :
    (postOf base loc r).url.entity = r.1.entity := entity_parsedObject base r.1

theorem threads_config {σ ι : Type} {file : FileSystem σ} (posts : ι → Post) (c : Posting σ ι) (i : ι) :
    (c.config file posts).threads i = (c.phases i).thread file (posts i) := rfl

theorem thread_eq_done {σ : Type} {file : FileSystem σ} {p : Post} {ph : Phase} {a : Bool × Response}
    (h : ph.thread file p = .done a) : ∃ k, ph = .created k ∧ a = (true, setCreated p.res k) := by
  cases ph with
  | created id =>
    cases h
    exact ⟨id, rfl, rfl⟩
  | checking | making | keying | copying | writing _ _ | storing _ | failed _ _ => cases h

theorem thread_eq_fail {σ : Type} {file : FileSystem σ} {p : Post} {ph : Phase} {e : Fault}
    (h : ph.thread file p = .fail e) : ∃ taken, ph = .failed taken e := by
  cases ph with
  | failed taken e' =>
    cases h
    exact ⟨taken, rfl⟩
  | checking | making | keying | copying | writing _ _ | storing _ | created _ => cases h

section Requests
variable {ι : Type} {h : RequestHandlerAPI} {cwd B : Loc Str} {loc : Str} {s : Store} {w : World Tree}
  {rs : ι → ObjectRequest × Response}

/-- The machine runs the handlers of the requests. -/
theorem config_postOf (hp : h.prefixLength = loc.length) (hb : TakesNames h.basePath)
    (hrs : ∀ i, IsCreate (rs i).1) : (start w).config (realFileSystem cwd)
      (fun i => postOf h.basePath loc (rs i)) = requestPool h cwd (atOnce (realFileSystem cwd)) loc w rs := by
  refine congrArg (Config.mk w) (funext fun i => ?_)
  have hsame : (postOf h.basePath loc (rs i)).url.fullPath.parentPath.same h.basePath = true := by
    rw [(isPost_postOf (hrs i) loc).path]
    exact (named_entity hb (isPost_postOf (hrs i) loc).isName).2.2
  have hpost : ((rs i).1.toRequest loc).method = .post := (hrs i).post
  show checkThread _ _ = responseThread _ _ _ _ _
  rw [checkThread_eq hsame]
  unfold responseThread serveThread
  rw [parseUrlTarget_toRequest hp, hpost]
  simp only [parsedObject_ok, Bool.not_true, Bool.false_eq_true, if_false]
  rfl

variable [DecidableEq ι]

/-- Throughout the schedule no two sections of one entity are open. -/
def AllApart (h : RequestHandlerAPI) (cwd : Loc Str) (loc : Str) (w : World Tree)
    (rs : ι → ObjectRequest × Response) (schedule : List ι) : Prop :=
  Throughout (Posting.step (realFileSystem cwd) fun i => postOf h.basePath loc (rs i))
    (SectionsApart fun i => postOf h.basePath loc (rs i)) (start w) schedule

theorem run_requestPool (hp : h.prefixLength = loc.length) (hb : TakesNames h.basePath)
    (hrs : ∀ i, IsCreate (rs i).1) (schedule : List ι) :
    (requestPool h cwd (atOnce (realFileSystem cwd)) loc w rs).run schedule =
      ((start w).run (realFileSystem cwd) (fun i => postOf h.basePath loc (rs i)) schedule).config
        (realFileSystem cwd) fun i => postOf h.basePath loc (rs i) := by
  rw [config_run, config_postOf hp hb hrs]

/-- **No object is lost.** Any number of `POST`s is served at the same time on a state that holds a store,
in any order of their steps in which the sections of each entity are apart. Once they are all answered,
each was answered `201` with a number, and the state holds the old store with the new objects in it: each
under its number, which was free, no two of an entity under the same one, and none above one that is still
free. -/
theorem apart_posted (hp : h.prefixLength = loc.length) (hb : TakesNames h.basePath)
    (hrs : ∀ i, IsCreate (rs i).1) (hw : Holds h.basePath cwd B w s) {schedule : List ι}
    (ha : AllApart h cwd loc w rs schedule) {a : ι → Bool × Response}
    (hdone : ∀ i, ((requestPool h cwd (atOnce (realFileSystem cwd)) loc w rs).run schedule).threads i =
      .done (a i)) :
    ∃ (k : ι → ℤ) (s' : Store), (∀ i, a i = (true, setCreated (rs i).2 (k i))) ∧
      Holds h.basePath cwd B
        ((requestPool h cwd (atOnce (realFileSystem cwd)) loc w rs).run schedule).state s' ∧
      (∀ i, s.content (rs i).1.entity (k i) = none ∧
        s'.content (rs i).1.entity (k i) = some (rs i).1.body) ∧
      (∀ i j, i ≠ j → (rs i).1.entity = (rs j).1.entity → k i ≠ k j) ∧
      (∀ i j, 1 ≤ j → j < k i → s'.content (rs i).1.entity j ≠ none) ∧
      (∀ e j, (∀ i, (rs i).1.entity = e → k i ≠ j) → s'.content e j = s.content e j) ∧
      ∀ e, s'.made e = true ↔ s.made e = true ∨ ∃ i, (rs i).1.entity = e := by
  have hpost : ∀ i, IsPost h.basePath (postOf h.basePath loc (rs i)) := fun i => isPost_postOf (hrs i) loc
  obtain ⟨s', hs'⟩ := InOrder.run hb hpost hw ha
  have hcreated : ∀ i, ∃ k, ((start w).run (realFileSystem cwd) (fun i => postOf h.basePath loc (rs i))
      schedule).phases i = .created k ∧ a i = (true, setCreated (rs i).2 k) := by
    intro i
    have hi := hdone i
    rw [run_requestPool hp hb hrs, threads_config] at hi
    exact thread_eq_done hi
  choose k hk using hcreated
  have hend := hs'.posted fun i => (hk i).1
  simp only [entity_postOf] at hend
  refine ⟨k, s', fun i => (hk i).2, ?_, hend⟩
  rw [run_requestPool hp hb hrs]
  exact hs'.holds fun i => (hk i).1

/-- Two `POST`s for shoes. -/
def twoShoes (i : Bool) : ObjectRequest × Response :=
  (⟨.post, "shoes".toList, isName_shoes, none, false, 11, [], if i then "red".toList else "blue".toList⟩, {})

theorem isCreate_twoShoes (i : Bool) : IsCreate (twoShoes i).1 := ⟨rfl, rfl⟩

theorem apart_posted_twoShoes : ∃ s', Holds ⟨"data".toList⟩ [] ["data".toList]
    ((requestPool ⟨⟨"data".toList⟩, 4⟩ [] (atOnce (realFileSystem [])) "/api".toList
      ⟨withDir "data".toList, ∅⟩ twoShoes).run
      [true, true, true, false, true, true, false, true, false, false]).state s' ∧
    ∃ k : Bool → ℤ, k true ≠ k false ∧
      s'.content "shoes".toList (k true) = some "red".toList ∧
      s'.content "shoes".toList (k false) = some "blue".toList := by
  have hfresh : Fresh ⟨"data".toList⟩ [] ["data".toList] ⟨withDir "data".toList, ∅⟩ :=
    fresh_withDir (by decide) (by decide) (by decide)
  have hnamed : Named (⟨"data".toList⟩ : Boost.Paths.Path) := ⟨by decide, by decide⟩
  have hphases : ∀ i, ((start ⟨withDir "data".toList, ∅⟩).run (realFileSystem [])
      (fun i => postOf ⟨"data".toList⟩ "/api".toList (twoShoes i))
      [true, true, true, false, true, true, false, true, false, false]).phases i =
        .created (if i then 1 else 2) := by decide +kernel
  obtain ⟨k, s', -, hs', hnew, hne, -⟩ := @apart_posted Bool ⟨⟨"data".toList⟩, 4⟩ [] ["data".toList]
    "/api".toList _ _ twoShoes _ rfl hnamed.takesNames isCreate_twoShoes hfresh.holds
    [true, true, true, false, true, true, false, true, false, false] (by unfold AllApart; decide +kernel)
    (fun i => (true, setCreated {} (if i then 1 else 2))) (fun i => by
      rw [run_requestPool rfl hnamed.takesNames isCreate_twoShoes, threads_config, hphases]
      rfl)
  exact ⟨s', hs', k, hne true false (by decide) rfl, (hnew true).2, (hnew false).2⟩

/-- **A `POST` fails only on a new entity that another one is making**, whatever the schedule, or where
no number is left. -/
theorem failed_post (hp : h.prefixLength = loc.length) (hb : TakesNames h.basePath)
    (hrs : ∀ i, IsCreate (rs i).1) (hw : Holds h.basePath cwd B w s) (schedule : List ι) {i : ι} {e : Fault}
    (hf : ((requestPool h cwd (atOnce (realFileSystem cwd)) loc w rs).run schedule).threads i = .fail e) :
    e = .intOverflow ∨ e = .endDereference ∧ s.made (rs i).1.entity = false ∧
      ∃ j, j ≠ i ∧ (rs j).1.entity = (rs i).1.entity := by
  have hpost : ∀ i, IsPost h.basePath (postOf h.basePath loc (rs i)) := fun i => isPost_postOf (hrs i) loc
  obtain ⟨sd, hs⟩ := Working.run hb hpost schedule (inOrder_start hw).toWorking
  rw [run_requestPool hp hb hrs, threads_config] at hf
  obtain ⟨taken, hph⟩ := thread_eq_fail hf
  have hfault := (hs.faults i taken e hph).2
  simp only [entity_postOf] at hfault
  exact hfault.imp_right fun ⟨he, hnew, j, hj, hent, _⟩ => ⟨he, hnew, j, hj, hent⟩

/-- One has made the directory, and the other one looks for the key. -/
theorem failed_post_twoShoes : Store.empty.made "shoes".toList = false ∧
    ∃ j, j ≠ false ∧ (twoShoes j).1.entity = "shoes".toList := by
  have hfresh : Fresh ⟨"data".toList⟩ [] ["data".toList] ⟨withDir "data".toList, ∅⟩ :=
    fresh_withDir (by decide) (by decide) (by decide)
  have hnamed : Named (⟨"data".toList⟩ : Boost.Paths.Path) := ⟨by decide, by decide⟩
  have hphase : ((start ⟨withDir "data".toList, ∅⟩).run (realFileSystem [])
      (fun i => postOf ⟨"data".toList⟩ "/api".toList (twoShoes i)) [true, true, false, false]).phases false =
        .failed none .endDereference := by decide +kernel
  obtain hno | ⟨-, hnew, hother⟩ := @failed_post Bool ⟨⟨"data".toList⟩, 4⟩ [] ["data".toList] "/api".toList _ _
    twoShoes _ rfl hnamed.takesNames isCreate_twoShoes hfresh.holds [true, true, false, false] false
    .endDereference (by
      rw [run_requestPool rfl hnamed.takesNames isCreate_twoShoes, threads_config, hphase]
      rfl)
  · cases hno
  · exact ⟨hnew, hother⟩

end Requests

end Kachow.Api.Posted
