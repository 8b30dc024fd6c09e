import Kachow.Api.Factory
import Kachow.Api.Frame
import Kachow.Api.Threads

/-! # Requests for different entities at the same time

A request uses the directory of its entity and the set of its entity in the map, and nothing else that
changes (`allLocal_responseThread`). So requests for different entities do not get in each other's way:
however their steps are mixed, the answers, the files and the map are those of the requests taken one
after the other (`requests_serializable`). -/

namespace Kachow.Api.Serializable

open Kachow.Lib.Text Kachow.Lib.Decimal Kachow.Lib.Sets Kachow.Lib.Files Kachow.Lib.Runs
open Kachow.Lib.Threads Kachow.Boost.Paths Kachow.Http.Messages Kachow.Http.Mime Kachow.Disk
open Kachow.Api.Ids Kachow.Api.Handler Kachow.Api.Objects Kachow.Api.StoreStep Kachow.Api.Factory
open Kachow.Api.Frame Kachow.Api.Threads

/-! ### What a step uses -/

/-- The base path leads to the directory `B`; in it are directories, and in those files. -/
structure Based (base : Path) (cwd B : Loc Str) (t : Tree) : Prop where
  base : base.locate t cwd = some B
  dir : t.isDir B = true
  entity : ∀ e, t.isFile (B ++ [e]) = false
  object : ∀ e x, t.isDir (B ++ [e] ++ [x]) = false

/-- The directory of the entity is the same in two trees. -/
def SameDir (B : Loc Str) (e : Str) (t t' : Tree) : Prop :=
  ∀ r, t.node (B ++ e :: r) = t'.node (B ++ e :: r)

/-- The cells of what the handlers share: each entity has its directory and its set, and the rest of the
tree is a cell too. -/
def SameEntity (B : Loc Str) : Option Str → World Tree → World Tree → Prop
  | some e, w, w' => SameDir B e w.disk w'.disk ∧ w.entityIdMap.lookup e = w'.entityIdMap.lookup e
  | none, w, w' => ∀ l, (∀ e r, l ≠ B ++ e :: r) → w.disk.node l = w'.disk.node l

theorem cells_sameEntity (B : Loc Str) : Cells (SameEntity B) where
  equiv k := by
    cases k with
    | none => exact ⟨fun _ _ _ => rfl, fun h l hl => (h l hl).symm,
        fun h h' l hl => (h l hl).trans (h' l hl)⟩
    | some e => exact ⟨fun _ => ⟨fun _ => rfl, rfl⟩, fun h => ⟨fun r => (h.1 r).symm, h.2.symm⟩,
        fun h h' => ⟨fun r => (h.1 r).trans (h'.1 r), h.2.trans h'.2⟩⟩
  ext := by
    intro w w' h
    obtain ⟨t, m⟩ := w
    obtain ⟨t', m'⟩ := w'
    have ht : t = t' := by
      refine FileTree.ext_node fun l => ?_
      by_cases hl : ∃ e r, l = B ++ e :: r
      · obtain ⟨e, r, rfl⟩ := hl
        exact (h (some e)).1 r
      · push Not at hl
        exact h none l hl
    have hm : m = m' := Finmap.ext_lookup fun e => (h (some e)).2
    rw [ht, hm]

section Calls
variable {base : Path} {cwd B : Loc Str} {e : Str} {t t' : Tree}

/-- The step keeps to the entity. -/
abbrev LocalTo (base : Path) (cwd B : Loc Str) (e : Str) {α : Type} (x : EStateM Fault (World Tree) α) :
    Prop := Local (fun w => Based base cwd B w.disk) (SameEntity B) (some e) x

/-- The path leads into the directory of the entity, or nowhere, and where it leads depends on this
directory only. -/
structure LeadsInto (base : Path) (cwd B : Loc Str) (e : Str) (p : Path) : Prop where
  below : ∀ {t l}, Based base cwd B t → p.locate t cwd = some l → ∃ r, l = B ++ e :: r
  agree : ∀ {t t'}, Based base cwd B t → Based base cwd B t' → SameDir B e t t' →
    p.locate t cwd = p.locate t' cwd

theorem Based.locate_entity (h : Based base cwd B t) (he : IsName e) :
    (entityPath base e).locate t cwd = some (B ++ [e]) := by
  have hl := locate_append_slash h.base e
  rw [append_slash, OnDisk.comps_entity he, FileTree.locate, if_pos h.dir] at hl
  exact hl

theorem Based.locate_object (h : Based base cwd B t) (he : IsName e) (k : ℤ) :
    (objectPath base e k).locate t cwd =
      if t.isDir (B ++ [e]) then some (B ++ [e] ++ [intToString k]) else none := by
  have hl := locate_append_slash (h.locate_entity he) (intToString k)
  rw [append_slash, comps_name (intToString_ne_nil k) (OnDisk.noSlash_intToString k),
    OnDisk.comp_intToString, FileTree.locate] at hl
  exact hl

theorem leadsInto_entity (he : IsName e) : LeadsInto base cwd B e (entityPath base e) where
  below h hl := by
    rw [h.locate_entity he, Option.some.injEq] at hl
    exact ⟨[], hl.symm⟩
  agree h h' _ := by rw [h.locate_entity he, h'.locate_entity he]

theorem leadsInto_object (he : IsName e) (k : ℤ) : LeadsInto base cwd B e (objectPath base e k) where
  below h hl := by
    rw [h.locate_object he] at hl
    split_ifs at hl
    exact ⟨[intToString k], by simpa using hl.symm⟩
  agree h h' hs := by
    rw [h.locate_object he, h'.locate_object he, (FileTree.node_congr (hs [])).1]

/-- What can be put into the directory of the entity depends on this directory only. -/
theorem canPut_congr (h : t.isDir B = true) (h' : t'.isDir B = true) (hs : SameDir B e t t')
    (r : Loc Str) : t.CanPut (B ++ e :: r) ↔ t'.CanPut (B ++ e :: r) := by
  unfold FileTree.CanPut
  rw [(FileTree.node_congr (hs r)).1]
  refine and_congr_right fun _ => and_congr_left fun _ => ?_
  rcases List.eq_nil_or_concat r with rfl | ⟨r, x, rfl⟩
  · rw [List.dropLast_concat, h, h']
  · have hdrop : (B ++ e :: r.concat x).dropLast = B ++ e :: r := by
      rw [List.concat_eq_append, ← List.cons_append, ← List.append_assoc, List.dropLast_concat]
    rw [hdrop, (FileTree.node_congr (hs r)).1]

/-! ### The calls keep to the entity -/

/-- A question about the directory of the entity. -/
theorem local_read {α : Type} {x : EStateM Fault (World Tree) α} {f : Tree → α}
    (hx : ∀ w, x.run w = .ok (f w.disk) w)
    (hf : ∀ t t', Based base cwd B t → Based base cwd B t' → SameDir B e t t' → f t = f t') :
    LocalTo base cwd B e x where
  keeps w b v hw h := by
    rw [hx] at h
    cases h
    exact hw
  frame := by
    intro w b v j _ h _
    rw [hx] at h
    cases h
    exact ((cells_sameEntity B).equiv j).refl w
  agree := by
    intro w v b w' hw hv hs h
    rw [hx] at h
    cases h
    exact ⟨v, by rw [hx, hf _ _ hw hv hs.1], hs⟩

/-- A change of the directory of the entity. -/
theorem local_change {α : Type} {x : EStateM Fault (World Tree) α} {g : Tree → Option (α × Tree)}
    (hx : ∀ w b w', x.run w = .ok b w' ↔ ∃ t, g w.disk = some (b, t) ∧ w' = ⟨t, w.entityIdMap⟩)
    (hkeep : ∀ t b t', Based base cwd B t → g t = some (b, t') → Based base cwd B t')
    (hframe : ∀ t b t', Based base cwd B t → g t = some (b, t') →
      ∀ l, (∀ r, l ≠ B ++ e :: r) → t.node l = t'.node l)
    (hagree : ∀ t t₂ b t', Based base cwd B t → Based base cwd B t₂ → SameDir B e t t₂ →
      g t = some (b, t') → ∃ t₂', g t₂ = some (b, t₂') ∧ SameDir B e t' t₂') :
    LocalTo base cwd B e x where
  keeps w b w' hw h := by
    obtain ⟨t, hg, rfl⟩ := (hx w b w').mp h
    exact hkeep _ _ _ hw hg
  frame := by
    intro w b w' j hw h hj
    obtain ⟨t, hg, rfl⟩ := (hx w b w').mp h
    cases j with
    | none => exact fun l hl => hframe _ _ _ hw hg l (hl e)
    | some e' =>
      refine ⟨fun r => hframe _ _ _ hw hg _ fun r' heq => hj ?_, rfl⟩
      rw [List.append_cancel_left_eq, List.cons.injEq] at heq
      rw [heq.1]
  agree := by
    intro w v b w' hw hv hs h
    obtain ⟨t, hg, rfl⟩ := (hx w b w').mp h
    obtain ⟨t₂, hg₂, hs₂⟩ := hagree _ _ _ _ hw hv hs.1 hg
    exact ⟨⟨t₂, v.entityIdMap⟩, (hx v b _).mpr ⟨t₂, hg₂, rfl⟩, hs₂, hs.2⟩

/-- A step on the set of the entity. -/
theorem local_map {α : Type} {x : EStateM Fault (World Tree) α}
    (hframe : ∀ w b w', x.run w = .ok b w' →
      w'.disk = w.disk ∧ ∀ y, y ≠ e → w'.entityIdMap.lookup y = w.entityIdMap.lookup y)
    (hagree : ∀ w v b w', w.entityIdMap.lookup e = v.entityIdMap.lookup e → x.run w = .ok b w' →
      ∃ v', x.run v = .ok b v' ∧ w'.entityIdMap.lookup e = v'.entityIdMap.lookup e) :
    LocalTo base cwd B e x where
  keeps w b w' hw h := by
    show Based base cwd B w'.disk
    rw [(hframe w b w' h).1]
    exact hw
  frame := by
    intro w b w' j _ h hj
    obtain ⟨hd, hm⟩ := hframe w b w' h
    cases j with
    | none => exact fun l _ => by rw [hd]
    | some e' =>
      refine ⟨fun r => by rw [hd], (hm e' fun hc => hj (by rw [hc])).symm⟩
  agree := by
    intro w v b w' _ _ hs h
    obtain ⟨v', hv', hl⟩ := hagree w v b w' hs.2 h
    refine ⟨v', hv', ?_, hl⟩
    rw [(hframe w b w' h).1, (hframe v b v' hv').1]
    exact hs.1

theorem isFileAt_congr {p : Path} (hp : LeadsInto base cwd B e p) (h : Based base cwd B t)
    (h' : Based base cwd B t') (hs : SameDir B e t t') : isFileAt cwd t p = isFileAt cwd t' p := by
  unfold isFileAt
  rw [← hp.agree h h' hs]
  cases hl : p.locate t cwd with
  | none => rfl
  | some l =>
    obtain ⟨r, rfl⟩ := hp.below h hl
    exact (FileTree.node_congr (hs r)).2

section Path
variable {p : Path} (hp : LeadsInto base cwd B e p)
include hp

theorem local_exists : LocalTo base cwd B e (onDisk ((realFileSystem cwd).exists_ p)) :=
  local_read (f := fun t => existsAt cwd t p) (fun _ => rfl) fun t t' h h' hs => by
    unfold existsAt
    rw [← hp.agree h h' hs]
    cases hl : p.locate t cwd with
    | none => rfl
    | some l =>
      obtain ⟨r, rfl⟩ := hp.below h hl
      simp only [hs r]

theorem local_isRegularFile : LocalTo base cwd B e (onDisk ((realFileSystem cwd).isRegularFile p)) :=
  local_read (f := fun t => isFileAt cwd t p) (fun _ => rfl) fun _ _ => isFileAt_congr hp

theorem local_readFile : LocalTo base cwd B e (onDisk ((realFileSystem cwd).readFile p)) :=
  local_read (f := fun t => readAt cwd t p) (fun _ => rfl) fun t t' h h' hs => by
    unfold readAt
    rw [← hp.agree h h' hs]
    cases hl : p.locate t cwd with
    | none => rfl
    | some l =>
      obtain ⟨r, rfl⟩ := hp.below h hl
      unfold FileTree.read
      simp only [hs r]

end Path

theorem mkdirAt_agree (he : IsName e) {t₂ : Tree} {b : Bool} (h : Based base cwd B t)
    (h₂ : Based base cwd B t₂) (hs : SameDir B e t t₂)
    (hm : mkdirAt cwd t (entityPath base e) = some (b, t')) :
    ∃ t₂', mkdirAt cwd t₂ (entityPath base e) = some (b, t₂') := by
  rw [mkdirAt_of_locate (h.locate_entity he)] at hm
  rw [mkdirAt_of_locate (h₂.locate_entity he)]
  unfold FileTree.mkdir at hm ⊢
  rw [(FileTree.node_congr (hs [])).1, (FileTree.node_congr (hs [])).2] at hm
  split_ifs at hm ⊢ with h1 h2 h3 h4 h4
  · cases hm
    exact ⟨_, rfl⟩
  · cases hm
    exact ⟨_, rfl⟩
  · exact absurd ((canPut_congr h.dir h₂.dir hs []).mp h4) h3

theorem local_createDirectory (he : IsName e) :
    LocalTo base cwd B e (onDisk ((realFileSystem cwd).createDirectory (entityPath base e))) := by
  have hres : ∀ {t : Tree}, Based base cwd B t → (entityPath base e).resolve cwd = B ++ [e] :=
    fun h => (locate_resolve (h.locate_entity he)).symm
  refine local_change (g := fun t => mkdirAt cwd t (entityPath base e)) (fun w b w' => ?_)
    (fun t b t' h hm => ?_) (fun t b t' h hm l hl => ?_) fun t t₂ b t' h h₂ hs hm => ?_
  · rw [run_createDirectory]
    cases mkdirAt cwd w.disk (entityPath base e) with
    | none => simp
    | some c =>
      simp only [EStateM.Result.ok.injEq, Option.some.injEq]
      constructor
      · rintro ⟨rfl, rfl⟩
        exact ⟨c.2, rfl, rfl⟩
      · rintro ⟨t, rfl, rfl⟩
        exact ⟨rfl, rfl⟩
  · refine ⟨locate_mkdirAt hm h.base, isDir_mkdirAt hm h.dir, fun x => ?_, fun x y => ?_⟩
    · rcases node_mkdirAt hm (B ++ [x]) with hn | ⟨-, hn, -⟩
      · rw [(FileTree.node_congr hn).2]
        exact h.entity x
      · unfold FileTree.isFile
        rw [hn]
    · rcases node_mkdirAt hm (B ++ [x] ++ [y]) with hn | ⟨hl, -, -⟩
      · rw [(FileTree.node_congr hn).1]
        exact h.object x y
      · exact absurd (congrArg List.length (hl.trans (hres h))) (by simp)
  · rcases node_mkdirAt hm l with hn | ⟨hl', -, -⟩
    · exact hn.symm
    · exact absurd (hl'.trans (hres h)) (hl [])
  · obtain ⟨t₂', hm₂⟩ := mkdirAt_agree he h h₂ hs hm
    refine ⟨t₂', hm₂, fun r => ?_⟩
    rw [mkdirAt_of_locate (h.locate_entity he)] at hm
    rw [mkdirAt_of_locate (h₂.locate_entity he)] at hm₂
    rw [FileTree.node_mkdir hm, FileTree.node_mkdir hm₂, hs r]

/-- What is written into the directory of the entity is all that a write changes. -/
theorem node_writeAt_object (h : Based base cwd B t) (he : IsName e) (k : ℤ) (b : Str) (l : Loc Str) :
    (writeAt cwd t (objectPath base e k) b).node l = t.node l ∨ l = B ++ [e] ++ [intToString k] := by
  rcases @node_writeAt cwd t (objectPath base e k) b l with hn | ⟨hl, -, -⟩
  · exact Or.inl hn
  · rw [h.locate_object he] at hl
    split_ifs at hl
    exact Or.inr (Option.some.inj hl).symm

theorem based_writeAt (h : Based base cwd B t) (he : IsName e) (k : ℤ) (b : Str) :
    Based base cwd B (writeAt cwd t (objectPath base e k) b) := by
  refine ⟨locate_writeAt b h.base, by rw [isDir_writeAt]; exact h.dir, fun x => ?_,
    fun x y => by rw [isDir_writeAt]; exact h.object x y⟩
  rcases node_writeAt_object h he k b (B ++ [x]) with hn | hl
  · rw [(FileTree.node_congr hn).2]
    exact h.entity x
  · exact absurd (congrArg List.length hl) (by simp)

theorem frame_writeAt (h : Based base cwd B t) (he : IsName e) (k : ℤ) (b : Str) {l : Loc Str}
    (hl : ∀ r, l ≠ B ++ e :: r) : t.node l = (writeAt cwd t (objectPath base e k) b).node l := by
  rcases node_writeAt_object h he k b l with hn | hl'
  · exact hn.symm
  · exact absurd hl' (by simpa using hl [intToString k])

theorem sameDir_writeAt {t₂ : Tree} (h : Based base cwd B t) (h₂ : Based base cwd B t₂)
    (hs : SameDir B e t t₂) (he : IsName e) (k : ℤ) (b : Str) :
    SameDir B e (writeAt cwd t (objectPath base e k) b) (writeAt cwd t₂ (objectPath base e k) b) := by
  intro r
  have hagree := LeadsInto.agree (leadsInto_object he k) h h₂ hs
  cases hl : (objectPath base e k).locate t cwd with
  | none =>
    unfold writeAt
    rw [← hagree, hl]
    exact hs r
  | some l =>
    obtain ⟨q, rfl⟩ := (leadsInto_object he k).below h hl
    rw [writeAt_of_locate hl, writeAt_of_locate (hagree ▸ hl), FileTree.node_write,
      FileTree.node_write, hs r]
    exact if_congr (and_congr_right fun _ => canPut_congr h.dir h₂.dir hs q) rfl rfl

/-- A step that changes the directory of the entity, and always gives the same result. -/
theorem local_always {α : Type} {a : α} {g : Tree → Tree}
    (hkeep : ∀ t, Based base cwd B t → Based base cwd B (g t))
    (hframe : ∀ t, Based base cwd B t → ∀ l, (∀ r, l ≠ B ++ e :: r) → t.node l = (g t).node l)
    (hagree : ∀ t t₂, Based base cwd B t → Based base cwd B t₂ → SameDir B e t t₂ →
      SameDir B e (g t) (g t₂)) :
    LocalTo base cwd B e (onDisk fun t => .ok a (g t)) := by
  refine local_change (g := fun t => some (a, g t)) (fun w b w' => ?_) (fun t b t' h hm => ?_)
    (fun t b t' h hm => ?_) fun t t₂ b t' h h₂ hs hm => ?_
  · have hrun : (onDisk fun t => .ok a (g t)).run w =
        (.ok a ⟨g w.disk, w.entityIdMap⟩ : EStateM.Result Fault (World Tree) α) := rfl
    rw [hrun]
    simp only [EStateM.Result.ok.injEq, Option.some.injEq, Prod.mk.injEq]
    constructor
    · rintro ⟨rfl, rfl⟩
      exact ⟨_, ⟨rfl, rfl⟩, rfl⟩
    · rintro ⟨_, ⟨rfl, rfl⟩, rfl⟩
      exact ⟨rfl, rfl⟩
  · cases hm
    exact hkeep t h
  · cases hm
    exact hframe t h
  · cases hm
    exact ⟨_, rfl, hagree t t₂ h h₂ hs⟩

theorem local_writeFile (he : IsName e) (k : ℤ) (body : Str) :
    LocalTo base cwd B e (onDisk ((realFileSystem cwd).writeFile (objectPath base e k) body)) :=
  local_always (fun _ h => based_writeAt h he k body) (fun _ h _ hl => frame_writeAt h he k body hl)
    fun _ _ h h₂ hs => sameDir_writeAt h h₂ hs he k body

theorem local_fillAt (he : IsName e) (k : ℤ) (b : Str) :
    LocalTo base cwd B e (onDisk fun t => .ok () (fillAt cwd t (objectPath base e k) b)) := by
  refine local_always (fun t h => ?_) (fun t h l hl => ?_) fun t t₂ h h₂ hs => ?_
  · unfold fillAt
    split_ifs
    · exact based_writeAt h he k b
    · exact h
  · unfold fillAt
    split_ifs
    · exact frame_writeAt h he k b hl
    · rfl
  · unfold fillAt
    rw [← isFileAt_congr (leadsInto_object he k) h h₂ hs]
    split_ifs
    · exact sameDir_writeAt h h₂ hs he k b
    · exact hs

/-- What is removed is a file, or nothing. -/
theorem removeAt_object (h : Based base cwd B t) (he : IsName e) (k : ℤ) : ∃ t',
    removeAt cwd t (objectPath base e k) = some (isFileAt cwd t (objectPath base e k), t') ∧
    (∀ l, t'.isDir l = t.isDir l) ∧
    ∀ l, t'.node l = if (objectPath base e k).locate t cwd = some l then none else t.node l := by
  by_cases hf : isFileAt cwd t (objectPath base e k) = true
  · obtain ⟨l, t', hl, -, hrm, hnode, hdir⟩ := removeAt_of_isFileAt hf
    refine ⟨t', by rw [hrm, hf], hdir, fun l' => ?_⟩
    rw [hnode, hl]
    simp only [Option.some.injEq, eq_comm]
  · have hnone : ∀ l, (objectPath base e k).locate t cwd = some l → t.node l = none := by
      intro l hl
      have hd : t.isDir l = false := by
        rw [h.locate_object he] at hl
        split_ifs at hl
        rw [← Option.some.inj hl]
        exact h.object e (intToString k)
      rw [isFileAt_of_locate hl] at hf
      cases hnode : t.node l with
      | none => rfl
      | some n => cases n <;> simp [FileTree.isFile, FileTree.isDir, hnode] at hf hd
    rw [Bool.not_eq_true] at hf
    refine ⟨t, ?_, fun _ => rfl, fun l => ?_⟩
    · rw [hf]
      cases hl : (objectPath base e k).locate t cwd with
      | none =>
        unfold removeAt
        rw [hl]
      | some l =>
        rw [removeAt_of_locate hl]
        unfold FileTree.unlink
        rw [if_pos (hnone l hl)]
    · split_ifs with hl
      · exact hnone l hl
      · rfl

theorem local_remove (he : IsName e) (k : ℤ) :
    LocalTo base cwd B e (onDisk ((realFileSystem cwd).remove (objectPath base e k))) := by
  refine local_change (g := fun t => removeAt cwd t (objectPath base e k)) (fun w b w' => ?_)
    (fun t b t' h hm => ?_) (fun t b t' h hm l hl => ?_) fun t t₂ b t' h h₂ hs hm => ?_
  · rw [run_fsRemove]
    cases removeAt cwd w.disk (objectPath base e k) with
    | none => simp
    | some c =>
      simp only [EStateM.Result.ok.injEq, Option.some.injEq]
      constructor
      · rintro ⟨rfl, rfl⟩
        exact ⟨c.2, rfl, rfl⟩
      · rintro ⟨t, rfl, rfl⟩
        exact ⟨rfl, rfl⟩
  · obtain ⟨t'', hrm, hdir, hnode⟩ := removeAt_object h he k
    rw [hrm] at hm
    cases hm
    refine ⟨path_locate_mono (fun l hd => by rw [hdir]; exact hd) h.base, by rw [hdir]; exact h.dir,
      fun x => ?_, fun x y => by rw [hdir]; exact h.object x y⟩
    have hx := h.entity x
    unfold FileTree.isFile at hx ⊢
    rw [hnode]
    split_ifs
    · rfl
    · exact hx
  · obtain ⟨t'', hrm, -, hnode⟩ := removeAt_object h he k
    rw [hrm] at hm
    cases hm
    rw [hnode, if_neg]
    intro hl'
    obtain ⟨r, hr⟩ := (leadsInto_object he k).below h hl'
    exact hl r hr
  · obtain ⟨t'', hrm, -, hnode⟩ := removeAt_object h he k
    obtain ⟨t₂', hrm₂, -, hnode₂⟩ := removeAt_object h₂ he k
    rw [hrm] at hm
    cases hm
    have hagree := LeadsInto.agree (leadsInto_object he k) h h₂ hs
    refine ⟨t₂', ?_, fun r => ?_⟩
    · simp only [hrm₂, isFileAt_congr (leadsInto_object he k) h h₂ hs]
    · rw [hnode, hnode₂, hagree, hs r]

theorem local_copyIDs : LocalTo base cwd B e (copyIDs e) := by
  refine local_map (fun w b w' h => ?_) fun w v b w' hs h => ?_
  · cases h
    exact ⟨rfl, fun _ _ => rfl⟩
  · cases h
    exact ⟨v, by unfold copyIDs EStateM.run; rw [hs], hs⟩

theorem local_copyKnownIDs : LocalTo base cwd B e (copyKnownIDs e) := by
  have hrun : ∀ {w : World Tree} {b w'}, (copyKnownIDs e).run w = .ok b w' ↔
      w.entityIdMap.lookup e = some b ∧ w' = w := by
    intro w b w'
    cases hl : w.entityIdMap.lookup e with
    | none => simp [copyKnownIDs, EStateM.run, hl]
    | some IDs => simp [copyKnownIDs, EStateM.run, hl, eq_comm]
  refine local_map (fun w b w' h => ?_) fun w v b w' hs h => ?_
  · obtain ⟨-, rfl⟩ := hrun.mp h
    exact ⟨rfl, fun _ _ => rfl⟩
  · obtain ⟨hb, rfl⟩ := hrun.mp h
    exact ⟨v, hrun.mpr ⟨hs ▸ hb, rfl⟩, hs⟩

/-- A change of the map that leaves the other sets alone. -/
theorem local_onIds {f : EntityIdMap → EntityIdMap} {g : Option IdSet → Option IdSet}
    (hf : ∀ m x, (f m).lookup x = if x = e then g (m.lookup e) else m.lookup x) :
    LocalTo base cwd B e (onIds f) := by
  refine local_map (fun w b w' h => ?_) fun w v b w' hs h => ?_
  · cases h
    refine ⟨rfl, fun y hy => ?_⟩
    simp only [hf, if_neg hy]
  · cases h
    refine ⟨_, rfl, ?_⟩
    simp only [hf, if_true, hs]

theorem local_writeBack (IDs : IdSet) : LocalTo base cwd B e (writeBack e IDs) :=
  local_onIds (g := fun _ => some IDs) fun m x => lookup_insert m e IDs x

theorem local_insertPair (IDs : IdSet) :
    LocalTo base cwd B e (onIds fun m => insertPair m e IDs) := by
  refine local_onIds (g := fun s => some (s.getD IDs)) fun m x => ?_
  unfold insertPair
  cases hl : m.lookup e with
  | none =>
    rw [lookup_insert]
    rfl
  | some s =>
    split_ifs with hx
    · rw [hx, hl]
      rfl
    · rfl

/-! ### The requests keep to their entities -/

/-- Every step of the thread keeps to the entity. -/
abbrev AllLocal (base : Path) (cwd B : Loc Str) (e : Str) {α : Type} (t : Thread Fault (World Tree) α) :
    Prop := t.All (fun w => Based base cwd B w.disk) fun _ x => LocalTo base cwd B e x

theorem allLocal_fillThread (he : IsName e) (k : ℤ) : ∀ rest b : Str,
    AllLocal base cwd B e (fillThread cwd (objectPath base e k) b rest)
  | [], _ => trivial
  | _ :: rest, _ =>
    Thread.all_atomic_bind (local_fillAt he k _) fun _ _ => allLocal_fillThread he k rest _

theorem allLocal_inPieces (he : IsName e) (k : ℤ) (body : Str) :
    AllLocal base cwd B e (inPieces cwd (objectPath base e k) body) :=
  Thread.all_atomic_bind (local_writeFile he k []) fun _ _ =>
    Thread.all_bind (fun _ => Thread.all_pure _) (allLocal_fillThread he k body [])

theorem allLocal_nextIdThread : AllLocal base cwd B e (nextIdThread e) :=
  Thread.all_atomic_bind local_copyKnownIDs fun existingIDs _ => by
    cases nextFree existingIDs with
    | none => trivial
    | some id => exact Thread.all_atomic_bind (local_writeBack _) fun _ _ => trivial

theorem allLocal_eraseThread (id : ℤ) : AllLocal base cwd B e (eraseThread e id) :=
  Thread.all_atomic_bind local_copyIDs fun IDs _ => by
    cases IDs with
    | none => trivial
    | some existingIDs =>
      simp only
      split_ifs
      · exact Thread.all_atomic (local_writeBack _)
      · trivial

theorem allLocal_insertThread (id : ℤ) : AllLocal base cwd B e (insertThread e id) :=
  Thread.all_atomic_bind local_copyIDs fun IDs _ => by
    cases IDs with
    | none => exact Thread.all_atomic (local_insertPair _)
    | some existingIDs =>
      simp only
      split_ifs
      · trivial
      · exact Thread.all_atomic (local_writeBack _)

end Calls

/-- The path above the path of an entity is the base path, and the path above that is not. -/
theorem not_same_base {base : Path} {e : Str} (hb : TakesNames base) (he : IsName e) :
    (entityPath base e).parentPath.parentPath.same base = false := by
  rw [← Bool.not_eq_true, same_iff, elements_parentPath, same_iff.mp (named_entity hb he).2.2]
  intro heq
  have hlen := congrArg List.length heq
  have hpos := List.length_pos_iff.mpr (elements_ne_nil hb.ne_nil)
  rw [List.length_dropLast] at hlen
  omega

section Request
variable {h : RequestHandlerAPI} {cwd B : Loc Str} {loc : Str} {r : ObjectRequest} {req : Request}
  {res : Response}

theorem leadsInto_parsed : LeadsInto h.basePath cwd B r.entity (parsedObject h.basePath r).fullPath := by
  unfold parsedObject
  cases r.id with
  | none => exact leadsInto_entity r.isName
  | some k => exact leadsInto_object r.isName k.number

theorem entity_parsedObject (base : Path) (r : ObjectRequest) :
    (parsedObject base r).entity = r.entity := by
  unfold parsedObject
  cases r.id <;> rfl

theorem allLocal_retrieveThread : AllLocal h.basePath cwd B r.entity
    (retrieveThread (realFileSystem cwd) res (parsedObject h.basePath r)) := by
  have hp : LeadsInto h.basePath cwd B r.entity (parsedObject h.basePath r).fullPath := leadsInto_parsed
  unfold retrieveThread
  rw [entity_parsedObject]
  refine Thread.all_atomic_bind (local_exists hp) fun there _ => ?_
  have hrest : ∀ regular : Bool, AllLocal h.basePath cwd B r.entity
      (if !regular then do
        eraseThread r.entity (parsedObject h.basePath r).id
        pure (false, setNotfoundRequest res)
      else do
        let body ← call ((realFileSystem cwd).readFile (parsedObject h.basePath r).fullPath)
        insertThread r.entity (parsedObject h.basePath r).id
        pure (true, res.fill 200
          (extensionToMIME (parsedObject h.basePath r).fullPath.extension) body)) := by
    intro regular
    cases regular with
    | false => exact Thread.all_bind (fun _ => Thread.all_pure _) (allLocal_eraseThread _)
    | true =>
      exact Thread.all_atomic_bind (local_readFile hp) fun _ _ =>
        Thread.all_bind (fun _ => Thread.all_pure _) (allLocal_insertThread _)
  split_ifs
  · trivial
  · exact Thread.all_atomic_bind local_copyIDs fun _ _ => trivial
  · exact Thread.all_atomic_bind (local_isRegularFile hp) fun regular _ => hrest regular
  · exact hrest false

theorem allLocal_removeThread : AllLocal h.basePath cwd B r.entity
    (removeThread (realFileSystem cwd) res (parsedObject h.basePath r)) := by
  have hp : LeadsInto h.basePath cwd B r.entity (parsedObject h.basePath r).fullPath := leadsInto_parsed
  unfold removeThread
  rw [entity_parsedObject]
  refine Thread.all_atomic_bind (local_exists hp) fun there _ => ?_
  cases there with
  | false => trivial
  | true =>
    refine Thread.all_atomic_bind (local_isRegularFile hp) fun regular hgives => ?_
    cases regular with
    | false => trivial
    | true =>
      -- a regular file is an object
      obtain ⟨k, hk⟩ : ∃ k : ObjectId, r.id = some k := by
        rw [← Option.ne_none_iff_exists']
        intro hnone
        obtain ⟨w, w', hw, hrun⟩ := hgives
        rw [run_isRegularFile] at hrun
        have hfile : isFileAt cwd w.disk (parsedObject h.basePath r).fullPath = true :=
          (EStateM.Result.ok.inj hrun).1
        simp only [parsedObject, hnone] at hfile
        rw [isFileAt_of_locate (hw.locate_entity r.isName), hw.entity] at hfile
        cases hfile
      have hpath : (parsedObject h.basePath r).fullPath = objectPath h.basePath r.entity k.number := by
        simp only [parsedObject, hk]
      refine Thread.all_atomic_bind ?_ fun _ _ =>
        Thread.all_bind (fun _ => Thread.all_pure _) (allLocal_eraseThread _)
      rw [hpath]
      exact local_remove r.isName k.number

variable (hb : TakesNames h.basePath)
include hb

theorem allLocal_createThread : AllLocal h.basePath cwd B r.entity
    (createThread h (realFileSystem cwd) (inPieces cwd) req res (parsedObject h.basePath r)) := by
  unfold createThread
  rw [entity_parsedObject]
  cases hid : r.id with
  | some k =>
    have hup : (parsedObject h.basePath r).fullPath.parentPath.same h.basePath = false := by
      simp only [parsedObject, hid]
      rw [(named_object hb r.isName k.number).2, not_same_entity hb r.isName]
    rw [hup]
    trivial
  | none =>
    have hpath : (parsedObject h.basePath r).fullPath = entityPath h.basePath r.entity := by
      simp only [parsedObject, hid]
    rw [hpath, (named_entity hb r.isName).2.2]
    have hrest : AllLocal h.basePath cwd B r.entity (do
        let id ← nextIdThread r.entity
        let _ ← inPieces cwd ((entityPath h.basePath r.entity).append (intToString id)) req.body
        pure (true, setCreated res id)) := by
      refine Thread.all_bind (fun id => ?_) allLocal_nextIdThread
      refine Thread.all_bind (fun _ => Thread.all_pure _) ?_
      rw [append_entity hb r.isName]
      exact allLocal_inPieces r.isName id req.body
    refine Thread.all_atomic_bind (local_exists (leadsInto_entity r.isName)) fun there _ => ?_
    cases there with
    | true => exact hrest
    | false =>
      exact Thread.all_atomic_bind (local_createDirectory r.isName) fun _ _ =>
        Thread.all_atomic_bind (local_insertPair _) fun _ _ => hrest

theorem allLocal_updateThread : AllLocal h.basePath cwd B r.entity
    (updateThread h (realFileSystem cwd) (inPieces cwd) req res (parsedObject h.basePath r)) := by
  unfold updateThread
  rw [entity_parsedObject]
  cases hid : r.id with
  | none =>
    have hpath : (parsedObject h.basePath r).fullPath = entityPath h.basePath r.entity := by
      simp only [parsedObject, hid]
    rw [hpath, if_pos (Or.inr (by rw [not_same_base hb r.isName]; rfl))]
    trivial
  | some k =>
    have hpath : (parsedObject h.basePath r).fullPath = objectPath h.basePath r.entity k.number := by
      simp only [parsedObject, hid]
    rw [hpath, (named_object hb r.isName k.number).2]
    split_ifs
    · trivial
    · have hrest : AllLocal h.basePath cwd B r.entity (do
          let _ ← inPieces cwd (objectPath h.basePath r.entity k.number) req.body
          insertThread r.entity (parsedObject h.basePath r).id
          pure (true, setOk res)) :=
        Thread.all_bind (fun _ => Thread.all_bind (fun _ => Thread.all_pure _) (allLocal_insertThread _))
          (allLocal_inPieces r.isName k.number req.body)
      refine Thread.all_atomic_bind (local_exists (leadsInto_entity r.isName)) fun there _ => ?_
      cases there with
      | true => exact hrest
      | false =>
        exact Thread.all_atomic_bind (local_createDirectory r.isName) fun _ _ => hrest

/-- **A request keeps to its entity.** -/
theorem allLocal_responseThread (hp : h.prefixLength = loc.length) : AllLocal h.basePath cwd B r.entity
    (responseThread h (realFileSystem cwd) (inPieces cwd) (r.toRequest loc) res) := by
  unfold responseThread
  rw [parseUrlTarget_toRequest hp]
  simp only [parsedObject_ok, Bool.not_true, Bool.false_eq_true, if_false]
  unfold serveThread
  cases (r.toRequest loc).method with
  | post => exact allLocal_createThread hb
  | get => exact allLocal_retrieveThread
  | put => exact allLocal_updateThread hb
  | delete => exact allLocal_removeThread
  | _ => trivial

end Request

/-! ### Requests for different entities -/

section Pool
variable {ι : Type} {h : RequestHandlerAPI} {cwd B : Loc Str} {loc : Str} {w : World Tree} {s : Store}

/-- The requests as threads, with the responses they are to fill in. -/
def requestPool (h : RequestHandlerAPI) (cwd : Loc Str) (writing : Writing Tree) (loc : Str)
    (w : World Tree) (rs : ι → ObjectRequest × Response) :
    Config Fault (World Tree) (Bool × Response) ι :=
  ⟨w, fun i => responseThread h (realFileSystem cwd) writing ((rs i).1.toRequest loc) (rs i).2⟩

theorem serial_requestPool (rs : ι → ObjectRequest × Response) (order : List ι) :
    serial (requestPool h cwd (inPieces cwd) loc w rs).threads order =
      runAll (fun i => serveObject h cwd loc (rs i)) order := by
  unfold serial requestPool serveObject
  simp only [alone_responseThread (alone_inPieces cwd)]

theorem based_of_onDisk {base : Path} {t : Tree} (hd : OnDisk base cwd B t s) (ho : OnlyObjects B t) :
    Based base cwd B t where
  base := hd.base
  dir := hd.dir
  entity e := by
    unfold FileTree.isFile
    rw [hd.entity]
    cases s.made e <;> rfl
  object e x := by
    unfold FileTree.isDir
    by_cases hn : t.node (B ++ [e] ++ [x]) = none
    · rw [hn]
    · obtain ⟨k, rfl⟩ := ho e x hn
      rw [hd.object e k.number k.pos k.le]
      cases s.content e k.number <;> rfl

/-- In an empty directory there is nothing but objects. -/
theorem onlyObjects_of_fresh {base : Path} {w : World Tree} (h : Fresh base cwd B w) :
    OnlyObjects B w.disk := by
  intro e x hne
  rw [List.append_assoc] at hne
  exact absurd (h.empty e [x]) hne

/-- The request can be served: an entity that is made has its key, and a `POST` finds a number. -/
structure Ready (s : Store) (m : EntityIdMap) (r : ObjectRequest) : Prop where
  key : s.made r.entity = true → m.lookup r.entity ≠ none
  room : r.method = .post → r.id = none → HasRoom m r.entity

theorem Ready.of_alike {s' : Store} {m m' : EntityIdMap} {r : ObjectRequest} (h : Ready s m r)
    (ha : Alike s m r.entity s' m' r.entity) : Ready s' m' r := by
  refine ⟨fun hm => ?_, fun hm hid => ?_⟩
  · rw [ha.lookup]
    exact h.key (by rw [← ha.made]; exact hm)
  · unfold HasRoom
    rw [ha.lookup]
    exact h.room hm hid

/-- Requests for different entities can be served one after the other. -/
theorem exists_serial (hp : h.prefixLength = loc.length) (hb : TakesNames h.basePath)
    {rs : ι → ObjectRequest × Response} (hne : Function.Injective fun i => (rs i).1.entity) :
    ∀ {order : List ι} {w : World Tree} {s : Store}, order.Nodup →
      OnDisk h.basePath cwd B w.disk s → (∀ i ∈ order, Ready s w.entityIdMap (rs i).1) →
      ∃ os w', (runAll (fun i => serveObject h cwd loc (rs i)) order).run w = .ok os w'
  | [], w, _, _, _, _ => ⟨[], w, rfl⟩
  | i :: order, w, s, hn, hd, hready => by
    obtain ⟨hi, hn⟩ := List.nodup_cons.mp hn
    have hri := hready i List.mem_cons_self
    obtain ⟨⟨o, s', m'⟩, hr⟩ := @exists_respond s w.entityIdMap (rs i).1 (rs i).2 hri.key hri.room
    obtain ⟨t, hrun, hd', -⟩ := run_respond hp hb hd hr
    obtain ⟨os, w', hrest⟩ := exists_serial hp hb hne (w := ⟨t, m'⟩) hn hd' fun j hj =>
      (hready j (List.mem_cons_of_mem i hj)).of_alike
        (alike_of_change (change_respond hr) (hne.ne (ne_of_mem_of_not_mem hj hi)))
    exact ⟨o :: os, w', runAll_cons hrun hrest⟩

/-- **Requests for different entities are serializable.** Whatever the schedule of their steps, no
request fails, and once all are answered the answers, the files and the map are those of the requests
taken one after the other, in any order. -/
theorem requests_serializable [Fintype ι] [DecidableEq ι] (hp : h.prefixLength = loc.length)
    (hb : TakesNames h.basePath) (hd : OnDisk h.basePath cwd B w.disk s) (ho : OnlyObjects B w.disk)
    {rs : ι → ObjectRequest × Response} (hne : Function.Injective fun i => (rs i).1.entity)
    (hready : ∀ i, Ready s w.entityIdMap (rs i).1) :
    ∃ (answers : ι → Bool × Response) (w' : World Tree),
      (∀ order : List ι, order.Nodup → (∀ i, i ∈ order) →
        (runAll (fun i => serveObject h cwd loc (rs i)) order).run w = .ok (order.map answers) w') ∧
      ∀ schedule,
        (∀ i e, ((requestPool h cwd (inPieces cwd) loc w rs).run schedule).threads i ≠ .fail e) ∧
        (∃ further, ∀ i, ∃ a,
          ((requestPool h cwd (inPieces cwd) loc w rs).run (schedule ++ further)).threads i = .done a) ∧
        ∀ a, (∀ i, ((requestPool h cwd (inPieces cwd) loc w rs).run schedule).threads i = .done (a i)) →
          a = answers ∧ ((requestPool h cwd (inPieces cwd) loc w rs).run schedule).state = w' := by
  have hind : Independent (fun w => Based h.basePath cwd B w.disk)
      (requestPool h cwd (inPieces cwd) loc w rs).threads :=
    independent_of_local (cells_sameEntity B) (fun i j hij => hne (Option.some.inj hij)) fun i =>
      allLocal_responseThread hb hp
  have hser : ∀ order : List ι, order.Nodup → (∀ i, i ∈ order) →
      ∃ os u, (serial (requestPool h cwd (inPieces cwd) loc w rs).threads order).run w = .ok os u := by
    intro order hn _
    rw [serial_requestPool]
    exact exists_serial hp hb hne hn hd fun i _ => hready i
  obtain ⟨answers, w', h1, h2⟩ := one_outcome (c := requestPool h cwd (inPieces cwd) loc w rs)
    (based_of_onDisk hd ho) hind hser
  exact ⟨answers, w', fun order hn hc => serial_requestPool (h := h) rs order ▸ h1 order hn hc, h2⟩

end Pool

/-- A shoe is stored under a number, and a hat under the next free one. -/
def shoeAndHat : Bool → ObjectRequest × Response
  | true => (⟨.put, "shoes".toList, isName_shoes, some ⟨1, ObjectId.pos_one, ObjectId.one_le⟩, false, 11,
      [], "red".toList⟩, {})
  | false => (⟨.post, "hats".toList, isName_hats, none, false, 11, [], "felt".toList⟩, {})

theorem requests_serializable_shoeAndHat : ∃ (answers : Bool → Bool × Response) (w' : World Tree)
    (schedule : List Bool),
    (∀ i, ((requestPool ⟨⟨"data".toList⟩, 4⟩ [] (inPieces []) "/api".toList ⟨withDir "data".toList, ∅⟩
      shoeAndHat).run schedule).threads i = .done (answers i)) ∧
    ((requestPool ⟨⟨"data".toList⟩, 4⟩ [] (inPieces []) "/api".toList ⟨withDir "data".toList, ∅⟩
      shoeAndHat).run schedule).state = w' := by
  have hfresh : Fresh ⟨"data".toList⟩ [] ["data".toList] ⟨withDir "data".toList, ∅⟩ :=
    fresh_withDir (by decide) (by decide) (by decide)
  have hnamed : Named (⟨"data".toList⟩ : Boost.Paths.Path) := ⟨by decide, by decide⟩
  have hnames : "shoes".toList ≠ "hats".toList := by decide
  obtain ⟨answers, w', -, hall⟩ := @requests_serializable Bool ⟨⟨"data".toList⟩, 4⟩ [] ["data".toList]
    "/api".toList _ _ _ _ rfl hnamed.takesNames hfresh.holds.disk (onlyObjects_of_fresh hfresh) shoeAndHat
    (by
      intro i j hij
      cases i <;> cases j
      · rfl
      · exact absurd hij.symm hnames
      · exact absurd hij hnames
      · rfl)
    fun i => ⟨fun hm => absurd hm (by simp [Store.empty]), fun _ _ hn => by
      rw [nextFree_eq_none] at hn
      exact absurd (hn 1 le_rfl (by decide)) (by simp)⟩
  obtain ⟨schedule, hdone⟩ := (hall []).2.1
  choose a ha using hdone
  obtain ⟨rfl, hw⟩ := (hall schedule).2.2 a ha
  exact ⟨a, w', schedule, ha, hw⟩

end Kachow.Api.Serializable
