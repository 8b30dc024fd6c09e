import Mathlib

/-! # A tree of files

A place in the tree is the list of names on the way from the root (`Loc`). A path is a list of steps:
stay, go up, or enter a name. Read as text alone a path leads to `resolve`; in a tree it is walked
(`locate`), and every directory on the way has to be there. If the walk succeeds it ends where the
text says (`locate_eq_resolve`), and it still does in any tree that has at least the directories of
the first (`locate_mono`).

A `FileTree` carries its own well-formedness: the root is a directory, and what has a place in the
tree lies in a directory. The calls of a POSIX file system (`mkdir`, `write`, `read`, `unlink`) work
on places. -/

namespace Kachow.Lib.Files

/-- A place: the names on the way from the root. -/
abbrev Loc (ν : Type*) := List ν

/-- One step of a path. -/
inductive Comp (ν : Type*) where
  | here
  | up
  | name (x : ν)
  deriving DecidableEq, Repr

/-- What is at a place. -/
inductive Node (β : Type*) where
  | dir
  | file (content : β)
  deriving DecidableEq, Repr

section Lexical

variable {ν : Type*}

/-- Where a step leads, by its text. Above the root there is only the root. -/
def Comp.apply (d : Loc ν) : Comp ν → Loc ν
  | .here => d
  | .up => d.dropLast
  | .name x => d ++ [x]

/-- Where a path leads, by its text. -/
def resolve (d : Loc ν) (cs : List (Comp ν)) : Loc ν := cs.foldl Comp.apply d

@[simp] theorem resolve_nil (d : Loc ν) : resolve d [] = d := rfl

@[simp] theorem resolve_cons (d : Loc ν) (c : Comp ν) (cs : List (Comp ν)) :
    resolve d (c :: cs) = resolve (c.apply d) cs := rfl

theorem resolve_append (d : Loc ν) (cs cs' : List (Comp ν)) :
    resolve d (cs ++ cs') = resolve (resolve d cs) cs' := List.foldl_append

theorem resolve_concat (d : Loc ν) (cs : List (Comp ν)) (c : Comp ν) :
    resolve d (cs ++ [c]) = c.apply (resolve d cs) := by rw [resolve_append]; rfl

/-- One more step, for a path that climbs `k` levels above its start and enters the names `xs` there. -/
def climbStep : ℕ × List ν → Comp ν → ℕ × List ν
  | (k, xs), .here => (k, xs)
  | (k, xs), .up => if xs = [] then (k + 1, []) else (k, xs.dropLast)
  | (k, xs), .name x => (k, xs ++ [x])

/-- A path without its detours: how far it climbs above its start, and the names it enters there. -/
def climb (cs : List (Comp ν)) : ℕ × List ν := cs.foldl climbStep (0, [])

theorem climb_concat (cs : List (Comp ν)) (c : Comp ν) :
    climb (cs ++ [c]) = climbStep (climb cs) c := by
  unfold climb
  rw [List.foldl_append]
  rfl

/-- **Where a path leads without its detours.** -/
theorem resolve_climb (d : Loc ν) (cs : List (Comp ν)) :
    resolve d cs = d.take (d.length - (climb cs).1) ++ (climb cs).2 := by
  induction cs using List.reverseRecOn with
  | nil => simp [climb]
  | append_singleton cs c ih =>
    rw [resolve_concat, climb_concat, ih]
    generalize climb cs = kx
    obtain ⟨k, xs⟩ := kx
    cases c with
    | here => rfl
    | name x => simp [Comp.apply, climbStep]
    | up =>
      simp only [Comp.apply, climbStep]
      by_cases hxs : xs = []
      · subst hxs
        simp only [List.append_nil, if_true]
        rw [List.dropLast_eq_take, List.take_take, List.length_take]
        congr 1
        omega
      · simp only [if_neg hxs]
        exact List.dropLast_append_of_ne_nil hxs

/-- A path does not leave its start: it climbs no higher, or comes back by the names it climbed over. -/
def StaysBelow (d : Loc ν) (cs : List (Comp ν)) : Prop :=
  d.drop (d.length - (climb cs).1) <+: (climb cs).2

instance [DecidableEq ν] (d : Loc ν) (cs : List (Comp ν)) : Decidable (StaysBelow d cs) := by
  unfold StaysBelow; infer_instance

/-- It ends further down: it enters more names than it climbed over. -/
def EndsBelow (d : Loc ν) (cs : List (Comp ν)) : Prop :=
  StaysBelow d cs ∧ min d.length (climb cs).1 < (climb cs).2.length

instance [DecidableEq ν] (d : Loc ν) (cs : List (Comp ν)) : Decidable (EndsBelow d cs) := by
  unfold EndsBelow; infer_instance

/-- `l` lies under `d`. -/
def Under (d l : Loc ν) : Prop := ∃ x r, l = d ++ x :: r

theorem under_iff {d l : Loc ν} : Under d l ↔ d <+: l ∧ d.length < l.length := by
  constructor
  · rintro ⟨x, r, rfl⟩
    exact ⟨List.prefix_append _ _, by simp⟩
  · rintro ⟨⟨r, rfl⟩, hlt⟩
    cases r with
    | nil => simp at hlt
    | cons x r => exact ⟨x, r, rfl⟩

/-- The place lies in a directory that has `R`. -/
def LiesIn (R : Loc ν → Prop) (l : Loc ν) : Prop := ∃ m x, l = m ++ [x] ∧ R m

theorem liesIn_concat {R : Loc ν → Prop} {l : Loc ν} {x : ν} : LiesIn R (l ++ [x]) ↔ R l := by
  constructor
  · rintro ⟨m, y, h, hm⟩
    rwa [List.append_inj_left' h rfl]
  · exact fun h => ⟨l, x, rfl, h⟩

/-- A place lies under `d` if the directory it lies in is `d` or lies under it. -/
theorem liesIn_isPrefix {d l : Loc ν} : LiesIn (d <+: ·) l ↔ Under d l := by
  constructor
  · rintro ⟨m, x, rfl, r, rfl⟩
    cases r with
    | nil => exact ⟨x, [], by simp⟩
    | cons y r => exact ⟨y, r ++ [x], by simp⟩
  · rintro ⟨x, r, rfl⟩
    rcases List.eq_nil_or_concat r with rfl | ⟨r, z, rfl⟩
    · exact ⟨d, x, rfl, List.prefix_rfl⟩
    · exact ⟨d ++ x :: r, z, by simp, List.prefix_append _ _⟩

theorem append_of_climb (d : Loc ν) (cs : List (Comp ν)) (r : List ν) :
    resolve d cs = d ++ r ↔ (climb cs).2 = d.drop (d.length - (climb cs).1) ++ r := by
  have hd := List.take_append_drop (d.length - (climb cs).1) d
  rw [resolve_climb]
  constructor
  · intro h
    have hcancel : d.take (d.length - (climb cs).1) ++ (climb cs).2 =
        d.take (d.length - (climb cs).1) ++ (d.drop (d.length - (climb cs).1) ++ r) := by
      rw [h, ← List.append_assoc, hd]
    exact List.append_cancel_left hcancel
  · intro h
    rw [h, ← List.append_assoc, hd]

/-- The names a path enters from its start on, once it is back there. -/
def beyond (d : Loc ν) (cs : List (Comp ν)) : List ν :=
  (climb cs).2.drop (min d.length (climb cs).1)

theorem resolve_eq_append_iff (d : Loc ν) (cs : List (Comp ν)) (r : List ν) :
    resolve d cs = d ++ r ↔ StaysBelow d cs ∧ beyond d cs = r := by
  have hlen : (d.drop (d.length - (climb cs).1)).length = min d.length (climb cs).1 := by
    rw [List.length_drop]
    omega
  rw [append_of_climb]
  unfold StaysBelow beyond
  rw [← hlen]
  constructor
  · intro h
    rw [h]
    exact ⟨List.prefix_append _ _, List.drop_left⟩
  · rintro ⟨⟨r', hr'⟩, rfl⟩
    rw [← hr', List.drop_left]

/-- **It leads to its start or further down** if and only if it does not leave it. -/
theorem isPrefix_resolve_iff (d : Loc ν) (cs : List (Comp ν)) :
    d <+: resolve d cs ↔ StaysBelow d cs := by
  constructor
  · rintro ⟨r, hr⟩
    exact ⟨r, ((append_of_climb d cs r).mp hr.symm).symm⟩
  · rintro ⟨r, hr⟩
    exact ⟨r, ((append_of_climb d cs r).mpr hr.symm).symm⟩

theorem under_resolve_iff (d : Loc ν) (cs : List (Comp ν)) :
    Under d (resolve d cs) ↔ EndsBelow d cs := by
  rw [under_iff, isPrefix_resolve_iff]
  refine and_congr_right fun _ => ?_
  rw [resolve_climb, List.length_append, List.length_take]
  omega

end Lexical

/-- A tree of files with contents in `β` and names in `ν`. -/
structure FileTree (ν β : Type*) [DecidableEq ν] where
  nodes : Finmap fun _ : Loc ν => Node β
  root : nodes.lookup [] = some .dir
  closed : ∀ l x, l ++ [x] ∈ nodes → nodes.lookup l = some .dir

namespace FileTree

variable {ν β : Type*} [DecidableEq ν] (t : FileTree ν β)

/-- What is at `l`, if anything. -/
def node (l : Loc ν) : Option (Node β) := t.nodes.lookup l

/-- `l` is a directory. -/
def isDir (l : Loc ν) : Bool :=
  match t.node l with
  | some .dir => true
  | _ => false

/-- `l` is a regular file. -/
def isFile (l : Loc ν) : Bool :=
  match t.node l with
  | some (.file _) => true
  | _ => false

variable {t}

theorem isDir_iff {l : Loc ν} : t.isDir l = true ↔ t.node l = some .dir := by
  unfold isDir; split <;> simp_all

theorem isFile_iff {l : Loc ν} : t.isFile l = true ↔ ∃ b, t.node l = some (.file b) := by
  unfold isFile; split <;> simp_all

theorem node_congr {t t' : FileTree ν β} {l : Loc ν} (h : t.node l = t'.node l) :
    t.isDir l = t'.isDir l ∧ t.isFile l = t'.isFile l := by
  unfold isDir isFile; rw [h]; exact ⟨rfl, rfl⟩

@[simp] theorem isDir_root : t.isDir [] = true := isDir_iff.mpr t.root

/-- What is there lies in a directory. -/
theorem isDir_of_node {l : Loc ν} {x : ν} (h : t.node (l ++ [x]) ≠ none) : t.isDir l = true := by
  refine isDir_iff.mpr (t.closed l x ?_)
  rw [← Finmap.lookup_isSome]
  exact Option.isSome_iff_ne_none.mpr h

/-- Nothing lies under a place that is no directory. -/
theorem node_eq_none_of_not_isDir {l : Loc ν} (h : t.isDir l = false) (x : ν) :
    t.node (l ++ [x]) = none := by
  by_contra hn
  rw [isDir_of_node hn] at h
  exact absurd h (by simp)

/-! ### Walking -/

variable (t)

/-- Where the path leads from `d`; every directory on the way has to be there. -/
def locate (d : Loc ν) : List (Comp ν) → Option (Loc ν)
  | [] => some d
  | c :: cs => if t.isDir d then locate (c.apply d) cs else none

variable {t}

@[simp] theorem locate_nil (d : Loc ν) : t.locate d [] = some d := rfl

theorem locate_append (d : Loc ν) (cs cs' : List (Comp ν)) :
    t.locate d (cs ++ cs') = (t.locate d cs).bind (t.locate · cs') := by
  induction cs generalizing d with
  | nil => rfl
  | cons c cs ih =>
    simp only [List.cons_append, locate]
    split_ifs
    · exact ih _
    · rfl

/-- **A walk ends where the text of the path says.** -/
theorem locate_eq_resolve {d l : Loc ν} : ∀ {cs : List (Comp ν)}, t.locate d cs = some l →
    l = resolve d cs := by
  intro cs h
  induction cs generalizing d with
  | nil => exact (Option.some.inj h).symm
  | cons c cs ih =>
    simp only [locate] at h
    split_ifs at h
    exact ih h

/-- **A walk stays possible** if no directory disappears. -/
theorem locate_mono {t' : FileTree ν β} (hd : ∀ l, t.isDir l = true → t'.isDir l = true)
    {d l : Loc ν} {cs : List (Comp ν)} (h : t.locate d cs = some l) : t'.locate d cs = some l := by
  induction cs generalizing d with
  | nil => exact h
  | cons c cs ih =>
    simp only [locate] at h ⊢
    split_ifs at h with hdir
    rw [if_pos (hd _ hdir)]
    exact ih h

/-- A walk to a place where nothing is has its directory. -/
theorem isDir_dropLast_of_locate {d l : Loc ν} {cs : List (Comp ν)} (hd : cs = [] → t.node d ≠ none)
    (h : t.locate d cs = some l) (hn : t.node l = none) : l ≠ [] ∧ t.isDir l.dropLast = true := by
  have hne : l ≠ [] := by
    rintro rfl
    have hroot := isDir_iff.mp (isDir_root (t := t))
    rw [hn] at hroot
    exact absurd hroot (by simp)
  refine ⟨hne, ?_⟩
  induction cs using List.reverseRecOn generalizing l with
  | nil =>
    obtain rfl := Option.some.inj h
    exact absurd hn (hd rfl)
  | append_singleton cs c _ =>
    rw [locate_append, Option.bind_eq_some_iff] at h
    obtain ⟨m, -, hm⟩ := h
    simp only [locate] at hm
    split_ifs at hm with hdir
    obtain rfl := Option.some.inj hm
    -- the last step started in a directory
    cases c with
    | name x => rwa [Comp.apply, List.dropLast_concat]
    | here =>
      rw [Comp.apply, isDir_iff.mp hdir] at hn
      exact absurd hn (by simp)
    | up =>
      obtain ⟨e, x, rfl⟩ := List.eq_nil_or_concat m |>.resolve_left (by rintro rfl; exact hne rfl)
      rw [List.concat_eq_append] at hdir hn
      rw [Comp.apply, List.dropLast_concat] at hn
      have hup := isDir_of_node (l := e) (x := x) (by rw [isDir_iff.mp hdir]; simp)
      rw [isDir_iff.mp hup] at hn
      exact absurd hn (by simp)

/-- Nothing lies under a place where nothing is. -/
theorem node_append_eq_none {l : Loc ν} (h : t.node l = none) : ∀ r : List ν, t.node (l ++ r) = none := by
  intro r
  induction r using List.reverseRecOn with
  | nil => simpa using h
  | append_singleton r x ih =>
    rw [← List.append_assoc]
    refine node_eq_none_of_not_isDir ?_ x
    unfold isDir
    rw [ih]

/-! ### Changing the tree -/

variable (t)

/-- `l` can be made or overwritten: it lies in a directory and is none itself. -/
def CanPut (l : Loc ν) : Prop := l ≠ [] ∧ t.isDir l.dropLast = true ∧ t.isDir l = false

instance (l : Loc ν) : Decidable (t.CanPut l) := by unfold CanPut; infer_instance

/-- The tree with `n` at `l`. -/
def put (l : Loc ν) (n : Node β) (h : t.CanPut l) : FileTree ν β where
  nodes := t.nodes.insert l n
  root := by rw [Finmap.lookup_insert_of_ne _ (Ne.symm h.1)]; exact t.root
  closed := by
    intro l' x hm
    rcases Finmap.mem_insert.mp hm with hl | hm
    · have hdir : t.isDir l' = true := by simpa [← hl] using h.2.1
      have hne : l' ≠ l := by rw [← hl]; simp
      rw [Finmap.lookup_insert_of_ne _ hne]
      exact isDir_iff.mp hdir
    · have hdir := t.closed l' x hm
      have hne : l' ≠ l := by
        rintro rfl
        have hnd := h.2.2
        rw [isDir_iff.mpr hdir] at hnd
        exact absurd hnd (by simp)
      rw [Finmap.lookup_insert_of_ne _ hne]
      exact hdir

/-- Something lies directly under `l`. -/
def HasChild (l : Loc ν) : Prop := ∃ k ∈ t.nodes.keys, k ≠ [] ∧ k.dropLast = l

instance (l : Loc ν) : Decidable (t.HasChild l) := by unfold HasChild; infer_instance

/-- The tree without `l`, under which there is nothing. -/
def erase (l : Loc ν) (h : l ≠ [] ∧ ¬ t.HasChild l) : FileTree ν β where
  nodes := t.nodes.erase l
  root := by rw [Finmap.lookup_erase_ne (Ne.symm h.1)]; exact t.root
  closed := by
    intro l' x hm
    have hm' : l' ++ [x] ∈ t.nodes := (Finmap.mem_erase.mp hm).2
    have hne : l' ≠ l := by
      rintro rfl
      exact h.2 ⟨l' ++ [x], Finmap.mem_keys.mpr hm', by simp, by simp⟩
    rw [Finmap.lookup_erase_ne hne]
    exact t.closed l' x hm'

variable {t}

theorem node_put {l : Loc ν} {n : Node β} {h : t.CanPut l} (l' : Loc ν) :
    (t.put l n h).node l' = if l' = l then some n else t.node l' := by
  unfold node put
  split_ifs with hl
  · rw [hl, Finmap.lookup_insert]
  · rw [Finmap.lookup_insert_of_ne _ hl]

theorem node_erase {l : Loc ν} {h : l ≠ [] ∧ ¬ t.HasChild l} (l' : Loc ν) :
    (t.erase l h).node l' = if l' = l then none else t.node l' := by
  unfold node erase
  split_ifs with hl
  · rw [hl, Finmap.lookup_erase]
  · rw [Finmap.lookup_erase_ne hl]

theorem not_hasChild {l : Loc ν} (h : t.isDir l = false) : ¬ t.HasChild l := by
  rintro ⟨k, hk, hne, rfl⟩
  obtain ⟨d, x, rfl⟩ := List.eq_nil_or_concat k |>.resolve_left hne
  rw [List.concat_eq_append, List.dropLast_concat] at h
  rw [List.concat_eq_append] at hk
  have hn : t.node (d ++ [x]) ≠ none :=
    Option.isSome_iff_ne_none.mp (Finmap.lookup_isSome.mpr (Finmap.mem_keys.mp hk))
  rw [isDir_of_node hn] at h
  exact absurd h (by simp)

/-! ### The calls of the file system -/

variable (t)

/-- `mkdir`: `false` if the directory is there, a failure if something else is or its parent is no
directory. -/
def mkdir (l : Loc ν) : Option (Bool × FileTree ν β) :=
  if t.isDir l then some (false, t)
  else if t.isFile l then none
  else if h : t.CanPut l then some (true, t.put l .dir h)
  else none

/-- Opening `l` for writing and writing `b`: nothing happens if `l` cannot be opened. -/
def write (l : Loc ν) (b : β) : FileTree ν β :=
  if h : t.CanPut l then t.put l (.file b) h else t

/-- The contents of `l`, if it is a file. -/
def read (l : Loc ν) : Option β :=
  match t.node l with
  | some (.file b) => some b
  | _ => none

/-- Removing a file or an empty directory: `false` if there is nothing, a failure if the directory is
not empty. -/
def unlink (l : Loc ν) : Option (Bool × FileTree ν β) :=
  if t.node l = none then some (false, t)
  else if h : l ≠ [] ∧ ¬ t.HasChild l then some (true, t.erase l h)
  else none

variable {t}

theorem mkdir_of_canPut {l : Loc ν} (h : t.CanPut l) (hn : t.node l = none) :
    t.mkdir l = some (true, t.put l .dir h) := by
  have hf : t.isFile l = false := by unfold isFile; rw [hn]
  simp [mkdir, h.2.2, hf, h]

theorem write_of_canPut {l : Loc ν} (h : t.CanPut l) (b : β) :
    t.write l b = t.put l (.file b) h := by unfold write; rw [dif_pos h]

/-- Writing changes at most the place that is written. -/
theorem node_write (l : Loc ν) (b : β) (l' : Loc ν) :
    (t.write l b).node l' = if l' = l ∧ t.CanPut l then some (.file b) else t.node l' := by
  by_cases h : t.CanPut l
  · rw [write_of_canPut h, node_put]
    simp [h]
  · unfold write
    rw [dif_neg h, if_neg fun hl => h hl.2]

/-- Writing neither makes nor removes a directory. -/
theorem isDir_write (l : Loc ν) (b : β) (l' : Loc ν) : (t.write l b).isDir l' = t.isDir l' := by
  by_cases h : l' = l ∧ t.CanPut l
  · have hn : (t.write l b).node l' = some (.file b) := by rw [node_write, if_pos h]
    have h1 : (t.write l b).isDir l' = false := by unfold isDir; rw [hn]
    rw [h1, h.1, h.2.2.2]
  · exact (node_congr (by rw [node_write, if_neg h])).1

/-- Trees with the same nodes are the same. -/
theorem ext_node {t t' : FileTree ν β} (h : ∀ l, t.node l = t'.node l) : t = t' := by
  obtain ⟨nodes, hroot, hclosed⟩ := t
  obtain ⟨nodes', hroot', hclosed'⟩ := t'
  obtain rfl : nodes = nodes' := Finmap.ext_lookup h
  rfl

/-- What is written replaces what was written before. -/
theorem write_write (l : Loc ν) (a b : β) : (t.write l a).write l b = t.write l b := by
  have hput : (t.write l a).CanPut l ↔ t.CanPut l := by
    unfold CanPut
    rw [isDir_write, isDir_write]
  refine ext_node fun l' => ?_
  simp only [node_write, hput]
  split_ifs <;> rfl

/-- A directory that is made is the only change. -/
theorem node_mkdir {l : Loc ν} {b : Bool} {t' : FileTree ν β} (h : t.mkdir l = some (b, t'))
    (l' : Loc ν) : t'.node l' = if l' = l then some .dir else t.node l' := by
  unfold mkdir at h
  split_ifs at h with hd hf hp
  · obtain rfl := (Prod.mk.inj (Option.some.inj h)).2
    split_ifs with hl
    · rw [hl]; exact isDir_iff.mp hd
    · rfl
  · obtain rfl := (Prod.mk.inj (Option.some.inj h)).2
    exact node_put l'

/-- No file is in the way of a directory that is made. -/
theorem isFile_of_mkdir {l : Loc ν} {b : Bool × FileTree ν β} (h : t.mkdir l = some b) :
    t.isFile l = false := by
  unfold mkdir at h
  split_ifs at h with hd hf hp
  · unfold isFile
    rw [isDir_iff.mp hd]
  · simpa using hf

/-- Directories stay. -/
theorem isDir_mkdir {l : Loc ν} {b : Bool} {t' : FileTree ν β} (h : t.mkdir l = some (b, t'))
    {l' : Loc ν} (hd : t.isDir l' = true) : t'.isDir l' = true := by
  rw [isDir_iff, node_mkdir h]
  split_ifs
  · rfl
  · exact isDir_iff.mp hd

/-- A directory that is there stays as it is. -/
theorem mkdir_false {l : Loc ν} {t' : FileTree ν β} (h : t.mkdir l = some (false, t')) : t' = t := by
  unfold mkdir at h
  split_ifs at h
  · cases h
    rfl
  · cases h

/-- What is removed is gone; where nothing is removed all stays as it is. -/
theorem unlink_some {l : Loc ν} {b : Bool} {t' : FileTree ν β} (h : t.unlink l = some (b, t')) :
    (b = true → t'.node l = none) ∧ (b = false → t' = t) := by
  unfold unlink at h
  split_ifs at h with hn hl
  · obtain ⟨rfl, rfl⟩ := Prod.mk.inj (Option.some.inj h)
    exact ⟨fun hb => absurd hb (by simp), fun _ => rfl⟩
  · obtain ⟨rfl, rfl⟩ := Prod.mk.inj (Option.some.inj h)
    exact ⟨fun _ => by rw [node_erase, if_pos rfl], fun hb => absurd hb (by simp)⟩

theorem unlink_of_isFile {l : Loc ν} (h : t.isFile l = true) :
    ∃ hl, t.unlink l = some (true, t.erase l hl) := by
  obtain ⟨b, hb⟩ := isFile_iff.mp h
  have hd : t.isDir l = false := by unfold isDir; rw [hb]
  have hne : l ≠ [] := by rintro rfl; simp at hd
  have hl : l ≠ [] ∧ ¬ t.HasChild l := ⟨hne, not_hasChild hd⟩
  refine ⟨hl, ?_⟩
  unfold unlink
  rw [if_neg (by simp [hb]), dif_pos hl]

/-- Without a file the directories are the same. -/
theorem isDir_erase {l : Loc ν} {hl : l ≠ [] ∧ ¬ t.HasChild l} (h : t.isFile l = true)
    (l' : Loc ν) : (t.erase l hl).isDir l' = t.isDir l' := by
  by_cases e : l' = l
  · obtain ⟨b, hb⟩ := isFile_iff.mp h
    have h1 : (t.erase l hl).isDir l' = false := by unfold isDir; rw [node_erase, if_pos e]
    have h2 : t.isDir l' = false := by unfold isDir; rw [e, hb]
    rw [h1, h2]
  · exact (node_congr (by rw [node_erase, if_neg e])).1

/-- The tree with nothing but its root. -/
def empty : FileTree ν β where
  nodes := Finmap.singleton [] .dir
  root := Finmap.lookup_singleton_eq
  closed := by
    intro l x h
    rw [Finmap.mem_singleton] at h
    simp at h

theorem node_empty (l : Loc ν) : (empty : FileTree ν β).node l = if l = [] then some .dir else none := by
  unfold node empty
  split_ifs with h
  · rw [h]; exact Finmap.lookup_singleton_eq
  · rw [Finmap.lookup_eq_none, Finmap.mem_singleton]; exact h

end FileTree

end Kachow.Lib.Files
