import Kachow.Lib.Text
import Kachow.Lib.Files

/-! # Paths, as Boost.Filesystem 3 has them

A path is its path name. Appending (`append`) puts a separator between the two if there is none; it
never replaces the path, also not by an absolute one. Iterating over a path gives its `elements`: the
root name `//net` and the root directory `/`, if there are any, the names, and a dot for a trailing
separator. Paths are compared by their elements, and `parentPath` is the path without the last one
(`elements_parentPath`).

The operating system reads the same name as a list of steps (`comps`) from the root or from the
current directory. Where they lead by their text is `resolve`; it depends on the elements only
(`resolve_eq_place`). -/

namespace Kachow.Boost.Paths

open Kachow.Lib.Text Kachow.Lib.Files

/-- `boost::filesystem::path`. -/
structure Path where
  pathname : Str
  deriving DecidableEq, Repr

/-- `operator/=`. -/
def Path.append (p : Path) (s : Str) : Path :=
  if s = [] then p
  else if p.pathname = [] ∨ p.pathname.getLast? = some '/' ∨ s.head? = some '/' then
    ⟨p.pathname ++ s⟩
  else ⟨p.pathname ++ '/' :: s⟩

/-! ### Elements -/

/-- The characters up to the first `/` that is none, and the rest. -/
def spanSep (s : Str) : Str × Str := (s.takeWhile (· == '/'), s.dropWhile (· == '/'))

/-- The characters before the first `/`, and the rest. -/
def spanName (s : Str) : Str × Str := (s.takeWhile (· != '/'), s.dropWhile (· != '/'))

/-- The root of a path name: its text, its elements, and the rest of the path name. -/
structure RootSplit where
  text : Str
  elems : List Str
  rel : Str

/-- The root of a path name. Exactly two separators begin a root name. -/
def rootSplit (s : Str) : RootSplit :=
  let (r, t) := spanSep s
  if r = [] then ⟨[], [], t⟩
  else if r.length = 2 then
    let (name, after) := spanName t
    let (sep, rel) := spanSep after
    if sep = [] then ⟨r ++ name, [r ++ name], []⟩ else ⟨r ++ name ++ sep, [r ++ name, ['/']], rel⟩
  else ⟨r, [['/']], t⟩

/-- A trailing separator counts as a dot. -/
def trail (s : Str) : List Str := if s.getLast? = some '/' then [['.']] else []

/-- What iterating over the path gives. -/
def Path.elements (p : Path) : List Str :=
  let r := rootSplit p.pathname
  r.elems ++ (parts '/' r.rel ++ trail r.rel)

/-- `operator==`: paths are compared element by element. -/
def Path.same (p q : Path) : Bool := decide (p.elements = q.elements)

theorem same_iff {p q : Path} : p.same q = true ↔ p.elements = q.elements := decide_eq_true_iff

/-- Without the last name or trailing separators, and without the separators in front. -/
def upper (rel : Str) : Str := (rel.rdropWhile (· != '/')).rdropWhile (· == '/')

/-- `parent_path`. -/
def Path.parentPath (p : Path) : Path :=
  let r := rootSplit p.pathname
  if r.rel = [] then ⟨r.elems.dropLast.flatten⟩
  else if upper r.rel = [] then ⟨r.elems.flatten⟩
  else ⟨r.text ++ upper r.rel⟩

/-- `filename`. -/
def Path.filename (p : Path) : Str := p.elements.getLastD []

/-- `extension`. -/
def Path.extension (p : Path) : Str :=
  if p.filename = ['.'] ∨ p.filename = ['.', '.'] then []
  else
    match findLastOf '.' p.filename with
    | none => []
    | some pos => p.filename.drop pos

/-! ### Steps -/

/-- A name as a step: a dot and two dots are special. -/
def comp (s : Str) : Comp Str :=
  if s = ['.'] then .here else if s = ['.', '.'] then .up else .name s

/-- The steps the operating system takes. -/
def Path.comps (p : Path) : List (Comp Str) := (parts '/' p.pathname ++ trail p.pathname).map comp

/-- Where it starts. -/
def Path.start (cwd : Loc Str) (p : Path) : Loc Str :=
  if p.pathname.head? = some '/' then [] else cwd

/-- Where a path leads, by its text. -/
def Path.resolve (cwd : Loc Str) (p : Path) : Loc Str := Lib.Files.resolve (p.start cwd) p.comps

/-- Where a path leads in a tree. The empty path leads nowhere. -/
def Path.locate {β : Type} (t : FileTree Str β) (cwd : Loc Str) (p : Path) : Option (Loc Str) :=
  if p.pathname = [] then none else t.locate (p.start cwd) p.comps

/-- Where it leads if something new is to be made there: separators behind the last name are passed
over. -/
def Path.locateNew {β : Type} (t : FileTree Str β) (cwd : Loc Str) (p : Path) : Option (Loc Str) :=
  if p.pathname = [] then none else t.locate (p.start cwd) ((parts '/' p.pathname).map comp)

/-! ### The root of a path name -/

/-- A string has no separator in front. -/
def NoSep (s : Str) : Prop := s.head? ≠ some '/'

theorem spanSep_append {r t : Str} (hr : ∀ c ∈ r, c = '/') (ht : NoSep t) :
    spanSep (r ++ t) = (r, t) := by
  have hr' : ∀ c ∈ r, (c == '/') = true := fun c hc => by simp [hr c hc]
  have ht1 : t.takeWhile (· == '/') = [] ∧ t.dropWhile (· == '/') = t := by
    cases t with
    | nil => exact ⟨rfl, rfl⟩
    | cons c t =>
      have hc : c ≠ '/' := fun e => ht (by simp [e])
      simp [hc]
  unfold spanSep
  rw [List.takeWhile_append_of_pos hr', List.dropWhile_append_of_pos hr', ht1.1, ht1.2,
    List.append_nil]

theorem spanName_append {n t : Str} (hn : '/' ∉ n) (ht : t = [] ∨ t.head? = some '/') :
    spanName (n ++ t) = (n, t) := by
  have hn' : ∀ c ∈ n, (c != '/') = true := fun c hc => by
    simp only [bne_iff_ne]
    rintro rfl
    exact hn hc
  have ht1 : t.takeWhile (· != '/') = [] ∧ t.dropWhile (· != '/') = t := by
    rcases ht with rfl | ht
    · exact ⟨rfl, rfl⟩
    · cases t with
      | nil => exact ⟨rfl, rfl⟩
      | cons c t =>
        obtain rfl : c = '/' := by simpa using ht
        simp
  unfold spanName
  rw [List.takeWhile_append_of_pos hn', List.dropWhile_append_of_pos hn', ht1.1, ht1.2,
    List.append_nil]

theorem spanSep_spec (s : Str) : s = (spanSep s).1 ++ (spanSep s).2 ∧
    (∀ c ∈ (spanSep s).1, c = '/') ∧ NoSep (spanSep s).2 := by
  refine ⟨(List.takeWhile_append_dropWhile).symm, fun c hc => ?_, fun h => ?_⟩
  · simpa using List.mem_takeWhile_imp hc
  · have := List.head?_dropWhile_not (· == '/') s
    simp only [spanSep] at h
    rw [h] at this
    simp at this

theorem spanName_spec (s : Str) : s = (spanName s).1 ++ (spanName s).2 ∧
    '/' ∉ (spanName s).1 ∧ ((spanName s).2 = [] ∨ (spanName s).2.head? = some '/') := by
  refine ⟨(List.takeWhile_append_dropWhile).symm, fun hc => ?_, ?_⟩
  · simpa using List.mem_takeWhile_imp hc
  · have := List.head?_dropWhile_not (· != '/') s
    simp only [spanName]
    cases h : s.dropWhile (· != '/') with
    | nil => exact Or.inl rfl
    | cons c t =>
      rw [h] at this
      exact Or.inr (by simpa using this)

/-- The shapes a root has: its text and its elements. -/
inductive IsRoot : Str → List Str → Prop
  | none : IsRoot [] []
  | dir {r : Str} (hr : ∀ c ∈ r, c = '/') (hne : r ≠ []) (h2 : r.length ≠ 2) : IsRoot r [['/']]
  | net {name : Str} (hn : '/' ∉ name) : IsRoot ('/' :: '/' :: name) ['/' :: '/' :: name]
  | netDir {name sep : Str} (hn : '/' ∉ name) (hne : name ≠ []) (hs : ∀ c ∈ sep, c = '/')
      (hsne : sep ≠ []) : IsRoot ('/' :: '/' :: (name ++ sep)) ['/' :: '/' :: name, ['/']]

/-- A root after which names may follow. -/
def Open (es : List Str) : Prop := ∀ name, es ≠ ['/' :: '/' :: name]

theorem two_seps {r : Str} (hr : ∀ c ∈ r, c = '/') (h2 : r.length = 2) : r = ['/', '/'] := by
  match r, h2 with
  | [a, b], _ =>
    rw [hr a (by simp), hr b (by simp)]

theorem noSep_of_notMem {n : Str} (hn : '/' ∉ n) : NoSep n := by
  cases n with
  | nil => simp [NoSep]
  | cons c n =>
    intro h
    obtain rfl : c = '/' := by simpa using h
    exact hn (by simp)

theorem noSep_append {n s : Str} (hn : '/' ∉ n) (hne : n ≠ []) : NoSep (n ++ s) := by
  obtain ⟨c, n, rfl⟩ := List.exists_cons_of_ne_nil hne
  intro h
  obtain rfl : c = '/' := by simpa using h
  exact hn (by simp)

/-- **The root of a path name** is found by its shape. -/
theorem rootSplit_append {text rel : Str} {es : List Str} (h : IsRoot text es) (hrel : NoSep rel)
    (ho : rel ≠ [] → Open es) : rootSplit (text ++ rel) = ⟨text, es, rel⟩ := by
  cases h with
  | none =>
    have h1 : spanSep rel = ([], rel) := spanSep_append (r := []) (by simp) hrel
    simp [rootSplit, h1]
  | dir hr hne h2 =>
    have h1 := spanSep_append hr hrel
    simp [rootSplit, h1, hne, h2]
  | @net name hn =>
    obtain rfl : rel = [] := by
      by_contra hne
      exact ho hne name rfl
    have h1 : spanSep ('/' :: '/' :: name) = (['/', '/'], name) :=
      spanSep_append (r := ['/', '/']) (by simp) (noSep_of_notMem hn)
    have h2 : spanName (name ++ []) = (name, []) := spanName_append hn (Or.inl rfl)
    rw [List.append_nil] at h2
    have h3 : spanSep [] = ([], []) := rfl
    rw [List.append_nil]
    simp [rootSplit, h1, h2, h3]
  | @netDir name sep hn hne hs hsne =>
    have h1 : spanSep ('/' :: '/' :: (name ++ (sep ++ rel))) = (['/', '/'], name ++ (sep ++ rel)) :=
      spanSep_append (r := ['/', '/']) (by simp) (noSep_append hn hne)
    have h2 : spanName (name ++ (sep ++ rel)) = (name, sep ++ rel) := by
      refine spanName_append hn (Or.inr ?_)
      obtain ⟨c, n, rfl⟩ := List.exists_cons_of_ne_nil hsne
      simp [hs c (by simp)]
    have h3 := spanSep_append hs hrel
    simp [rootSplit, h1, h2, h3, hsne]

/-- Every path name is a root and the rest. -/
theorem exists_root (s : Str) : ∃ text es rel, s = text ++ rel ∧ IsRoot text es ∧ NoSep rel ∧
    (rel ≠ [] → Open es) := by
  obtain ⟨hs, hr, ht⟩ := spanSep_spec s
  by_cases h0 : (spanSep s).1 = []
  · rw [h0] at hs
    exact ⟨[], [], _, hs, .none, ht, fun _ name => by simp⟩
  · by_cases h2 : (spanSep s).1.length = 2
    · obtain ⟨hn1, hn2, hn3⟩ := spanName_spec (spanSep s).2
      obtain ⟨ha1, ha2, ha3⟩ := spanSep_spec (spanName (spanSep s).2).2
      rw [two_seps hr h2] at hs
      generalize (spanSep s).2 = t at *
      generalize (spanName t).1 = name at *
      rcases hn3 with hn3 | hn3
      · rw [hn3, List.append_nil] at hn1
        subst hn1
        exact ⟨_, _, [], by simpa using hs, .net hn2, by simp [NoSep], by simp⟩
      · generalize (spanName t).2 = after at *
        generalize (spanSep after).1 = sep at *
        generalize (spanSep after).2 = rel at *
        subst ha1 hn1
        have hname : name ≠ [] := by rintro rfl; exact ht hn3
        have hsep : sep ≠ [] := by rintro rfl; exact ha3 hn3
        exact ⟨_, _, rel, by simpa using hs, .netDir hn2 hname ha2 hsep, ha3, fun _ n => by simp⟩
    · exact ⟨_, _, _, hs, .dir hr h0 h2, ht, fun _ name => by simp⟩

theorem isRoot_flatten {text : Str} {es : List Str} (h : IsRoot text es) : IsRoot es.flatten es := by
  cases h with
  | none => exact .none
  | dir _ _ _ => exact .dir (by simp) (by simp) (by simp)
  | net hn => simpa using IsRoot.net hn
  | netDir hn hne _ _ =>
    have : IsRoot ('/' :: '/' :: (_ ++ ['/'])) _ := .netDir hn hne (by simp) (by simp)
    simpa using this

theorem isRoot_dropLast {text : Str} {es : List Str} (h : IsRoot text es) :
    ∃ text', IsRoot text' es.dropLast := by
  cases h with
  | none => exact ⟨_, .none⟩
  | dir _ _ _ => exact ⟨_, .none⟩
  | net _ => exact ⟨_, .none⟩
  | netDir hn _ _ _ => exact ⟨_, .net hn⟩

theorem elements_append {text rel : Str} {es : List Str} (h : IsRoot text es) (hrel : NoSep rel)
    (ho : rel ≠ [] → Open es) : Path.elements ⟨text ++ rel⟩ = es ++ (parts '/' rel ++ trail rel) := by
  simp [Path.elements, rootSplit_append h hrel ho]

/-- A root alone has its own elements. -/
theorem elements_flatten {text : Str} {es : List Str} (h : IsRoot text es) :
    Path.elements ⟨es.flatten⟩ = es := by
  have := @elements_append _ [] _ (isRoot_flatten h) (by simp [NoSep]) (by simp)
  simpa [trail] using this

/-! ### The path above -/

/-- The names and the trailing dot of what follows the root. -/
def relElems (rel : Str) : List Str := parts '/' rel ++ trail rel

/-- A string is what ends in a separator, or nothing, and a name. -/
theorem exists_lastName (s : Str) : ∃ x name, s = x ++ name ∧ '/' ∉ name ∧
    (x = [] ∨ ∃ y, x = y ++ ['/']) ∧ s.rdropWhile (· != '/') = x := by
  refine ⟨s.rdropWhile (· != '/'), s.rtakeWhile (· != '/'), ?_, fun h => ?_, ?_, rfl⟩
  · exact (List.rdropWhile_append_rtakeWhile).symm
  · simpa using List.mem_rtakeWhile_imp h
  · rcases List.eq_nil_or_concat (s.rdropWhile (· != '/')) with h | ⟨y, c, h⟩
    · exact Or.inl h
    · right
      rw [List.concat_eq_append] at h
      have hne : s.rdropWhile (· != '/') ≠ [] := by simp [h]
      have := List.rdropWhile_last_not (· != '/') s hne
      simp only [h, List.getLast_append_singleton, bne_iff_ne, ne_eq, not_not] at this
      exact ⟨y, by rw [h, this]⟩

theorem parts_append_name {x name : Str} (hx : x = [] ∨ ∃ y, x = y ++ ['/']) :
    parts '/' (x ++ name) = parts '/' x ++ parts '/' name := by
  rcases hx with rfl | ⟨y, rfl⟩
  · simp
  · rw [List.append_assoc, List.singleton_append, parts_append_cons, parts_concat_self]

theorem parts_rdropWhile (s : Str) : parts '/' (s.rdropWhile (· == '/')) = parts '/' s := by
  induction s using List.reverseRecOn with
  | nil => rfl
  | append_singleton s c ih =>
    rw [List.rdropWhile_concat]
    split_ifs with h
    · obtain rfl : c = '/' := by simpa using h
      rw [ih, parts_concat_self]
    · rfl

theorem trail_rdropWhile (s : Str) : trail (s.rdropWhile (· == '/')) = [] := by
  unfold trail
  rw [if_neg]
  intro h
  have hne : s.rdropWhile (· == '/') ≠ [] := by rintro h0; simp [h0] at h
  have := List.rdropWhile_last_not (· == '/') s hne
  rw [List.getLast?_eq_some_getLast hne, Option.some.injEq] at h
  simp [h] at this

theorem relElems_upper {rel : Str} (hne : rel ≠ []) :
    relElems rel ≠ [] ∧ relElems (upper rel) = (relElems rel).dropLast := by
  obtain ⟨x, name, rfl, hname, hx, hdrop⟩ := exists_lastName rel
  have hup : relElems (upper (x ++ name)) = parts '/' x := by
    unfold relElems upper
    rw [hdrop, parts_rdropWhile, trail_rdropWhile, List.append_nil]
  rw [hup]
  unfold relElems
  by_cases hn : name = []
  · subst hn
    rcases hx with rfl | ⟨y, rfl⟩
    · exact absurd rfl hne
    · simp [trail]
  · have ht : trail (x ++ name) = [] := by
      unfold trail
      rw [if_neg]
      rw [List.getLast?_append_of_ne_nil _ hn]
      exact fun h => hname (List.mem_of_getLast? h)
    rw [ht, List.append_nil, parts_append_name hx, parts_of_notMem hn hname]
    simp

theorem upper_isPrefix (rel : Str) : upper rel <+: rel :=
  (List.rdropWhile_prefix _ _).trans (List.rdropWhile_prefix _ _)

theorem noSep_of_isPrefix {s t : Str} (h : s <+: t) (ht : NoSep t) : NoSep s := by
  obtain ⟨u, rfl⟩ := h
  cases s with
  | nil => simp [NoSep]
  | cons c s => simpa [NoSep] using ht

/-- **`parentPath` is the path without its last element.** -/
theorem elements_parentPath (p : Path) : p.parentPath.elements = p.elements.dropLast := by
  obtain ⟨s⟩ := p
  obtain ⟨text, es, rel, rfl, hroot, hrel, ho⟩ := exists_root s
  rw [elements_append hroot hrel ho]
  simp only [Path.parentPath, rootSplit_append hroot hrel ho]
  by_cases hne : rel = []
  · subst hne
    obtain ⟨text', hroot'⟩ := isRoot_dropLast hroot
    simp [elements_flatten hroot', trail]
  · obtain ⟨h1, h2⟩ := relElems_upper hne
    have hdrop : (es ++ relElems rel).dropLast = es ++ relElems (upper rel) := by
      rw [List.dropLast_append_of_ne_nil h1, h2]
    rw [if_neg hne]
    change _ = (es ++ relElems rel).dropLast
    rw [hdrop]
    split_ifs with hup
    · rw [hup, elements_flatten hroot]
      simp [relElems, trail]
    · exact elements_append hroot (noSep_of_isPrefix (upper_isPrefix rel) hrel) fun _ => ho hne

/-! ### Where a path leads -/

@[simp] theorem resolve_here {ν : Type*} (d : Loc ν) (cs : List (Comp ν)) :
    Lib.Files.resolve d (cs ++ [.here]) = Lib.Files.resolve d cs := resolve_concat d cs .here

theorem resolve_trail (d : Loc Str) (xs : List Str) (s : Str) :
    Lib.Files.resolve d ((xs ++ trail s).map comp) = Lib.Files.resolve d (xs.map comp) := by
  unfold trail
  split_ifs
  · rw [List.map_append]; exact resolve_here d _
  · rw [List.append_nil]

theorem resolve_parts (p : Path) (cwd : Loc Str) :
    p.resolve cwd = Lib.Files.resolve (p.start cwd) ((parts '/' p.pathname).map comp) :=
  resolve_trail _ _ _

/-- Where a list of elements leads. -/
def place (cwd : Loc Str) (es : List Str) : Loc Str :=
  Lib.Files.resolve (if (es.headD []).head? = some '/' then [] else cwd)
    ((es.flatMap (parts '/')).map comp)

theorem flatMap_parts {xs : List Str} (h : ∀ x ∈ xs, x ≠ [] ∧ '/' ∉ x) :
    xs.flatMap (parts '/') = xs := by
  induction xs with
  | nil => rfl
  | cons x xs ih =>
    have hx := h x (by simp)
    rw [List.flatMap_cons, parts_of_notMem hx.1 hx.2, ih fun y hy => h y (by simp [hy])]
    rfl

theorem mem_relElems {rel x : Str} (h : x ∈ relElems rel) : x ≠ [] ∧ '/' ∉ x := by
  rcases List.mem_append.mp h with h | h
  · exact mem_parts h
  · unfold trail at h
    split_ifs at h
    · rw [List.mem_singleton] at h; subst h; simp
    · simp at h

theorem isRoot_parts {text rel : Str} {es : List Str} (h : IsRoot text es)
    (ho : rel ≠ [] → Open es) :
    parts '/' (text ++ rel) = es.flatMap (parts '/') ++ parts '/' rel := by
  have hslash : parts '/' ['/'] = [] := parts_eq_nil (by simp)
  cases h with
  | none => simp
  | dir hr hne h2 =>
    obtain ⟨y, c, hy⟩ := List.eq_nil_or_concat text |>.resolve_left hne
    rw [List.concat_eq_append] at hy
    obtain rfl : c = '/' := hr c (by simp [hy])
    rw [parts_append_name (Or.inr ⟨y, hy⟩), parts_eq_nil hr]
    simp [hslash]
  | @net name hn =>
    obtain rfl : rel = [] := by
      by_contra hne
      exact ho hne name rfl
    simp
  | @netDir name sep hn hne hs hsne =>
    obtain ⟨y, c, hy⟩ := List.eq_nil_or_concat sep |>.resolve_left hsne
    rw [List.concat_eq_append] at hy
    obtain rfl : c = '/' := hs c (by simp [hy])
    have h1 : parts '/' ('/' :: '/' :: (name ++ sep)) = parts '/' name := by
      have : '/' :: '/' :: (name ++ sep) = '/' :: '/' :: (name ++ y) ++ ['/'] := by simp [hy]
      rw [this, parts_concat_self, parts_cons_self, parts_cons_self, ← parts_rdropWhile (name ++ y)]
      have hy' : ∀ c ∈ y, c = '/' := fun c hc => hs c (by simp [hy, hc])
      clear hy this
      induction y using List.reverseRecOn with
      | nil => rw [List.append_nil, parts_rdropWhile]
      | append_singleton y c ih =>
        obtain rfl : c = '/' := hy' c (by simp)
        rw [← List.append_assoc, parts_rdropWhile, parts_concat_self, ← parts_rdropWhile]
        exact ih fun c hc => hy' c (by simp [hc])
    rw [parts_append_name (Or.inr ⟨'/' :: '/' :: (name ++ y), by simp [hy]⟩), h1]
    simp [hslash]

theorem flatMap_elements_append {text rel : Str} {es : List Str} (hroot : IsRoot text es)
    (hrel : NoSep rel) (ho : rel ≠ [] → Open es) :
    (Path.elements ⟨text ++ rel⟩).flatMap (parts '/') = parts '/' (text ++ rel) ++ trail rel := by
  have helems : Path.elements ⟨text ++ rel⟩ = es ++ relElems rel := elements_append hroot hrel ho
  rw [helems, List.flatMap_append, flatMap_parts fun x => mem_relElems, isRoot_parts hroot ho]
  simp [relElems]

/-- Where a path starts depends on its first element. -/
theorem start_elements (cwd : Loc Str) (p : Path) :
    p.start cwd = if (p.elements.headD []).head? = some '/' then [] else cwd := by
  obtain ⟨s⟩ := p
  obtain ⟨text, es, rel, rfl, hroot, hrel, ho⟩ := exists_root s
  have helems : Path.elements ⟨text ++ rel⟩ = es ++ relElems rel := elements_append hroot hrel ho
  have hstart : (text ++ rel).head? = some '/' ↔
      ((es ++ relElems rel).headD []).head? = some '/' := by
    cases hroot with
    | none =>
      refine ⟨fun h => absurd h hrel, fun h => ?_⟩
      cases he : relElems rel with
      | nil => simp [he] at h
      | cons x xs =>
        have hx := (@mem_relElems rel x (by simp [he])).2
        simp only [he, List.nil_append, List.headD_cons] at h
        exact absurd (List.mem_of_head? h) hx
    | dir hr hne h2 =>
      obtain ⟨c, r, rfl⟩ := List.exists_cons_of_ne_nil hne
      simp [hr c (by simp)]
    | net _ => simp
    | netDir _ _ _ _ => simp
  unfold Path.start
  rw [helems]
  by_cases h : (text ++ rel).head? = some '/'
  · rw [if_pos h, if_pos (hstart.mp h)]
  · rw [if_neg h, if_neg fun h' => h (hstart.mpr h')]

/-- A root has a name in its last element unless it ends in a separator. -/
theorem parts_getLast_root {text : Str} {es : List Str} (h : IsRoot text es) :
    ∀ a ∈ es.getLast?, (parts '/' a = [] ↔ text.getLast? = some '/') := by
  have hslash : parts '/' ['/'] = [] := parts_eq_nil (by simp)
  cases h with
  | none => simp
  | @dir _ hr hne _ =>
    obtain ⟨y, c, hy⟩ := List.eq_nil_or_concat text |>.resolve_left hne
    rw [List.concat_eq_append] at hy
    obtain rfl : c = '/' := hr c (by simp [hy])
    simp [hslash, hy]
  | @net name hn =>
    by_cases hname : name = []
    · subst hname
      simp [parts_eq_nil]
    · have hlast : ('/' :: '/' :: name).getLast? ≠ some '/' := by
        obtain ⟨c, name, rfl⟩ := List.exists_cons_of_ne_nil hname
        rw [List.getLast?_cons_cons, List.getLast?_cons_cons]
        exact fun hl => hn (List.mem_of_getLast? hl)
      have hparts : parts '/' ('/' :: '/' :: name) = [name] := by
        rw [parts_cons_self, parts_cons_self, parts_of_notMem hname hn]
      intro a ha
      obtain rfl : '/' :: '/' :: name = a := by simpa using ha
      rw [hparts]
      exact iff_of_false (by simp) hlast
  | @netDir name sep _ _ hs hsne =>
    obtain ⟨y, c, hy⟩ := List.eq_nil_or_concat sep |>.resolve_left hsne
    rw [List.concat_eq_append] at hy
    obtain rfl : c = '/' := hs c (by simp [hy])
    have hlast : ('/' :: '/' :: (name ++ sep)).getLast? = some '/' := by
      have htext : '/' :: '/' :: (name ++ sep) = '/' :: '/' :: (name ++ y) ++ ['/'] := by simp [hy]
      rw [htext, List.getLast?_concat]
    simp [hslash, hlast]

/-- The steps of a path are those of its elements; where the last one has no name there is one step
more, which changes nothing. -/
theorem comps_elements (p : Path) :
    (∀ a ∈ p.elements.getLast?, parts '/' a ≠ []) ∧
      p.comps = (p.elements.flatMap (parts '/')).map comp ∨
    (∀ a ∈ p.elements.getLast?, parts '/' a = []) ∧
      p.comps = (p.elements.flatMap (parts '/')).map comp ++ [.here] := by
  obtain ⟨s⟩ := p
  obtain ⟨text, es, rel, rfl, hroot, hrel, ho⟩ := exists_root s
  have helems : Path.elements ⟨text ++ rel⟩ = es ++ relElems rel := elements_append hroot hrel ho
  have hflat := flatMap_elements_append hroot hrel ho
  by_cases hne : rel = []
  · subst hne
    simp only [List.append_nil, relElems, trail, List.getLast?_nil, reduceCtorEq, if_false,
      parts_nil] at helems hflat
    rw [List.append_nil, hflat, helems]
    have hlast := parts_getLast_root hroot
    unfold Path.comps trail
    split_ifs with hl
    · right
      refine ⟨fun a ha => (hlast a ha).mpr hl, ?_⟩
      rw [List.map_append]
      rfl
    · left
      exact ⟨fun a ha h => hl ((hlast a ha).mp h), by rw [List.append_nil]⟩
  · left
    have htrail : trail (text ++ rel) = trail rel := by
      unfold trail
      rw [List.getLast?_append_of_ne_nil _ hne]
    constructor
    · intro a ha
      rw [helems, List.getLast?_append_of_ne_nil _ (relElems_upper hne).1] at ha
      obtain ⟨hane, has⟩ := mem_relElems (List.mem_of_getLast? ha)
      rw [parts_of_notMem hane has]
      simp
    · unfold Path.comps
      rw [hflat, htrail]

/-- **Where a path leads depends on its elements only.** -/
theorem resolve_eq_place (cwd : Loc Str) (p : Path) : p.resolve cwd = place cwd p.elements := by
  unfold Path.resolve place
  rw [start_elements]
  rcases comps_elements p with ⟨-, hc⟩ | ⟨-, hc⟩
  · rw [hc]
  · rw [hc, resolve_here]

/-- A path with one more element leads one step further. -/
theorem resolve_of_elements {cwd : Loc Str} {p q : Path} {a : Str} (hq : q.elements ≠ [])
    (h : p.elements = q.elements ++ [a]) :
    p.resolve cwd = Lib.Files.resolve (q.resolve cwd) ((parts '/' a).map comp) := by
  obtain ⟨x, xs, hx⟩ := List.exists_cons_of_ne_nil hq
  rw [resolve_eq_place, resolve_eq_place, h, hx]
  simp [place, Lib.Files.resolve_append]

theorem elements_ne_nil {p : Path} (hp : p.pathname ≠ []) : p.elements ≠ [] := by
  obtain ⟨s⟩ := p
  obtain ⟨text, es, rel, rfl, hroot, hrel, ho⟩ := exists_root s
  rw [elements_append hroot hrel ho]
  by_cases hne : rel = []
  · subst hne
    cases hroot with
    | none => exact absurd rfl hp
    | dir _ _ _ => simp
    | net _ => simp
    | netDir _ _ _ _ => simp
  · intro h
    exact (relElems_upper hne).1 (List.append_eq_nil_iff.mp h).2

/-- An element is one step at most. -/
theorem parts_element {p : Path} {a : Str} (ha : a ∈ p.elements) : (parts '/' a).length ≤ 1 := by
  have hname : ∀ name : Str, '/' ∉ name → (parts '/' name).length ≤ 1 := fun name hn => by
    by_cases hne : name = []
    · simp [hne]
    · rw [parts_of_notMem hne hn]; rfl
  obtain ⟨s⟩ := p
  obtain ⟨text, es, rel, rfl, hroot, hrel, ho⟩ := exists_root s
  rw [elements_append hroot hrel ho, List.mem_append] at ha
  rcases ha with ha | ha
  · cases hroot with
    | none => simp at ha
    | dir _ _ _ => rw [List.mem_singleton.mp ha]; decide
    | net hn => rw [List.mem_singleton.mp ha]; simpa using hname _ hn
    | netDir hn _ _ _ =>
      simp only [List.mem_cons, List.not_mem_nil, or_false] at ha
      rcases ha with rfl | rfl
      · simpa using hname _ hn
      · decide
  · exact hname a (mem_relElems ha).2

/-- Where a path does not end in a separator, its elements are its names and its root. -/
theorem flatMap_elements {p : Path} (h : p.pathname.getLast? ≠ some '/') :
    p.elements.flatMap (parts '/') = parts '/' p.pathname := by
  obtain ⟨s⟩ := p
  obtain ⟨text, es, rel, rfl, hroot, hrel, ho⟩ := exists_root s
  have ht : trail rel = [] := by
    unfold trail
    rw [if_neg]
    intro hr
    apply h
    have hne : rel ≠ [] := by rintro rfl; simp at hr
    rwa [List.getLast?_append_of_ne_nil _ hne]
  rw [flatMap_elements_append hroot hrel ho, ht, List.append_nil]

/-- Its last element is no separator then. -/
theorem parts_getLast {p : Path} (hne : p.elements ≠ []) (h : p.pathname.getLast? ≠ some '/') :
    parts '/' (p.elements.getLast hne) ≠ [] := by
  obtain ⟨s⟩ := p
  obtain ⟨text, es, rel, rfl, hroot, hrel, ho⟩ := exists_root s
  have hends : ∀ sep : Str, sep ≠ [] → (∀ c ∈ sep, c = '/') → sep.getLast? = some '/' :=
    fun sep hs hc => by
      rw [List.getLast?_eq_some_getLast hs, hc _ (List.getLast_mem hs)]
  have helems : Path.elements ⟨text ++ rel⟩ = es ++ relElems rel := elements_append hroot hrel ho
  by_cases hr : rel = []
  · subst hr
    simp only [List.append_nil] at h helems ⊢
    have hes : Path.elements ⟨text⟩ = es := by simpa [relElems, trail] using helems
    cases hroot with
    | none => exact absurd hes hne
    | dir hr hne' _ => exact absurd (hends _ hne' hr) h
    | @net name hn =>
      have hname : name ≠ [] := by rintro rfl; exact h rfl
      simp [hes, parts_of_notMem hname hn]
    | @netDir name sep hn _ hs hsne =>
      have hcons : '/' :: '/' :: (name ++ sep) = '/' :: '/' :: name ++ sep := rfl
      rw [hcons, List.getLast?_append_of_ne_nil _ hsne] at h
      exact absurd (hends sep hsne hs) h
  · obtain ⟨hrne, -⟩ := relElems_upper hr
    have hlast : (Path.elements ⟨text ++ rel⟩).getLast hne = (relElems rel).getLast hrne := by
      simp only [helems]
      exact List.getLast_append_of_ne_nil _ hrne
    have hmem := mem_relElems (List.getLast_mem hrne)
    rw [hlast, parts_of_notMem hmem.1 hmem.2]
    simp

/-- **The path above leads one step less far.** -/
theorem resolve_parentPath {p : Path} {s b : Str} (cwd : Loc Str) (hp : p.pathname = s ++ '/' :: b)
    (hne : b ≠ []) (hb : '/' ∉ b) (hq : p.parentPath.elements ≠ []) :
    p.resolve cwd = (comp b).apply (p.parentPath.resolve cwd) := by
  have hend : p.pathname.getLast? ≠ some '/' := by
    rw [hp, List.getLast?_append_of_ne_nil _ (by simp)]
    obtain ⟨c, b, rfl⟩ := List.exists_cons_of_ne_nil hne
    rw [List.getLast?_cons_cons]
    exact fun h => hb (List.mem_of_getLast? h)
  have hpe : p.elements ≠ [] := by
    rw [elements_parentPath] at hq
    rintro h
    exact hq (by rw [h]; rfl)
  have hlast : p.elements = p.parentPath.elements ++ [p.elements.getLast hpe] := by
    rw [elements_parentPath, List.dropLast_append_getLast]
  have hflat := flatMap_elements hend
  have hone := parts_element (List.getLast_mem hpe)
  have hsome := parts_getLast hpe hend
  rw [resolve_of_elements hq hlast]
  generalize p.elements.getLast hpe = x at hlast hone hsome ⊢
  -- the last element is one name, and the path name ends in `b`
  match hx : parts '/' x with
  | [] => exact absurd hx hsome
  | y :: z :: zs => simp [hx] at hone
  | [y] =>
    rw [hlast, List.flatMap_append, List.flatMap_singleton, hx, hp, parts_append_cons,
      parts_of_notMem hne hb] at hflat
    obtain rfl : y = b := List.singleton_injective (List.append_inj_right' hflat rfl)
    rfl

/-- A path with one more element leads one name down at most. -/
theorem length_resolve_le {cwd : Loc Str} {p q : Path} (hq : q.pathname ≠ [])
    (h : p.parentPath.elements = q.elements) :
    (p.resolve cwd).length ≤ (q.resolve cwd).length + 1 := by
  have hqe := elements_ne_nil hq
  rw [elements_parentPath] at h
  have hpe : p.elements ≠ [] := fun hp => hqe (by rw [← h, hp]; rfl)
  have hlast : p.elements = q.elements ++ [p.elements.getLast hpe] := by
    rw [← h, List.dropLast_append_getLast]
  rw [resolve_of_elements hqe hlast]
  have hlen := parts_element (List.getLast_mem hpe)
  match parts '/' (p.elements.getLast hpe), hlen with
  | [], _ => simp
  | [a], _ =>
    simp only [List.map_cons, List.map_nil, resolve_cons, resolve_nil]
    cases comp a with
    | here => simp [Comp.apply]
    | up => simp only [Comp.apply, List.length_dropLast]; omega
    | name x => simp [Comp.apply]

/-! ### Appending -/

theorem append_slash {p : Path} (s : Str) : p.append ('/' :: s) = ⟨p.pathname ++ '/' :: s⟩ := by
  simp [Path.append]

theorem trail_append_slash (b s : Str) : trail (b ++ '/' :: s) = trail ('/' :: s) := by
  simp [trail, List.getLast?_append]

theorem comps_append_slash (b s : Str) : Path.comps ⟨b ++ '/' :: s⟩ =
    (parts '/' b).map comp ++ Path.comps ⟨'/' :: s⟩ := by
  simp [Path.comps, parts_append_cons, trail_append_slash]

theorem start_append {b : Str} (hb : b ≠ []) (cwd : Loc Str) (s : Str) :
    Path.start cwd ⟨b ++ s⟩ = Path.start cwd ⟨b⟩ := by
  obtain ⟨c, b, rfl⟩ := List.exists_cons_of_ne_nil hb
  rfl

/-- What is appended to a path is walked from where the path leads. -/
theorem resolve_append_slash {p : Path} (hp : p.pathname ≠ []) (cwd : Loc Str) (s : Str) :
    (p.append ('/' :: s)).resolve cwd =
      Lib.Files.resolve (p.resolve cwd) (Path.comps ⟨'/' :: s⟩) := by
  rw [append_slash, Path.resolve, comps_append_slash, start_append hp, Lib.Files.resolve_append,
    resolve_parts p]

/-- **What is appended to a path is walked from where the path leads**, also without a separator. -/
theorem resolve_append {p : Path} (hp : p.pathname ≠ []) (cwd : Loc Str) (s : Str) :
    (p.append s).resolve cwd = Lib.Files.resolve (p.resolve cwd) (Path.comps ⟨s⟩) := by
  have hcomps : Lib.Files.resolve (p.resolve cwd) (Path.comps ⟨s⟩) =
      Lib.Files.resolve (p.start cwd) ((parts '/' p.pathname ++ parts '/' s).map comp) := by
    rw [Path.comps, resolve_trail, List.map_append, Lib.Files.resolve_append, ← resolve_parts]
  rw [hcomps]
  unfold Path.append
  split_ifs with hs hsep
  · rw [hs, parts_nil, List.append_nil]
    exact resolve_parts p cwd
  · have hparts : parts '/' (p.pathname ++ s) = parts '/' p.pathname ++ parts '/' s := by
      rcases hsep.resolve_left hp with hl | hh
      · refine parts_append_name (Or.inr ⟨p.pathname.dropLast, ?_⟩)
        exact (List.dropLast_append_getLast? _ hl).symm
      · obtain ⟨c, s, rfl⟩ := List.exists_cons_of_ne_nil hs
        obtain rfl : c = '/' := by simpa using hh
        rw [parts_append_cons, parts_cons_self]
    rw [resolve_parts, start_append hp, hparts]
  · rw [resolve_parts, start_append hp, parts_append_cons]

section Locate
variable {β : Type} {t : FileTree Str β} {cwd : Loc Str} {p : Path} {l : Loc Str}

theorem locate_ne_nil (h : p.locate t cwd = some l) : p.pathname ≠ [] := by
  unfold Path.locate at h
  split_ifs at h with hp
  exact hp

theorem locate_resolve (h : p.locate t cwd = some l) : l = p.resolve cwd := by
  have hp := locate_ne_nil h
  unfold Path.locate at h
  rw [if_neg hp] at h
  exact FileTree.locate_eq_resolve h

theorem path_locate_mono {t' : FileTree Str β} (hd : ∀ l, t.isDir l = true → t'.isDir l = true)
    (h : p.locate t cwd = some l) : p.locate t' cwd = some l := by
  have hp := locate_ne_nil h
  unfold Path.locate at h ⊢
  rw [if_neg hp] at h ⊢
  exact FileTree.locate_mono hd h

/-- The trailing dot of a path changes nothing. -/
theorem locate_parts (h : p.locate t cwd = some l) :
    t.locate (p.start cwd) ((parts '/' p.pathname).map comp) = some l := by
  have hp := locate_ne_nil h
  unfold Path.locate at h
  rw [if_neg hp] at h
  unfold Path.comps trail at h
  split_ifs at h
  · rw [List.map_append, FileTree.locate_append, Option.bind_eq_some_iff] at h
    obtain ⟨m, hm, h⟩ := h
    simp only [List.map_cons, comp, List.map_nil, FileTree.locate, if_true] at h
    split_ifs at h
    rw [hm]; exact h
  · rw [List.append_nil] at h; exact h

/-- Where the path leads, something is made that is not there yet. -/
theorem locateNew_of_locate (h : p.locate t cwd = some l) : p.locateNew t cwd = some l := by
  unfold Path.locateNew
  rw [if_neg (locate_ne_nil h)]
  exact locate_parts h

theorem locateNew_ne_nil (h : p.locateNew t cwd = some l) : p.pathname ≠ [] := by
  unfold Path.locateNew at h
  split_ifs at h with hp
  exact hp

theorem locateNew_walk (h : p.locateNew t cwd = some l) :
    t.locate (p.start cwd) ((parts '/' p.pathname).map comp) = some l := by
  unfold Path.locateNew at h
  rwa [if_neg (locateNew_ne_nil h)] at h

theorem locateNew_resolve (h : p.locateNew t cwd = some l) : l = p.resolve cwd := by
  rw [resolve_parts]
  exact FileTree.locate_eq_resolve (locateNew_walk h)

theorem locateNew_mono {t' : FileTree Str β} (hd : ∀ l, t.isDir l = true → t'.isDir l = true)
    (h : p.locateNew t cwd = some l) : p.locateNew t' cwd = some l := by
  have hwalk := FileTree.locate_mono hd (locateNew_walk h)
  unfold Path.locateNew
  rwa [if_neg (locateNew_ne_nil h)]

/-- Once a directory is there, the path leads to it. -/
theorem locate_of_locateNew (h : p.locateNew t cwd = some l) (hd : t.isDir l = true) :
    p.locate t cwd = some l := by
  have hwalk := locateNew_walk h
  unfold Path.locate
  rw [if_neg (locateNew_ne_nil h)]
  unfold Path.comps trail
  split_ifs
  · rw [List.map_append, FileTree.locate_append, hwalk]
    simp [FileTree.locate, comp, hd, Comp.apply]
  · rwa [List.append_nil]

/-- Where nothing is, the path leads to nothing. -/
theorem node_of_locateNew {k : Loc Str} (h : p.locateNew t cwd = some l) (hl : p.locate t cwd = some k) :
    k = l := by
  rw [locateNew_of_locate hl] at h
  exact Option.some.inj h

theorem locate_append_slash (h : p.locate t cwd = some l) (s : Str) :
    (p.append ('/' :: s)).locate t cwd = t.locate l (Path.comps ⟨'/' :: s⟩) := by
  have hp := locate_ne_nil h
  rw [append_slash, Path.locate, if_neg (by simp), comps_append_slash, start_append hp,
    FileTree.locate_append, locate_parts h]
  rfl

end Locate

/-- A path without a name starts at the root. -/
theorem start_of_parts_eq_nil {p : Path} {cwd : Loc Str} (hp : p.pathname ≠ [])
    (h : parts '/' p.pathname = []) : p.start cwd = [] := by
  obtain ⟨c, s, hs⟩ := List.exists_cons_of_ne_nil hp
  obtain rfl : c = '/' := eq_of_parts_eq_nil h c (by simp [hs])
  unfold Path.start
  rw [if_pos (by simp [hs])]

/-- The steps of a name behind a separator. -/
theorem comps_name {x : Str} (hne : x ≠ []) (hx : '/' ∉ x) : Path.comps ⟨'/' :: x⟩ = [comp x] := by
  have ht : trail ('/' :: x) = [] := by
    unfold trail
    rw [if_neg]
    obtain ⟨c, x, rfl⟩ := List.exists_cons_of_ne_nil hne
    rw [List.getLast?_cons_cons]
    exact fun h => hx (List.mem_of_getLast? h)
  simp [Path.comps, ht, parts_of_notMem hne hx]

/-- The steps of a name appended to a path. -/
theorem comps_append_name {p : Path} {x : Str} (hp : p.pathname ≠ []) (hne : x ≠ []) (hx : '/' ∉ x) :
    (p.append x).comps = (parts '/' p.pathname).map comp ++ [comp x] ∧
      ∀ cwd, (p.append x).start cwd = p.start cwd := by
  have hhead : x.head? ≠ some '/' := noSep_of_notMem hx
  unfold Path.append
  rw [if_neg hne]
  by_cases hs : p.pathname.getLast? = some '/'
  · rw [if_pos (Or.inr (Or.inl hs))]
    obtain ⟨y, hy⟩ : ∃ y, p.pathname = y ++ ['/'] := by
      rcases List.eq_nil_or_concat p.pathname with h | ⟨y, c, h⟩
      · exact absurd h hp
      · rw [List.concat_eq_append] at h
        rw [h, List.getLast?_concat, Option.some.injEq] at hs
        exact ⟨y, by rw [h, hs]⟩
    refine ⟨?_, fun cwd => start_append hp cwd x⟩
    rw [hy, List.append_assoc, List.singleton_append, comps_append_slash, comps_name hne hx,
      parts_concat_self]
  · rw [if_neg (by simp [hp, hs, hhead])]
    exact ⟨by rw [comps_append_slash, comps_name hne hx], fun cwd => start_append hp cwd _⟩

theorem resolve_append_name {p : Path} {x : Str} (hp : p.pathname ≠ []) (hne : x ≠ [])
    (hx : '/' ∉ x) (cwd : Loc Str) : (p.append x).resolve cwd = (comp x).apply (p.resolve cwd) := by
  obtain ⟨h1, h2⟩ := comps_append_name hp hne hx
  rw [Path.resolve, h1, h2, resolve_concat, resolve_parts p]

section Child
variable {β : Type} {t : FileTree Str β} {cwd B : Loc Str} {p q : Path}

/-- A path leads where its elements lead. -/
theorem locate_elements (h : p.locate t cwd = some B) :
    t.locate (p.start cwd) ((p.elements.flatMap (parts '/')).map comp) = some B ∧
      ((∀ a ∈ p.elements.getLast?, parts '/' a = []) → t.isDir B = true) := by
  have hp := locate_ne_nil h
  unfold Path.locate at h
  rw [if_neg hp] at h
  rcases comps_elements p with ⟨hname, hc⟩ | ⟨-, hc⟩
  · refine ⟨by rwa [← hc], fun hnil => ?_⟩
    have hlast := List.getLast?_eq_some_getLast (elements_ne_nil hp)
    exact absurd (hnil _ hlast) (hname _ hlast)
  · rw [hc, FileTree.locate_append, Option.bind_eq_some_iff] at h
    obtain ⟨l, hl, h⟩ := h
    simp only [FileTree.locate] at h
    split_ifs at h with hd
    obtain rfl : l = B := Option.some.inj h
    exact ⟨hl, fun _ => hd⟩

/-- At a directory a path leads where its elements lead. -/
theorem locate_of_elements (hp : p.pathname ≠ []) (hd : t.isDir B = true)
    (h : t.locate (p.start cwd) ((p.elements.flatMap (parts '/')).map comp) = some B) :
    p.locate t cwd = some B := by
  unfold Path.locate
  rw [if_neg hp]
  rcases comps_elements p with ⟨-, hc⟩ | ⟨-, hc⟩
  · rw [hc, h]
  · rw [hc, FileTree.locate_append, h]
    simp [FileTree.locate, hd, Comp.apply]

/-- **One level below** a path leads somewhere exactly if the path above it leads to a directory. -/
theorem locate_child (hq : q.pathname ≠ []) (h : p.parentPath.elements = q.elements) :
    (∃ l, p.locate t cwd = some l) ↔ ∃ B, q.locate t cwd = some B ∧ t.isDir B = true := by
  have hqe := elements_ne_nil hq
  rw [elements_parentPath] at h
  have hpe : p.elements ≠ [] := fun hp => hqe (by rw [← h, hp]; rfl)
  have hlast : p.elements = q.elements ++ [p.elements.getLast hpe] := by
    rw [← h, List.dropLast_append_getLast]
  have hp : p.pathname ≠ [] := by
    obtain ⟨s⟩ := p
    rintro rfl
    exact hpe rfl
  have hstart : p.start cwd = q.start cwd := by
    obtain ⟨x, xs, hx⟩ := List.exists_cons_of_ne_nil hqe
    rw [start_elements, start_elements, hlast, hx]
    rfl
  have hflat : (p.elements.flatMap (parts '/')).map comp =
      (q.elements.flatMap (parts '/')).map comp ++
        (parts '/' (p.elements.getLast hpe)).map comp := by
    conv_lhs => rw [hlast]
    simp
  have hlen := parts_element (List.getLast_mem hpe)
  have hmem := List.getLast?_eq_some_getLast hpe
  constructor
  · rintro ⟨l, hl⟩
    obtain ⟨hwalk, hdir⟩ := locate_elements hl
    rw [hflat, hstart, FileTree.locate_append, Option.bind_eq_some_iff] at hwalk
    obtain ⟨B, hB, hstep⟩ := hwalk
    have hd : t.isDir B = true := by
      match hparts : parts '/' (p.elements.getLast hpe), hlen with
      | [], _ =>
        rw [hparts] at hstep
        obtain rfl : B = l := Option.some.inj hstep
        refine hdir fun a ha => ?_
        rw [hmem, Option.mem_some_iff] at ha
        rw [← ha, hparts]
      | [x], _ =>
        rw [hparts] at hstep
        simp only [List.map_cons, List.map_nil, FileTree.locate] at hstep
        split_ifs at hstep with hd
        exact hd
    exact ⟨B, locate_of_elements hq hd hB, hd⟩
  · rintro ⟨B, hB, hd⟩
    have hwalk : t.locate (p.start cwd) ((p.elements.flatMap (parts '/')).map comp) =
        t.locate B ((parts '/' (p.elements.getLast hpe)).map comp) := by
      rw [hflat, hstart, FileTree.locate_append, (locate_elements hB).1]
      rfl
    match hparts : parts '/' (p.elements.getLast hpe), hlen with
    | [], _ =>
      rw [hparts] at hwalk
      exact ⟨B, locate_of_elements hp hd hwalk⟩
    | [x], _ =>
      rw [hparts] at hwalk
      have hc : p.comps = (p.elements.flatMap (parts '/')).map comp := by
        rcases comps_elements p with ⟨-, hc⟩ | ⟨hnil, -⟩
        · exact hc
        · exact absurd (hparts.symm.trans (hnil _ hmem)) (by simp)
      refine ⟨(comp x).apply B, ?_⟩
      unfold Path.locate
      rw [if_neg hp, hc, hwalk]
      simp [FileTree.locate, hd]

/-- One level below a path, something new is made where the path leads to a directory, or at the place of
the path itself. -/
theorem locateNew_child (hq : q.pathname ≠ []) (h : p.parentPath.elements = q.elements)
    (hl : p.locateNew t cwd = some B) : (∃ l, p.locate t cwd = some l) ∨ B = q.resolve cwd := by
  have hqe := elements_ne_nil hq
  rw [elements_parentPath] at h
  have hpe : p.elements ≠ [] := fun hp => hqe (by rw [← h, hp]; rfl)
  by_cases htrail : trail p.pathname = []
  · left
    refine ⟨B, ?_⟩
    unfold Path.locate Path.comps
    rw [if_neg (locateNew_ne_nil hl), htrail, List.append_nil]
    exact locateNew_walk hl
  · right
    -- the last element of `p` has no name but the dot, and the others are those of `q`
    have hdot : p.comps = (parts '/' p.pathname).map comp ++ [.here] := by
      unfold trail at htrail
      unfold Path.comps trail
      split_ifs at htrail ⊢
      · rw [List.map_append]
        rfl
      · exact absurd rfl htrail
    have hlast : p.elements = q.elements ++ [p.elements.getLast hpe] := by
      rw [← h, List.dropLast_append_getLast]
    have hlen := parts_element (List.getLast_mem hpe)
    have hmem := List.getLast?_eq_some_getLast hpe
    rw [locateNew_resolve hl, resolve_of_elements hqe hlast]
    rcases comps_elements p with ⟨hname, hc⟩ | ⟨hnil, -⟩
    · obtain ⟨x, hx⟩ := List.length_eq_one_iff.mp
        (le_antisymm hlen (List.length_pos_iff.mpr (hname _ hmem)))
      have hflat : p.comps = (q.elements.flatMap (parts '/')).map comp ++ [comp x] := by
        rw [hc, hlast]
        simp [hx]
      have hhere : comp x = .here := by
        rw [hdot] at hflat
        exact (List.cons.inj (List.append_inj' hflat rfl).2).1.symm
      rw [hx, List.map_cons, List.map_nil, hhere]
      rfl
    · rw [hnil _ hmem]
      rfl

end Child

/-! ### Paths that end in a name -/

/-- The path is its own root: it has no names. -/
def Path.IsRootOnly (p : Path) : Prop := (rootSplit p.pathname).rel = []

instance (p : Path) : Decidable p.IsRootOnly := by unfold Path.IsRootOnly; infer_instance

/-- The path is no root and does not end in a separator. -/
structure Named (p : Path) : Prop where
  notRoot : ¬ p.IsRootOnly
  noSlash : p.pathname.getLast? ≠ some '/'

theorem upper_append_name {rel x : Str} (hrel : rel.getLast? ≠ some '/') (hx : '/' ∉ x) :
    upper (rel ++ '/' :: x) = rel := by
  have hx' : ∀ c ∈ x, (c != '/') = true := fun c hc => by
    simp only [bne_iff_ne]
    rintro rfl
    exact hx hc
  have h1 : (rel ++ '/' :: x).rdropWhile (· != '/') = rel ++ ['/'] := by
    clear hx
    induction x using List.reverseRecOn with
    | nil => simp
    | append_singleton x c ih =>
      rw [← List.cons_append, ← List.append_assoc, List.rdropWhile_concat,
        if_pos (hx' c (by simp))]
      exact ih fun d hd => hx' d (by simp [hd])
  unfold upper
  rw [h1, List.rdropWhile_concat, if_pos (by simp)]
  rcases List.eq_nil_or_concat rel with rfl | ⟨y, c, rfl⟩
  · rfl
  · rw [List.concat_eq_append] at hrel ⊢
    rw [List.rdropWhile_concat, if_neg (by simpa using hrel)]

/-- A name behind a separator is the last element. -/
theorem named_rel {text rel x : Str} {es : List Str} (hroot : IsRoot text es) (hre : rel ≠ [])
    (hrel : NoSep rel) (ho : Open es) (hne : x ≠ []) (hx : '/' ∉ x) :
    Named ⟨text ++ (rel ++ '/' :: x)⟩ ∧
      Path.elements ⟨text ++ (rel ++ '/' :: x)⟩ = es ++ parts '/' rel ++ [x] := by
  have hxl : ('/' :: x).getLast? ≠ some '/' := by
    obtain ⟨c, x, rfl⟩ := List.exists_cons_of_ne_nil hne
    rw [List.getLast?_cons_cons]
    exact fun h => hx (List.mem_of_getLast? h)
  have hrel' : NoSep (rel ++ '/' :: x) := by
    obtain ⟨c, r, rfl⟩ := List.exists_cons_of_ne_nil hre
    simpa [NoSep] using hrel
  have hlast : (rel ++ '/' :: x).getLast? ≠ some '/' := by
    rwa [List.getLast?_append_of_ne_nil _ (by simp)]
  have hsplit := rootSplit_append hroot hrel' fun _ => ho
  refine ⟨⟨?_, ?_⟩, ?_⟩
  · simp [Path.IsRootOnly, hsplit]
  · rwa [List.getLast?_append_of_ne_nil _ (by simp)]
  · rw [elements_append hroot hrel' fun _ => ho, trail, if_neg hlast, parts_append_cons,
      parts_of_notMem hne hx]
    simp

/-- **A name behind a path that ends in a name**: it becomes the last element, and the path above is
the first path again. -/
theorem Named.append_name {b x : Str} (h : Named ⟨b⟩) (hne : x ≠ []) (hx : '/' ∉ x) :
    Named ⟨b ++ '/' :: x⟩ ∧ Path.elements ⟨b ++ '/' :: x⟩ = Path.elements ⟨b⟩ ++ [x] ∧
      Path.parentPath ⟨b ++ '/' :: x⟩ = ⟨b⟩ := by
  obtain ⟨text, es, rel, rfl, hroot, hrel, ho⟩ := exists_root b
  obtain ⟨hnr, hns⟩ := h
  have hre : rel ≠ [] := by
    intro h
    apply hnr
    unfold Path.IsRootOnly
    rw [rootSplit_append hroot hrel ho, h]
  have hrs : rel.getLast? ≠ some '/' := by
    rwa [List.getLast?_append_of_ne_nil _ hre] at hns
  have hrel' : NoSep (rel ++ '/' :: x) := by
    obtain ⟨c, r, rfl⟩ := List.exists_cons_of_ne_nil hre
    simpa [NoSep] using hrel
  have hsplit := rootSplit_append hroot hrel' fun _ => ho hre
  have htrail : trail rel = [] := by unfold trail; rw [if_neg hrs]
  obtain ⟨hn, hel⟩ := named_rel hroot hre hrel (ho hre) hne hx
  rw [List.append_assoc]
  refine ⟨hn, ?_, ?_⟩
  · rw [hel, elements_append hroot hrel ho, htrail, List.append_nil]
  · simp only [Path.parentPath, hsplit]
    rw [upper_append_name hrs hx, if_neg (by simp), if_neg hre]

theorem Named.ne_nil {p : Path} (h : Named p) : p.pathname ≠ [] := by
  intro hp
  apply h.notRoot
  simp [Path.IsRootOnly, hp, rootSplit, spanSep]

/-- A name behind the path is one element more. -/
def TakesNames (p : Path) : Prop := ∀ x, x ≠ [] → '/' ∉ x →
  Named ⟨p.pathname ++ '/' :: x⟩ ∧ Path.elements ⟨p.pathname ++ '/' :: x⟩ = p.elements ++ [x]

theorem Named.takesNames {p : Path} (h : Named p) : TakesNames p := fun _ hne hx =>
  ⟨(h.append_name hne hx).1, (h.append_name hne hx).2.1⟩

theorem TakesNames.ne_nil {p : Path} (h : TakesNames p) : p.pathname ≠ [] := by
  obtain ⟨s⟩ := p
  rintro rfl
  exact absurd (h ['a'] (by decide) (by decide)).2 (by decide)

/-- Neither a name behind the path nor two names are levels under it. -/
structure Blocked (p : Path) : Prop where
  name : ∀ x, x ≠ [] → '/' ∉ x → (Path.elements ⟨p.pathname ++ '/' :: x⟩).dropLast ≠ p.elements
  names : ∀ x y, x ≠ [] → '/' ∉ x → x ≠ ['.'] → y ≠ [] → '/' ∉ y →
    (Path.elements ⟨p.pathname ++ '/' :: x ++ '/' :: y⟩).dropLast ≠ p.elements ∧
    (Path.elements ⟨p.pathname ++ '/' :: x ++ '/' :: y⟩).dropLast.dropLast ≠ p.elements

/-- What follows a root, if it is a name. -/
theorem named_root {text x : Str} {es : List Str} (h : IsRoot text es) (ho : Open es) (hne : x ≠ [])
    (hx : '/' ∉ x) : Named ⟨text ++ x⟩ ∧ Path.elements ⟨text ++ x⟩ = es ++ [x] := by
  have hsplit := rootSplit_append h (noSep_of_notMem hx) fun _ => ho
  have hl : x.getLast? ≠ some '/' := fun hl => hx (List.mem_of_getLast? hl)
  refine ⟨⟨?_, ?_⟩, ?_⟩
  · simpa [Path.IsRootOnly, hsplit] using hne
  · rwa [List.getLast?_append_of_ne_nil _ hne]
  · rw [elements_append h (noSep_of_notMem hx) fun _ => ho, parts_of_notMem hne hx, trail,
      if_neg hl, List.append_nil]

theorem blocked_of {p : Path} {es : List Str} (h : ∀ x, x ≠ [] → '/' ∉ x →
    Named ⟨p.pathname ++ '/' :: x⟩ ∧ Path.elements ⟨p.pathname ++ '/' :: x⟩ = es ++ [x])
    (hes : es ≠ p.elements) (hesx : ∀ x, x ≠ ['.'] → es ++ [x] ≠ p.elements) : Blocked p := by
  refine ⟨fun x hne hx => ?_, fun x y hne hx hdot hyne hy => ?_⟩
  · rwa [(h x hne hx).2, List.dropLast_concat]
  · obtain ⟨hn, hel⟩ := h x hne hx
    rw [(hn.append_name hyne hy).2.1, hel, List.dropLast_concat, List.dropLast_concat]
    exact ⟨hesx x hdot, hes⟩

/-- The root directory, spelled with one separator: one more makes a root name of what follows. -/
theorem blocked_root : Blocked ⟨['/']⟩ := by
  have hes : Path.elements ⟨['/']⟩ = [['/']] := by decide
  refine ⟨fun x hne hx => ?_, fun x y hne hx _ hyne hy => ?_⟩
  · have hnet := @elements_append ('/' :: '/' :: x) [] _ (.net hx) (by simp [NoSep]) (by simp)
    rw [List.append_nil] at hnet
    simp [hes, hnet, trail]
  · have hnet := (named_root (@IsRoot.netDir _ ['/'] hx hne (by simp) (by simp))
      (fun n => by simp) hyne hy).2
    have heq : ['/'] ++ '/' :: x ++ '/' :: y = '/' :: '/' :: (x ++ ['/']) ++ y := by simp
    change (Path.elements ⟨['/'] ++ '/' :: x ++ '/' :: y⟩).dropLast ≠ _ ∧
      (Path.elements ⟨['/'] ++ '/' :: x ++ '/' :: y⟩).dropLast.dropLast ≠ _
    rw [heq, hnet, hes]
    simp

theorem takesNames_or_of_root {text : Str} {es : List Str} (hroot : IsRoot text es) (hp : text ≠ []) :
    TakesNames ⟨text⟩ ∨ Blocked ⟨text⟩ := by
  have hes : Path.elements ⟨text⟩ = es := by
    have := @elements_append text [] es hroot (by simp [NoSep]) (by simp)
    simpa [trail] using this
  have hassoc : ∀ x : Str, text ++ '/' :: x = text ++ ['/'] ++ x := by simp
  have hsep : ∀ {r : Str}, (∀ c ∈ r, c = '/') → ∀ c ∈ r ++ ['/'], c = '/' := fun hr c hc =>
    (List.mem_append.mp hc).elim (hr c) (by simp)
  cases hroot with
  | none => exact absurd rfl hp
  | dir hr hne h2 =>
    by_cases h1 : text.length = 1
    · obtain ⟨c, rfl⟩ := List.length_eq_one_iff.mp h1
      obtain rfl : c = '/' := hr c (by simp)
      exact Or.inr blocked_root
    · left
      intro x hne' hx
      rw [hes, hassoc]
      refine named_root (.dir (hsep hr) (by simp) ?_) (fun n => by simp) hne' hx
      rw [List.length_append, List.length_singleton]
      omega
  | @net name hn =>
    right
    by_cases hname : name = []
    · subst hname
      refine @blocked_of _ [['/']] (fun x hne hx => ?_) (by simp [hes]) (by simp [hes])
      exact named_root (.dir (r := ['/', '/', '/']) (by simp) (by simp) (by simp))
        (fun n => by simp) hne hx
    · refine @blocked_of _ ['/' :: '/' :: name, ['/']] (fun x hne hx => ?_) (by simp [hes])
        (by simp [hes])
      have heq : '/' :: '/' :: name ++ '/' :: x = '/' :: '/' :: (name ++ ['/']) ++ x := by simp
      rw [heq]
      exact named_root (.netDir hn hname (by simp) (by simp)) (fun n => by simp) hne hx
  | @netDir name sep hn hne hs hsne =>
    left
    intro x hne' hx
    have heq : '/' :: '/' :: (name ++ sep) ++ ['/'] = '/' :: '/' :: (name ++ (sep ++ ['/'])) := by
      simp
    rw [hes, hassoc, heq]
    exact named_root (.netDir hn hne (hsep hs) (by simp)) (fun n => by simp) hne' hx

/-- **Names behind a path** are either each a level more, or no level at all. -/
theorem takesNames_or_blocked {p : Path} (hp : p.pathname ≠ []) : TakesNames p ∨ Blocked p := by
  obtain ⟨s⟩ := p
  obtain ⟨text, es, rel, rfl, hroot, hrel, ho⟩ := exists_root s
  by_cases hre : rel = []
  · subst hre
    rw [List.append_nil] at hp ⊢
    exact takesNames_or_of_root hroot hp
  · have hsplit := rootSplit_append hroot hrel ho
    by_cases hl : rel.getLast? = some '/'
    · right
      have hes := elements_append hroot hrel ho
      rw [trail, if_pos hl] at hes
      refine @blocked_of _ (es ++ parts '/' rel) (fun x hne hx => ?_) ?_ (fun x hx => ?_)
      · rw [List.append_assoc]
        exact named_rel hroot hre hrel (ho hre) hne hx
      · rw [hes]
        simp
      · rw [hes]
        simpa using hx
    · left
      refine Named.takesNames ⟨?_, ?_⟩
      · simpa [Path.IsRootOnly, hsplit] using hre
      · rwa [List.getLast?_append_of_ne_nil _ hre]

/-- A separator behind a root is part of a root, and a name can follow; behind the root directory it
makes a root name of the name. -/
theorem isRoot_concat {text : Str} {es : List Str} (hroot : IsRoot text es) (h : text ≠ ['/']) :
    ∃ es', IsRoot (text ++ ['/']) es' ∧ Open es' := by
  have hsep : ∀ {r : Str}, (∀ c ∈ r, c = '/') → ∀ c ∈ r ++ ['/'], c = '/' := fun hr c hc =>
    (List.mem_append.mp hc).elim (hr c) (by simp)
  cases hroot with
  | none => exact ⟨_, .dir (r := ['/']) (by simp) (by simp) (by simp), fun n => by simp⟩
  | dir hr hne h2 =>
    refine ⟨_, .dir (hsep hr) (by simp) ?_, fun n => by simp⟩
    rw [List.length_append, List.length_singleton]
    intro hlen
    obtain ⟨c, rfl⟩ := List.length_eq_one_iff.mp (show text.length = 1 by omega)
    exact h (by rw [hr c (by simp)])
  | @net name hn =>
    by_cases hname : name = []
    · subst hname
      exact ⟨_, .dir (r := ['/', '/', '/']) (by simp) (by simp) (by simp), fun n => by simp⟩
    · have hnet := @IsRoot.netDir _ ['/'] hn hname (by simp) (by simp)
      exact ⟨_, by simpa using hnet, fun n => by simp⟩
  | @netDir name sep hn hne hs hsne =>
    have hnet := IsRoot.netDir hn hne (hsep hs) (by simp)
    exact ⟨_, by simpa using hnet, fun n => by simp⟩

/-- **A name behind a path**, other than the root directory, is a name. -/
theorem named_append_slash {s x : Str} (hs : s ≠ ['/']) (hne : x ≠ []) (hx : '/' ∉ x) :
    Named ⟨s ++ '/' :: x⟩ := by
  obtain ⟨text, es, rel, rfl, hroot, hrel, ho⟩ := exists_root s
  by_cases hre : rel = []
  · subst hre
    rw [List.append_nil] at hs ⊢
    obtain ⟨es', hroot', ho'⟩ := isRoot_concat hroot hs
    rw [List.append_cons]
    exact (named_root hroot' ho' hne hx).1
  · rw [List.append_assoc]
    exact (named_rel hroot hre hrel (ho hre) hne hx).1

end Kachow.Boost.Paths
