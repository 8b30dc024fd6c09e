import Kachow.Api.Handler

/-! # What a target stands for

Behind the prefix a target has to begin with a separator; one separator at its end is dropped. It is
then cut at its last separator. If a number follows there, the target stands for the object of this
number in the entity before it, and otherwise for the entity behind the first separator
(`parseUrl_ok`). The number is read by `stoi`, which skips spaces, takes a sign and ignores whatever
follows the digits: the target may be spelled in many ways that lead to other files.

On the spelling the handler itself gives its objects the result is as expected (`parse_entity`,
`parse_object`). -/

namespace Kachow.Api.Target

open Kachow.Lib.Text Kachow.Lib.Decimal Kachow.Boost.Paths Kachow.Http.Messages Kachow.Api.Handler

/-- What is left of the target behind the prefix: without a separator at its end. -/
def stripped (url : Str) : Str := if url.getLast? = some '/' then url.dropLast else url

theorem head_stripped {url : Str} (h : url.head? = some '/') :
    stripped url = [] ∨ (stripped url).head? = some '/' := by
  unfold stripped
  split_ifs with hl
  · cases url with
    | nil => exact Or.inl rfl
    | cons c t =>
      cases t with
      | nil => exact Or.inl rfl
      | cons d t => exact Or.inr (by simpa using h)
  · exact Or.inr h

theorem splitEntity_append {a b : Str} (hhead : (a ++ '/' :: b).head? = some '/') :
    splitEntity (a ++ '/' :: b) a.length =
      (stoi b).map fun id => (id, if a = [] then b else a.tail) := by
  have h1 : substr (a ++ '/' :: b) (a.length + 1) = some b := by
    have := substr_append (a ++ ['/']) b
    simpa using this
  unfold splitEntity
  rw [h1]
  cases hid : stoi b with
  | none => simp [hid]
  | some id =>
    cases a with
    | nil => simp [hid, substr]
    | cons c a =>
      have h2 : substr (c :: (a ++ '/' :: b)) 1 (some a.length) = some a := by
        simpa using substr_append_count [c] a ('/' :: b)
      simp [hid, h2]

/-- A target is cut at its last separator. -/
theorem parseUrl_append {basePath : Path} {url a b : Str} (hhead : url.head? = some '/')
    (hs : stripped url = a ++ '/' :: b) (hb : '/' ∉ b) :
    parseUrl basePath url = .ok
      { ok := true
        fullPath := ⟨basePath.pathname ++ (a ++ '/' :: b)⟩
        id := (stoi b).getD 0
        entity := if stoi b = none then (a ++ '/' :: b).tail else if a = [] then b else a.tail } := by
  have hhead' : (a ++ '/' :: b).head? = some '/' :=
    (hs ▸ head_stripped hhead).resolve_left (by simp)
  have happ : basePath.append (a ++ '/' :: b) = ⟨basePath.pathname ++ (a ++ '/' :: b)⟩ := by
    unfold Path.append
    rw [if_neg (by simp), if_pos (Or.inr (Or.inr hhead'))]
  unfold stripped at hs
  unfold parseUrl
  rw [if_neg (by simp [hhead])]
  simp only [hs, findLastOf_append hb, splitEntity_append hhead', happ]
  cases stoi b with
  | some id => rfl
  | none =>
    have : substr (a ++ '/' :: b) 1 = some (a ++ '/' :: b).tail := by
      cases a <;> simp [substr]
    simp [this]

/-- **What is accepted** was cut at its last separator. -/
theorem parseUrl_ok {basePath : Path} {url : Str} {u : ParsedUrl} (h : parseUrl basePath url = .ok u)
    (hu : u.ok = true) : ∃ a b, stripped url = a ++ '/' :: b ∧ '/' ∉ b ∧
      (a ++ '/' :: b).head? = some '/' ∧
      u.fullPath = ⟨basePath.pathname ++ (a ++ '/' :: b)⟩ ∧ u.id = (stoi b).getD 0 ∧
      u.entity = if stoi b = none then (a ++ '/' :: b).tail else if a = [] then b else a.tail := by
  by_cases hhead : url.head? = some '/'
  · by_cases hmem : '/' ∈ stripped url
    · obtain ⟨a, b, hs, hb⟩ := exists_last hmem
      rw [parseUrl_append hhead hs hb] at h
      obtain rfl := Except.ok.inj h
      exact ⟨a, b, hs, hb, (hs ▸ head_stripped hhead).resolve_left (by simp), rfl, rfl, rfl⟩
    · have hl := findLastOf_of_notMem hmem
      unfold stripped at hl
      unfold parseUrl at h
      rw [if_neg (by simp [hhead])] at h
      simp only [hl] at h
      obtain rfl := Except.ok.inj h
      exact absurd hu (by simp)
  · unfold parseUrl at h
    rw [if_pos hhead] at h
    obtain rfl := Except.ok.inj h
    exact absurd hu (by simp)

/-! ### The parts of a target -/

/-- What is left of the target before its last separator. -/
def stem (url : Str) : Str := ((stripped url).rdropWhile (· != '/')).dropLast

/-- What follows the last separator. -/
def leaf (url : Str) : Str := (stripped url).rtakeWhile (· != '/')

/-- The number a target ends in; `0` if there is none. -/
def number (url : Str) : ℤ := (stoi (leaf url)).getD 0

/-- The entity a target names. -/
def entity (url : Str) : Str :=
  if stoi (leaf url) = none then (stripped url).tail
  else if stem url = [] then leaf url else (stem url).tail

theorem cut_eq {url a b : Str} (hs : stripped url = a ++ '/' :: b) (hb : '/' ∉ b) :
    stem url = a ∧ leaf url = b := by
  have hb' : ∀ c ∈ b, (c != '/') = true := fun c hc => by
    simp only [bne_iff_ne]
    rintro rfl
    exact hb hc
  have hdrop : ∀ b : Str, (∀ c ∈ b, (c != '/') = true) →
      (a ++ '/' :: b).rdropWhile (· != '/') = a ++ ['/'] := by
    intro b hb
    induction b using List.reverseRecOn with
    | nil => rw [List.rdropWhile_concat, if_neg (by simp)]
    | append_singleton b c ih =>
      rw [← List.cons_append, ← List.append_assoc, List.rdropWhile_concat, if_pos (hb c (by simp))]
      exact ih fun d hd => hb d (by simp [hd])
  have hsplit := List.rdropWhile_append_rtakeWhile (p := (· != '/')) (l := a ++ '/' :: b)
  rw [hdrop b hb'] at hsplit
  unfold stem leaf
  rw [hs, hdrop b hb']
  refine ⟨List.dropLast_concat, ?_⟩
  have hassoc : a ++ '/' :: b = a ++ ['/'] ++ b := by simp
  rw [hassoc] at hsplit ⊢
  exact List.append_cancel_left hsplit

/-- **A target that names something** is taken apart like this. -/
theorem parseUrl_eq (basePath : Path) {url : Str} (hhead : url.head? = some '/')
    (hne : stripped url ≠ []) : parseUrl basePath url =
      .ok ⟨true, basePath.append (stripped url), number url, entity url⟩ := by
  have hsh := (head_stripped hhead).resolve_left hne
  obtain ⟨a, b, hs, hb⟩ := exists_last (List.mem_of_head? hsh)
  obtain ⟨ha, hl⟩ := cut_eq hs hb
  rw [parseUrl_append hhead hs hb]
  have happ : basePath.append (stripped url) = ⟨basePath.pathname ++ stripped url⟩ := by
    unfold Path.append
    rw [if_neg hne, if_pos (Or.inr (Or.inr hsh))]
  rw [happ]
  unfold number entity
  rw [ha, hl, hs]

/-- Any other target is not found. -/
theorem parseUrl_not_ok (basePath : Path) {url : Str}
    (h : ¬ (url.head? = some '/' ∧ stripped url ≠ [])) :
    ∃ u, parseUrl basePath url = .ok u ∧ u.ok = false := by
  by_cases hhead : url.head? = some '/'
  · have hs : stripped url = [] := by
      by_contra hne
      exact h ⟨hhead, hne⟩
    unfold stripped at hs
    unfold parseUrl
    rw [if_neg (by simp [hhead])]
    simp only [hs, findLastOf_of_notMem (List.not_mem_nil)]
    exact ⟨_, rfl, rfl⟩
  · unfold parseUrl
    rw [if_pos hhead]
    exact ⟨_, rfl, rfl⟩

/-! ### As the handler spells its objects -/

theorem stripped_concat (url : Str) : stripped (url ++ ['/']) = url := by simp [stripped]

theorem stripped_of_ne {url : Str} (h : url.getLast? ≠ some '/') : stripped url = url := by
  unfold stripped; rw [if_neg h]

/-- A separator at the end, or none. -/
def slashIf (slash : Bool) : Str := if slash then ['/'] else []

theorem stripped_slashIf {a b : Str} (hb : '/' ∉ b) (hne : b ≠ []) (slash : Bool) :
    stripped (a ++ '/' :: b ++ slashIf slash) = a ++ '/' :: b := by
  cases slash with
  | true => exact stripped_concat _
  | false =>
    rw [slashIf, if_neg (by simp), List.append_nil]
    apply stripped_of_ne
    obtain ⟨c, b, rfl⟩ := List.exists_cons_of_ne_nil hne
    rw [List.getLast?_append_of_ne_nil _ (by simp), List.getLast?_cons_cons]
    exact fun h => hb (List.mem_of_getLast? h)

/-- The target of an entity. -/
theorem parse_entity (basePath : Path) {e : Str} (hne : e ≠ []) (hs : '/' ∉ e)
    (hn : stoi e = none) (slash : Bool) :
    parseUrl basePath ('/' :: e ++ slashIf slash) =
      .ok ⟨true, ⟨basePath.pathname ++ '/' :: e⟩, 0, e⟩ := by
  have h := stripped_slashIf (a := []) hs hne slash
  rw [List.nil_append] at h
  rw [parseUrl_append (a := []) (by simp) h hs]
  simp [hn]

/-- The target of an object. -/
theorem parse_object (basePath : Path) {e : Str} {k : ℤ} (hmin : intMin ≤ k) (hmax : k ≤ intMax)
    (slash : Bool) :
    parseUrl basePath ('/' :: e ++ '/' :: intToString k ++ slashIf slash) =
      .ok ⟨true, ⟨basePath.pathname ++ '/' :: e ++ '/' :: intToString k⟩, k, e⟩ := by
  have hk : '/' ∉ intToString k := notMem_intToString (by decide) (by decide) k
  have h := stripped_slashIf (a := '/' :: e) hk (intToString_ne_nil k) slash
  rw [parseUrl_append (by simp) h hk]
  simp [stoi_intToString hmin hmax]

/-- The whole target: the prefix is cut off. -/
theorem parseUrlTarget_append {h : RequestHandlerAPI} {req : Request} {loc url : Str}
    (hp : h.prefixLength = loc.length) (ht : req.target = loc ++ url) :
    h.parseUrlTarget req = parseUrl h.basePath url := by
  unfold RequestHandlerAPI.parseUrlTarget
  rw [ht, hp, substr_append]

theorem parseUrlTarget_ok {h : RequestHandlerAPI} {req : Request} {u : ParsedUrl}
    (hu : h.parseUrlTarget req = .ok u) : parseUrl h.basePath (req.target.drop h.prefixLength) = .ok u := by
  unfold RequestHandlerAPI.parseUrlTarget substr at hu
  split_ifs at hu
  exact hu

/-- **A target that is not shorter than the prefix** is taken apart, and nothing is thrown. -/
theorem exists_parseUrlTarget {h : RequestHandlerAPI} {req : Request}
    (hlen : h.prefixLength ≤ req.target.length) : ∃ u, h.parseUrlTarget req = .ok u := by
  unfold RequestHandlerAPI.parseUrlTarget substr
  rw [if_pos hlen]
  by_cases hurl : (req.target.drop h.prefixLength).head? = some '/' ∧
      stripped (req.target.drop h.prefixLength) ≠ []
  · exact ⟨_, parseUrl_eq h.basePath hurl.1 hurl.2⟩
  · obtain ⟨u, hu, -⟩ := parseUrl_not_ok h.basePath hurl
    exact ⟨u, hu⟩

end Kachow.Api.Target
