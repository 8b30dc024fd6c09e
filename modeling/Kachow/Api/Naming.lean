import Kachow.Api.Objects

/-! # Targets and file names

`POST` names the file of an object by `to_string` of its number. The other methods read the number from
the target by `stoi` and take the rest of the target for the entity, but they go to the file the target
itself spells. So the two agree only if the target spells the number as `to_string` does and has an entity
in front of it; a target without a number behind its last separator always agrees (`namesItsFile_iff`).
Where two targets agree with their files, one file can still have two entities, whose spellings lead to one
directory: `e` and `e/` do. That apart, a file has one entity and one number (`naming_iff`). -/

namespace Kachow.Api.Naming

open Kachow.Lib.Text Kachow.Lib.Decimal Kachow.Lib.Files Kachow.Boost.Paths Kachow.Http.Messages
open Kachow.Api.Handler Kachow.Api.Target Kachow.Api.Objects

/-- What the target of a request stands for, if it is accepted. -/
def acceptedUrl (h : RequestHandlerAPI) (req : Request) : Option ParsedUrl :=
  match h.parseUrlTarget req with
  | .ok u => if u.ok then some u else none
  | .error _ => none

/-- The target leads to the file of its object, or to the directory of its entity. -/
def NamesItsFile (h : RequestHandlerAPI) (req : Request) : Prop :=
  ∀ u, acceptedUrl h req = some u →
    (u.id ≠ 0 → u.fullPath = objectPath h.basePath u.entity u.id) ∧
      (u.id = 0 → u.fullPath = entityPath h.basePath u.entity)

/-- Targets of objects that lead to one file have one entity and one number. -/
def OneName (h : RequestHandlerAPI) (cwd : Loc Str) (req req' : Request) : Prop :=
  ∀ u u', acceptedUrl h req = some u → acceptedUrl h req' = some u' → u.id ≠ 0 → u'.id ≠ 0 →
    u.fullPath.resolve cwd = u'.fullPath.resolve cwd → u.entity = u'.entity ∧ u.id = u'.id

/-- **URL parsing agrees with file naming** on two targets. -/
structure NamesAgree (h : RequestHandlerAPI) (cwd : Loc Str) (req req' : Request) : Prop where
  left : NamesItsFile h req
  right : NamesItsFile h req'
  one : OneName h cwd req req'

/-! ### The condition -/

/-- The target behind the prefix. -/
def rest (h : RequestHandlerAPI) (req : Request) : Str := req.target.drop h.prefixLength

/-- It begins with a separator and has something behind it, a further separator at its end apart. -/
def IsAccepted (url : Str) : Prop := url.head? = some '/' ∧ stripped url ≠ []

/-- What follows the last separator is no number, or zero and all there is, or the numeral of another
number behind an entity. -/
def PlainEnd (url : Str) : Prop :=
  IsAccepted url → ∀ k, stoi (leaf url) = some k →
    (k = 0 → stem url = []) ∧ (k ≠ 0 → stem url ≠ [] ∧ leaf url = intToString k)

/-- If both end in one number, other than zero, different spellings before it lead to different
directories. -/
def LeadApart (h : RequestHandlerAPI) (cwd : Loc Str) (url url' : Str) : Prop :=
  IsAccepted url → IsAccepted url' → number url ≠ 0 → number url = number url' → stem url ≠ stem url' →
    Path.resolve cwd ⟨h.basePath.pathname ++ stem url⟩ ≠
      Path.resolve cwd ⟨h.basePath.pathname ++ stem url'⟩

/-! ### One target -/

/-- The parts of an accepted target. -/
theorem parts_of_accepted {url : Str} (hurl : IsAccepted url) :
    stripped url = stem url ++ '/' :: leaf url ∧ '/' ∉ leaf url ∧
      (stem url = [] ∨ ∃ e, stem url = '/' :: e) := by
  have hhead := (head_stripped hurl.1).resolve_left hurl.2
  obtain ⟨a, b, hs, hb⟩ := exists_last (List.mem_of_head? hhead)
  obtain ⟨ha, hl⟩ := cut_eq hs hb
  rw [ha, hl]
  refine ⟨hs, hb, ?_⟩
  rcases a with - | ⟨c, e⟩
  · exact Or.inl rfl
  · rw [hs] at hhead
    obtain rfl : c = '/' := by simpa using hhead
    exact Or.inr ⟨e, rfl⟩

section Target
variable {h : RequestHandlerAPI} {req : Request}

/-- An accepted target is taken apart, and any other is not found. -/
theorem parsed_eq (h : RequestHandlerAPI) (req : Request) :
    (IsAccepted (rest h req) ∧ acceptedUrl h req = some ⟨true,
      ⟨h.basePath.pathname ++ (stem (rest h req) ++ '/' :: leaf (rest h req))⟩, number (rest h req),
      entity (rest h req)⟩) ∨ (¬ IsAccepted (rest h req) ∧ acceptedUrl h req = none) := by
  unfold acceptedUrl RequestHandlerAPI.parseUrlTarget substr
  by_cases hlen : h.prefixLength ≤ req.target.length
  · rw [if_pos hlen]
    by_cases hurl : IsAccepted (rest h req)
    · refine Or.inl ⟨hurl, ?_⟩
      obtain ⟨hs, -, -⟩ := parts_of_accepted hurl
      have hhead := (head_stripped hurl.1).resolve_left hurl.2
      have happ : h.basePath.append (stripped (rest h req)) =
          ⟨h.basePath.pathname ++ stripped (rest h req)⟩ := by
        unfold Path.append
        rw [if_neg hurl.2, if_pos (Or.inr (Or.inr hhead))]
      have hparse := parseUrl_eq h.basePath hurl.1 hurl.2
      rw [happ, hs] at hparse
      have hdrop : req.target.drop h.prefixLength = rest h req := rfl
      simp only [hdrop, hparse]
      rfl
    · refine Or.inr ⟨hurl, ?_⟩
      obtain ⟨u, hu, hok⟩ := parseUrl_not_ok h.basePath hurl
      have hdrop : req.target.drop h.prefixLength = rest h req := rfl
      simp [hdrop, hu, hok]
  · refine Or.inr ⟨fun hurl => ?_, by simp [hlen]⟩
    have hnil : rest h req = [] := List.drop_eq_nil_of_le (by omega)
    rw [hnil] at hurl
    exact absurd hurl.1 (by simp)

/-- **A target agrees with its file** exactly if it is plain. -/
theorem namesItsFile_iff (h : RequestHandlerAPI) (req : Request) :
    NamesItsFile h req ↔ PlainEnd (rest h req) := by
  rcases parsed_eq h req with ⟨hurl, hparsed⟩ | ⟨hurl, hparsed⟩
  · obtain ⟨-, -, hstem⟩ := parts_of_accepted hurl
    have hone : NamesItsFile h req ↔
        (number (rest h req) ≠ 0 → (⟨h.basePath.pathname ++ (stem (rest h req) ++ '/' ::
          leaf (rest h req))⟩ : Path) = objectPath h.basePath (entity (rest h req)) (number (rest h req))) ∧
        (number (rest h req) = 0 → (⟨h.basePath.pathname ++ (stem (rest h req) ++ '/' ::
          leaf (rest h req))⟩ : Path) = entityPath h.basePath (entity (rest h req))) := by
      unfold NamesItsFile
      rw [hparsed]
      simp
    have htwo : PlainEnd (rest h req) ↔ ∀ k, stoi (leaf (rest h req)) = some k →
        (k = 0 → stem (rest h req) = []) ∧
          (k ≠ 0 → stem (rest h req) ≠ [] ∧ leaf (rest h req) = intToString k) :=
      ⟨fun hp => hp hurl, fun hp _ => hp⟩
    rw [hone, htwo]
    unfold number entity objectPath entityPath
    rcases hk : stoi (leaf (rest h req)) with - | k
    · -- no number: the entity is all that is left of the target
      have hs := (parts_of_accepted hurl).1
      rw [hs]
      rcases hstem with he | ⟨e, he⟩
      · simp [he]
      · simp [he]
    · rcases hstem with he | ⟨e, he⟩
      · -- nothing in front of the number: the entity is the number itself
        simp [he]
      · simp only [he, reduceCtorEq]
        simp
        exact and_comm
  · refine iff_of_true (fun u hu => ?_) fun hp => absurd hp hurl
    rw [hparsed] at hu
    simp at hu

/-- The target of an object that is plain leads into the directory in front of its number. -/
theorem parsed_object {u : ParsedUrl} (hp : PlainEnd (rest h req)) (hu : acceptedUrl h req = some u)
    (hid : u.id ≠ 0) : IsAccepted (rest h req) ∧ u.id = number (rest h req) ∧
      stem (rest h req) = '/' :: u.entity ∧ leaf (rest h req) = intToString u.id ∧
      ∀ cwd, u.fullPath.resolve cwd =
        Path.resolve cwd ⟨h.basePath.pathname ++ stem (rest h req)⟩ ++ [leaf (rest h req)] := by
  rcases parsed_eq h req with ⟨hurl, hparsed⟩ | ⟨-, hparsed⟩
  · obtain rfl := Option.some.inj (hparsed.symm.trans hu)
    obtain ⟨-, -, hstem⟩ := parts_of_accepted hurl
    have hk : stoi (leaf (rest h req)) = some (number (rest h req)) := by
      have hne : (stoi (leaf (rest h req))).getD 0 ≠ 0 := hid
      unfold number
      rcases hs : stoi (leaf (rest h req)) with - | k
      · rw [hs] at hne
        exact absurd rfl hne
      · rfl
    obtain ⟨hne, hleaf⟩ := (hp hurl _ hk).2 hid
    obtain ⟨e, he⟩ := hstem.resolve_left hne
    have hentity : entity (rest h req) = e := by
      unfold entity
      rw [if_neg (by simp [hk]), if_neg hne, he]
      rfl
    refine ⟨hurl, rfl, by rw [he, hentity], hleaf, fun cwd => ?_⟩
    have hdir : (⟨h.basePath.pathname ++ stem (rest h req)⟩ : Path).pathname ≠ [] := by simp [he]
    have hpath : (⟨h.basePath.pathname ++ (stem (rest h req) ++ '/' :: leaf (rest h req))⟩ : Path) =
        (⟨h.basePath.pathname ++ stem (rest h req)⟩ : Path).append ('/' :: leaf (rest h req)) := by
      rw [append_slash, List.append_assoc]
    have hslash : '/' ∉ leaf (rest h req) := by
      rw [hleaf]
      exact OnDisk.noSlash_intToString _
    have hnil : leaf (rest h req) ≠ [] := by
      rw [hleaf]
      exact intToString_ne_nil _
    have hname : comp (leaf (rest h req)) = .name (leaf (rest h req)) := by
      rw [hleaf]
      exact OnDisk.comp_intToString _
    rw [hpath, resolve_append_slash hdir, comps_name hnil hslash, hname]
    rfl
  · rw [hparsed] at hu
    simp at hu

/-- **A file has one name** exactly if the targets that lead to it are spelled alike. -/
theorem oneName_iff {req' : Request} (hp : PlainEnd (rest h req)) (hp' : PlainEnd (rest h req'))
    (cwd : Loc Str) : OneName h cwd req req' ↔ LeadApart h cwd (rest h req) (rest h req') := by
  constructor
  · intro hone hurl hurl' hnum hsame hstem hplace
    rcases parsed_eq h req with ⟨-, hu⟩ | ⟨hno, -⟩
    · rcases parsed_eq h req' with ⟨-, hu'⟩ | ⟨hno, -⟩
      · have hnum' : number (rest h req') ≠ 0 := hsame ▸ hnum
        obtain ⟨-, -, hstem₁, hleaf₁, hres₁⟩ := parsed_object hp hu hnum
        obtain ⟨-, -, hstem₂, hleaf₂, hres₂⟩ := parsed_object hp' hu' hnum'
        have hleaf : leaf (rest h req) = leaf (rest h req') := by
          rw [hleaf₁, hleaf₂]
          exact congrArg intToString hsame
        have hfile := hone _ _ hu hu' hnum hnum' (by rw [hres₁, hres₂, hplace, hleaf])
        exact hstem (by rw [hstem₁, hstem₂, hfile.1])
      · exact hno hurl'
    · exact hno hurl
  · intro hapart u u' hu hu' hid hid' hplace
    obtain ⟨hurl, hnum, hstem, hleaf, hres⟩ := parsed_object hp hu hid
    obtain ⟨hurl', hnum', hstem', hleaf', hres'⟩ := parsed_object hp' hu' hid'
    rw [hres, hres'] at hplace
    obtain ⟨hdir, hlast⟩ := List.append_inj' hplace rfl
    have hids : u.id = u'.id := by
      refine intToString_inj ?_
      rw [← hleaf, ← hleaf']
      exact List.singleton_inj.mp hlast
    refine ⟨?_, hids⟩
    by_contra hne
    refine hapart hurl hurl' (hnum ▸ hid) (by rw [← hnum, ← hnum', hids]) (fun hs => hne ?_) hdir
    rw [hstem, hstem'] at hs
    exact (List.cons.inj hs).2

end Target

/-- **URL parsing agrees with file naming** exactly on the targets that are plain, and apart. -/
theorem naming_iff (h : RequestHandlerAPI) (cwd : Loc Str) (req req' : Request) :
    NamesAgree h cwd req req' ↔
      PlainEnd (rest h req) ∧ PlainEnd (rest h req') ∧ LeadApart h cwd (rest h req) (rest h req') := by
  constructor
  · rintro ⟨hleft, hright, hone⟩
    have hp := (namesItsFile_iff h req).mp hleft
    have hp' := (namesItsFile_iff h req').mp hright
    exact ⟨hp, hp', (oneName_iff hp hp' cwd).mp hone⟩
  · rintro ⟨hp, hp', hapart⟩
    exact ⟨(namesItsFile_iff h req).mpr hp, (namesItsFile_iff h req').mpr hp',
      (oneName_iff hp hp' cwd).mpr hapart⟩

/-- A handler of the location `/api`. -/
def apiHandler : RequestHandlerAPI := ⟨⟨"/data".toList⟩, 4⟩

/-- A request for a target of it. -/
def getTarget (url : Str) : Request := ⟨.get, "/api".toList ++ url, 11, [], []⟩

/-- **Junk behind the number, a number without an entity, a zero and a doubled separator** are accepted. -/
theorem naming_disagrees :
    ¬ NamesItsFile apiHandler (getTarget "/e/1abc".toList) ∧
    ¬ NamesItsFile apiHandler (getTarget "/5".toList) ∧
    ¬ NamesItsFile apiHandler (getTarget "/e/0".toList) ∧
    ¬ OneName apiHandler [] (getTarget "/e/1".toList) (getTarget "/e//1".toList) := by
  refine ⟨fun h => ?_, fun h => ?_, fun h => ?_, fun h => ?_⟩
  · have hfile := (h ⟨true, ⟨"/data/e/1abc".toList⟩, 1, "e".toList⟩ (by decide +kernel)).1 (by simp)
    exact absurd hfile (by decide +kernel)
  · have hfile := (h ⟨true, ⟨"/data/5".toList⟩, 5, "5".toList⟩ (by decide +kernel)).1 (by simp)
    exact absurd hfile (by decide +kernel)
  · have hfile := (h ⟨true, ⟨"/data/e/0".toList⟩, 0, "e".toList⟩ (by decide +kernel)).2 rfl
    exact absurd hfile (by decide +kernel)
  · have hfile := h ⟨true, ⟨"/data/e/1".toList⟩, 1, "e".toList⟩ ⟨true, ⟨"/data/e//1".toList⟩, 1, "e/".toList⟩
      (by decide +kernel) (by decide +kernel) (by simp) (by simp) (by decide +kernel)
    exact absurd hfile.1 (by decide +kernel)

end Kachow.Api.Naming
