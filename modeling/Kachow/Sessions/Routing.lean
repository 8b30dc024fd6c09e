import Kachow.Sessions.Handlers

/-! # From a target to its location

The scan of `match` keeps the longest location so far that the target begins with (`isLongest_matchIn`).
Two locations a target begins with differ in length, so the order of the scan does not matter.

Together with what `generateRoutes` leaves in the map this says where a request goes (`routing`): to
the first statement of the longest location. -/

namespace Kachow.Sessions.Routing

open Kachow.Lib.Text Kachow.Lib.Files Kachow.Http.Messages Kachow.Disk Kachow.Config.Parser
open Kachow.Api.Factory Kachow.Server.Factories Kachow.Server.Routes Kachow.Sessions.Handlers

/-! ### The scan -/

/-- The longest of the locations the target begins with. -/
structure IsLongest (ls : List Str) (url l : Str) : Prop where
  mem : l ∈ ls
  begins : l <+: url
  longest : ∀ l' ∈ ls, l' <+: url → l'.length ≤ l.length

theorem IsLongest.unique {ls : List Str} {url l l' : Str} (h : IsLongest ls url l)
    (h' : IsLongest ls url l') : l = l' := by
  have hlen : l.length = l'.length :=
    le_antisymm (h'.longest l h.mem h.begins) (h.longest l' h'.mem h'.begins)
  exact (List.prefix_of_prefix_length_le h.begins h'.begins hlen.le).eq_of_length hlen

theorem toSize_toInt {n : ℕ} (h : n < 2 ^ 31) : toSize (toInt n) = n := by
  have hint : toInt n = n := by
    unfold toInt
    rw [Int.bmod_eq_of_le (by omega) (by omega)]
  unfold toSize
  rw [hint]
  exact Int.emod_eq_of_lt (by omega) (by omega)

/-- One step: the location takes the place of a shorter one, if the target begins with it. -/
theorem matchStep_eq {url best l : Str} (hlen : url.length < 2 ^ 31) (hb : best <+: url) :
    matchStep url (toInt best.length, best) l =
      if l <+: url ∧ best.length < l.length then (toInt l.length, l)
      else (toInt best.length, best) := by
  have hbest : best.length < 2 ^ 31 := by
    have := hb.length_le
    omega
  have htake : url.take l.length = l ↔ l <+: url := by
    rw [List.prefix_iff_eq_take, eq_comm]
  unfold matchStep
  simp only [htake, toSize_toInt hbest]
  by_cases hl : l <+: url
  · rw [htake.mpr hl]
    simp only [Nat.cast_lt]
  · rw [if_neg fun h => hl h.1, if_neg fun h => hl h.1]

/-- **The scan** ends with a location the target begins with, and with none that is shorter than one
of those it has seen. -/
theorem foldl_matchStep {url : Str} (hlen : url.length < 2 ^ 31) :
    ∀ {ls : List Str} {best : Str}, best <+: url → ∃ l,
      ls.foldl (matchStep url) (toInt best.length, best) = (toInt l.length, l) ∧ l <+: url ∧
        (l = best ∨ l ∈ ls) ∧ best.length ≤ l.length ∧ ∀ l' ∈ ls, l' <+: url → l'.length ≤ l.length
  | [], best, hb => ⟨best, rfl, hb, Or.inl rfl, le_rfl, by simp⟩
  | x :: ls, best, hb => by
    rw [List.foldl_cons, matchStep_eq hlen hb]
    split_ifs with hx
    · obtain ⟨l, h1, h2, h3, h4, h5⟩ := @foldl_matchStep url hlen ls x hx.1
      refine ⟨l, h1, h2, Or.inr ?_, by omega, ?_⟩
      · rcases h3 with rfl | h3
        · exact List.mem_cons_self
        · exact List.mem_cons_of_mem _ h3
      · intro l' hl' hp
        rcases List.mem_cons.mp hl' with rfl | hl'
        · exact h4
        · exact h5 l' hl' hp
    · obtain ⟨l, h1, h2, h3, h4, h5⟩ := @foldl_matchStep url hlen ls best hb
      refine ⟨l, h1, h2, h3.imp_right (List.mem_cons_of_mem _), h4, ?_⟩
      intro l' hl' hp
      rcases List.mem_cons.mp hl' with rfl | hl'
      · have : ¬ best.length < l'.length := fun h => hx ⟨hp, h⟩
        omega
      · exact h5 l' hl' hp

section Scan
variable {ls : List Str} {url : Str} (hlen : url.length < 2 ^ 31)
include hlen

/-- What the scan finds is the longest location. -/
theorem isLongest_matchIn (h : matchIn ls url ≠ []) : IsLongest ls url (matchIn ls url) := by
  obtain ⟨l, h1, h2, h3, -, h5⟩ := @foldl_matchStep url hlen ls [] List.nil_prefix
  have hl : matchIn ls url = l := congrArg Prod.snd h1
  rw [hl] at h ⊢
  exact ⟨h3.resolve_left h, h2, h5⟩

/-- It finds nothing if the target begins with no location. -/
theorem matchIn_eq_nil (hne : [] ∉ ls) : matchIn ls url = [] ↔ ∀ l ∈ ls, ¬ l <+: url := by
  obtain ⟨l, h1, h2, h3, -, h5⟩ := @foldl_matchStep url hlen ls [] List.nil_prefix
  have hl : matchIn ls url = l := congrArg Prod.snd h1
  rw [hl]
  constructor
  · rintro rfl l' hl' hp
    have hzero := h5 l' hl' hp
    rw [List.length_nil, Nat.le_zero, List.length_eq_zero_iff] at hzero
    exact hne (hzero ▸ hl')
  · intro h
    exact h3.resolve_right fun hl' => h l hl' h2

end Scan

/-- **The order of the locations does not matter.** -/
theorem matchIn_congr {ls ls' : List Str} {url : Str} (hlen : url.length < 2 ^ 31)
    (hne : [] ∉ ls) (h : ∀ l, l ∈ ls ↔ l ∈ ls') : matchIn ls url = matchIn ls' url := by
  by_cases hn : matchIn ls url = []
  · have hn' : matchIn ls' url = [] := by
      rw [matchIn_eq_nil hlen fun hc => hne ((h []).mpr hc)]
      exact fun l hl => (matchIn_eq_nil hlen hne).mp hn l ((h l).mpr hl)
    rw [hn, hn']
  · have hn' : matchIn ls' url ≠ [] := by
      intro hc
      rw [matchIn_eq_nil hlen fun hc => hne ((h []).mpr hc)] at hc
      exact hn ((matchIn_eq_nil hlen hne).mpr fun l hl => hc l ((h l).mp hl))
    have hlong := isLongest_matchIn hlen hn'
    exact (isLongest_matchIn hlen hn).unique
      ⟨(h _).mpr hlong.mem, hlong.begins, fun l hl => hlong.longest l ((h l).mp hl)⟩

/-! ### End to end -/

section Routing
variable {it : DirectoryIterator} {cwd : Loc Str} {config : NginxConfig} {h h' : Heap}
  {routes : RouteMap}

/-- The statement number `i` is the first with the longest location the target begins with. -/
structure Chosen (config : NginxConfig) (target : Str) (i : ℕ) (location : Str) (kind : FactoryKind) :
    Prop where
  first : IsFirst (locations config) location i kind
  longest : IsLongest ((locations config).map Prod.fst) target location

variable (hr : (generateRoutes it cwd config).run h = .ok routes h')
include hr

/-- The keys of the map are the locations of the configuration. -/
theorem mem_keys_routes (l : Str) :
    l ∈ routes.keys.sort ↔ l ∈ (locations config).map Prod.fst := by
  rw [Finset.mem_sort, Finmap.mem_keys, ← Finmap.lookup_isSome, lookup_routes hr,
    Option.isSome_iff_ne_none, Ne, firstFactory_eq_none, List.mem_map]
  simp only [not_forall, not_not, exists_prop]

variable (hne : ∀ p ∈ locations config, p.1 ≠ [])
include hne

theorem nil_notMem_keys : [] ∉ routes.keys.sort := by
  rw [mem_keys_routes hr, List.mem_map]
  rintro ⟨p, hp, h0⟩
  exact hne p hp h0

variable {target : Str} (hlen : target.length < 2 ^ 31)
include hlen

theorem select_eq_none : select routes target = none ↔
    ∀ p ∈ locations config, ¬ p.1 <+: target := by
  have hkeys := nil_notMem_keys hr hne
  have hnil : matchIn routes.keys.sort target = [] ↔ ∀ p ∈ locations config, ¬ p.1 <+: target := by
    rw [matchIn_eq_nil hlen hkeys]
    simp only [mem_keys_routes hr, List.mem_map, forall_exists_index, and_imp,
      forall_apply_eq_imp_iff₂]
  rw [← hnil]
  unfold select matchLocation
  rw [Option.map_eq_none_iff, ← not_iff_not, ← Ne, ← Option.isSome_iff_ne_none,
    Finmap.lookup_isSome, ← Finmap.mem_keys, ← Finset.mem_sort (· ≤ ·)]
  constructor
  · intro hmem h0
    rw [h0] at hmem
    exact hkeys hmem
  · exact fun hn => (isLongest_matchIn hlen hn).mem

theorem select_eq_some {location : Str} {f : RequestHandlerFactory} (h0 : h.made = 0) :
    select routes target = some (location, f) ↔
      ∃ i kind, Chosen config target i location kind ∧ f = ⟨kind, i⟩ := by
  have hlong : ∀ l, IsLongest routes.keys.sort target l ↔
      IsLongest ((locations config).map Prod.fst) target l := fun l =>
    ⟨fun hl => ⟨(mem_keys_routes hr l).mp hl.mem, hl.begins,
        fun l' hl' => hl.longest l' ((mem_keys_routes hr l').mpr hl')⟩,
      fun hl => ⟨(mem_keys_routes hr l).mpr hl.mem, hl.begins,
        fun l' hl' => hl.longest l' ((mem_keys_routes hr l').mp hl')⟩⟩
  have hlook : ∀ l g, routes.lookup l = some g ↔
      ∃ i kind, IsFirst (locations config) l i kind ∧ g = ⟨kind, i⟩ := by
    intro l g
    rw [lookup_routes hr, firstFactory_eq_some]
    simp only [h0, Nat.zero_add]
  unfold select matchLocation
  simp only [Option.map_eq_some_iff, Prod.mk.injEq]
  constructor
  · rintro ⟨g, hg, rfl, rfl⟩
    obtain ⟨i, kind, hi, rfl⟩ := (hlook _ _).mp hg
    have hmem : matchIn routes.keys.sort target ∈ routes.keys.sort := by
      rw [mem_keys_routes hr]
      exact List.mem_map_of_mem (List.mem_of_getElem? hi.1)
    have hn : matchIn routes.keys.sort target ≠ [] :=
      fun hc => nil_notMem_keys hr hne (hc ▸ hmem)
    exact ⟨i, kind, ⟨hi, (hlong _).mp (isLongest_matchIn hlen hn)⟩, rfl⟩
  · rintro ⟨i, kind, hc, rfl⟩
    have hl := (hlong _).mpr hc.longest
    have hn : matchIn routes.keys.sort target ≠ [] := by
      intro hnil
      rw [matchIn_eq_nil hlen (nil_notMem_keys hr hne)] at hnil
      exact hnil _ hl.mem hl.begins
    have heq := (isLongest_matchIn hlen hn).unique hl
    exact ⟨_, (hlook _ _).mpr ⟨i, kind, by rw [heq]; exact hc.first, rfl⟩, heq, rfl⟩

end Routing

/-- A request that leads nowhere: no handler is called, and the page says so. -/
theorem handleRead_invalid {σ : Type} {routes : RouteMap} {out : Outside} {file : FileSystem σ} (n : ℕ)
    (connected : Bool) {c : Connection σ} (hs : select routes c.session.request.target = none) :
    (handleRead routes out file 0 n connected).run c =
      if connected then .ok 1 ⟨{ c.session with
        response := setInvalid c.session.response
        outstanding := c.session.outstanding ++ [.write (setInvalid c.session.response)] }, c.memory⟩
      else .error .systemError
        ⟨{ c.session with response := setInvalid c.session.response }, c.memory⟩ := by
  have hx : (answer routes out file c.session.request c.session.response).run c.memory =
      .ok (false, setInvalid c.session.response) c.memory := by
    unfold answer
    rw [hs]
    rfl
  unfold handleRead
  rw [if_pos rfl]
  refine (run_reply connected _ c).trans ?_
  rw [hx]

/-- Any other request goes to the factory of its location. -/
theorem handleRead_serve {σ : Type} {routes : RouteMap} {out : Outside} {file : FileSystem σ} (n : ℕ)
    (connected : Bool) {c : Connection σ} {location : Str} {f : RequestHandlerFactory}
    (hs : select routes c.session.request.target = some (location, f)) :
    (handleRead routes out file 0 n connected).run c =
      match (f.serve out file location c.session.request c.session.response).run c.memory with
      | .ok o m =>
        if connected then .ok 1 ⟨{ c.session with
          response := o.2, outstanding := c.session.outstanding ++ [.write o.2] }, m⟩
        else .error .systemError ⟨{ c.session with response := o.2 }, m⟩
      | .error e m => .error e ⟨c.session, m⟩ := by
  have hx : answer routes out file c.session.request c.session.response =
      f.serve out file location c.session.request c.session.response := by
    unfold answer
    rw [hs]
  unfold handleRead
  rw [if_pos rfl, ← hx]
  exact run_reply connected _ c

/-- **Routing, end to end.** The routes are those of a configuration. A request whose target begins
with none of its locations is answered with a `400`: whatever the handlers do, the page is filled in, its
write is started, and the files and the maps stay as they are. Any other request goes to the factory of
the first statement with the longest of these locations. The map may be iterated in any order. -/
theorem routing {σ : Type} {it : DirectoryIterator} {cwd : Loc Str} {config : NginxConfig}
    {h h' : Heap} {routes : RouteMap} {out : Outside} {file : FileSystem σ} (n : ℕ) (connected : Bool)
    (c : Connection σ) (h0 : h.made = 0)
    (hr : (generateRoutes it cwd config).run h = .ok routes h')
    (hne : ∀ p ∈ locations config, p.1 ≠ []) (hlen : c.session.request.target.length < 2 ^ 31) :
    (select routes c.session.request.target = none ↔
      ∀ p ∈ locations config, ¬ p.1 <+: c.session.request.target) ∧
    (∀ location f, select routes c.session.request.target = some (location, f) ↔
      ∃ i kind, Chosen config c.session.request.target i location kind ∧ f = ⟨kind, i⟩) ∧
    (∀ order : List Str, (∀ l, l ∈ order ↔ l ∈ routes.keys) →
      matchIn order c.session.request.target = matchLocation routes c.session.request.target) ∧
    ((∀ p ∈ locations config, ¬ p.1 <+: c.session.request.target) →
      ∃ page : Response, page.version = 11 ∧ page.status = 400 ∧
        page.contentType = some "text/html".toList ∧
        page.body = "<html><h1>400 Bad Request</h1></html>".toList ∧
        page.contentLength = some page.body.length ∧
        (handleRead routes out file 0 n connected).run c =
          if connected then .ok 1 ⟨{ c.session with
            response := page, outstanding := c.session.outstanding ++ [.write page] }, c.memory⟩
          else .error .systemError ⟨{ c.session with response := page }, c.memory⟩) ∧
    (∀ i location kind, Chosen config c.session.request.target i location kind →
      (handleRead routes out file 0 n connected).run c =
        match (RequestHandlerFactory.serve out file ⟨kind, i⟩ location c.session.request
            c.session.response).run c.memory with
        | .ok o m =>
          if connected then .ok 1 ⟨{ c.session with
            response := o.2, outstanding := c.session.outstanding ++ [.write o.2] }, m⟩
          else .error .systemError ⟨{ c.session with response := o.2 }, m⟩
        | .error e m => .error e ⟨c.session, m⟩) := by
  have hnone := select_eq_none hr hne hlen
  have hsome := fun location f => @select_eq_some it cwd config h h' routes hr hne
    c.session.request.target hlen location f h0
  refine ⟨hnone, hsome, ?_, fun hno => ?_, fun i location kind hc => ?_⟩
  · intro order horder
    have hmem : ∀ l, l ∈ order ↔ l ∈ routes.keys.sort := fun l => by
      rw [horder, Finset.mem_sort]
    exact matchIn_congr hlen (fun hc => nil_notMem_keys hr hne ((hmem []).mp hc)) hmem
  · exact ⟨setInvalid c.session.response, rfl, rfl, rfl, rfl, rfl,
      handleRead_invalid n connected (hnone.mpr hno)⟩
  · exact handleRead_serve n connected ((hsome location ⟨kind, i⟩).mpr ⟨i, kind, hc, rfl⟩)

/-- A server with three locations, two of them the same. -/
def echoConfig : NginxConfig :=
  let location (name handler : String) : NginxConfigStatement :=
    .mk ["location".toList, name.toList, handler.toList] none
  [.mk ["server".toList] (some [location "/" "HealthHandler", location "/echo" "EchoHandler",
    location "/echo" "SleepHandler"])]

theorem routing_echo : ∃ routes h',
    (generateRoutes inOrder [] echoConfig).run ⟨⟨FileTree.empty, fun _ => ∅⟩, 0⟩ = .ok routes h' ∧
    select routes "/echo/a".toList = some ("/echo".toList, ⟨.echo, 1⟩) := by
  have hls : locations echoConfig =
      [("/".toList, .health), ("/echo".toList, .echo), ("/echo".toList, .sleep)] := by decide
  obtain ⟨routes, h', hr⟩ : ∃ routes h', (generateRoutes inOrder [] echoConfig).run
      ⟨⟨FileTree.empty, fun _ => ∅⟩, 0⟩ = .ok routes h' := ⟨_, _, rfl⟩
  let c : Connection Tree :=
    ⟨{ request := ⟨.get, "/echo/a".toList, 11, [], []⟩ }, ⟨FileTree.empty, fun _ => ∅⟩⟩
  have hroute := @routing _ _ _ _ _ _ _ ⟨fun _ => [], fun _ _ => Secure.Handler.FakeAuth.getAuth⟩
    (realFileSystem []) 1 true c rfl hr (by rw [hls]; decide) (by decide)
  refine ⟨routes, h', hr, (hroute.2.1 _ _).mpr ⟨1, .echo, ⟨?_, ?_⟩, rfl⟩⟩
  · rw [hls]
    refine ⟨rfl, fun j kind hj => ?_⟩
    obtain rfl : j = 0 := by omega
    have hother : "/".toList ≠ "/echo".toList := by decide
    exact fun h => hother (congrArg Prod.fst (Option.some.inj h))
  · rw [hls]
    exact ⟨by decide, by decide, by decide⟩

end Kachow.Sessions.Routing
