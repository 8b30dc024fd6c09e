import Kachow.Config.Parser
import Kachow.Lib.Runs
import Kachow.Server.Factories

/-! # The routes of the server

`generateRoutes` walks over the statements of the `server` blocks. Every `location` with the name of a
handler gets a factory; the factory is put into the map of routes, unless the location has one already.
The vectors are indexed and the blocks dereferenced without a check, so there is a fault for each way
this can go wrong (`StartFault`).

The factories get their addresses in the order of the statements, and the routes lead to the first one
of each location (`lookup_routes`). -/

namespace Kachow.Server.Routes

open Kachow.Lib.Text Kachow.Lib.Files Kachow.Lib.Runs Kachow.Boost.Paths Kachow.Http.Messages
open Kachow.Disk
open Kachow.Config.Parser (NginxConfig NginxConfigStatement)
open Kachow.Api.Ids Kachow.Api.Handler Kachow.Api.Factory Kachow.Server.Factories

/-- How the start can fail: by undefined behaviour, or by an exception. -/
inductive StartFault where
  /-- `child_block_` is dereferenced, and there is no block. -/
  | nullBlock
  /-- `tokens_` is indexed past its end. -/
  | tokensEnd
  /-- `statements_` is indexed past its end. -/
  | statementsEnd
  /-- `authorizer` is used, and was not assigned. -/
  | unassigned
  /-- An exception. -/
  | exception
  deriving DecidableEq, Repr

/-! ### Unchecked accesses -/

/-- `tokens_[i]`. -/
def token (s : NginxConfigStatement) (i : ℕ) : Except StartFault Str :=
  match s.tokens[i]? with
  | some t => .ok t
  | none => .error .tokensEnd

/-- `*child_block_`. -/
def childBlock (s : NginxConfigStatement) : Except StartFault NginxConfig :=
  match s.childBlock with
  | some config => .ok config
  | none => .error .nullBlock

/-- `statements_[i]`. -/
def statement (config : NginxConfig) (i : ℕ) : Except StartFault NginxConfigStatement :=
  match config[i]? with
  | some s => .ok s
  | none => .error .statementsEnd

/-- `child_block_->statements_[i]->tokens_[j]`. -/
def argument (s : NginxConfigStatement) (i j : ℕ) : Except StartFault Str := do
  token (← statement (← childBlock s) i) j

/-- The authorizer of a `SecureAPIHandler`. That it has two arguments is only logged, and so is that the
key file can be read. -/
def authorizer (s : NginxConfigStatement) : Except StartFault Authorizer := do
  let authType ← argument s 1 1
  if authType = "OAUTH".toList then
    let clientId ← argument s 1 2
    let publicKeyPath ← argument s 1 3
    pure (.tokenAuth clientId publicKeyPath)
  else if authType = "FAKE".toList then pure .fakeAuth
  else throw .unassigned

/-- The factory the name of a handler asks for; nothing for another name. -/
def factoryKind (s : NginxConfigStatement) (name : Str) : Except StartFault (Option FactoryKind) := do
  if name = "EchoHandler".toList then pure (some .echo)
  else if name = "StaticHandler".toList then pure (some (.static (← argument s 0 1)))
  else if name = "NotFoundHandler".toList then pure (some .notFound)
  else if name = "APIHandler".toList then pure (some (.api (← argument s 0 1)))
  else if name = "SecureAPIHandler".toList then
    let rootFilePath ← argument s 0 1
    pure (some (.secureAPI rootFilePath (← authorizer s)))
  else if name = "HealthHandler".toList then pure (some .health)
  else if name = "SleepHandler".toList then pure (some .sleep)
  else if name = "LoginHandler".toList then pure (some (.login (← argument s 0 1)))
  else pure none

/-! ### The map of routes -/

/-- `std::map<std::string, RequestHandlerFactory*>`. -/
abbrev RouteMap := Finmap fun _ : Str => RequestHandlerFactory

/-- `insert`. A factory that is there stays. -/
def insertRoute (routes : RouteMap) (location : Str) (f : RequestHandlerFactory) : RouteMap :=
  match routes.lookup location with
  | some _ => routes
  | none => routes.insert location f

/-- What the start has made so far: the files, the maps of the factories, and their number. -/
structure Heap where
  memory : Memory Tree
  made : ℕ

/-- A step that uses the tree of the configuration only. -/
def reading {α : Type} (x : Except StartFault α) : EStateM StartFault Heap α := fun s =>
  match x with
  | .ok a => .ok a s
  | .error e => .error e s

section Generate
variable (it : DirectoryIterator) (cwd : Loc Str)

/-- The constructor of a factory of the API scans its directory. -/
def scanRoot (rootFilePath : Str) : EStateM StartFault Heap Unit := fun s =>
  match (scanFS it cwd ⟨rootFilePath⟩).run ⟨s.memory.disk, ∅⟩ with
  | .ok _ w => .ok () ⟨⟨w.disk, Function.update s.memory.entityIdMaps s.made w.entityIdMap⟩, s.made⟩
  | .error _ w => .error .exception ⟨⟨w.disk, s.memory.entityIdMaps⟩, s.made⟩

/-- What the constructor of a factory does. -/
def construct : FactoryKind → EStateM StartFault Heap Unit
  | .api root | .secureAPI root _ => scanRoot it cwd root
  | _ => pure ()

/-- A new factory. -/
def newFactory (kind : FactoryKind) : EStateM StartFault Heap RequestHandlerFactory := do
  construct it cwd kind
  let s ← get
  set (⟨s.memory, s.made + 1⟩ : Heap)
  pure ⟨kind, s.made⟩

/-- A statement of a `server` block. -/
def addLocation (routes : RouteMap) (s : NginxConfigStatement) : EStateM StartFault Heap RouteMap := do
  let directive ← reading (token s 0)
  if directive = "location".toList then
    let location ← reading (token s 1)
    let name ← reading (token s 2)
    match ← reading (factoryKind s name) with
    | some kind =>
      let f ← newFactory it cwd kind
      pure (insertRoute routes location f)
    | none => pure routes
  else pure routes

/-- A statement of the configuration. -/
def addServer (routes : RouteMap) (s : NginxConfigStatement) : EStateM StartFault Heap RouteMap := do
  let directive ← reading (token s 0)
  if directive = "server".toList then
    let block ← reading (childBlock s)
    block.foldlM (addLocation it cwd) routes
  else pure routes

/-- `server::generate_routes`. -/
def generateRoutes (config : NginxConfig) : EStateM StartFault Heap RouteMap :=
  config.foldlM (addServer it cwd) ∅

end Generate

/-! ### The locations of a configuration -/

/-- The statements of the `server` blocks, in the order of the text. -/
def serverStatements (config : NginxConfig) : List NginxConfigStatement :=
  config.flatMap fun s =>
    if s.tokens.head? = some "server".toList then s.childBlock.getD [] else []

/-- The location a statement gives a handler, and the factory it asks for. -/
def locationOf (s : NginxConfigStatement) : Option (Str × FactoryKind) :=
  if s.tokens.head? = some "location".toList then
    match s.tokens[1]?, s.tokens[2]? with
    | some location, some name =>
      match factoryKind s name with
      | .ok (some kind) => some (location, kind)
      | _ => none
    | _, _ => none
  else none

/-- The locations with a handler, in the order of the text. -/
def locations (config : NginxConfig) : List (Str × FactoryKind) :=
  (serverStatements config).filterMap locationOf

/-- The names of the handlers. -/
def handlerNames : List Str :=
  ["EchoHandler", "StaticHandler", "NotFoundHandler", "APIHandler", "SecureAPIHandler",
    "HealthHandler", "SleepHandler", "LoginHandler"].map String.toList

/-- Only the names of the handlers ask for a factory. -/
theorem factoryKind_eq_none {s : NginxConfigStatement} {name : Str} :
    factoryKind s name = .ok none ↔ name ∉ handlerNames := by
  have hpure : ∀ kind : FactoryKind, (pure (some kind) : Except StartFault _) ≠ .ok none :=
    fun kind h => by cases h
  have hbind : ∀ {α : Type} (x : Except StartFault α) (f : α → Except StartFault (Option FactoryKind)),
      (∀ a, f a ≠ .ok none) → (x >>= f) ≠ .ok none := by
    intro α x f hf h
    obtain ⟨a, -, ha⟩ := bind_ok h
    exact hf a ha
  have hmem : ∀ x ∈ handlerNames, name = x → ¬ name ∉ handlerNames :=
    fun x hx h => not_not.mpr (h ▸ hx)
  unfold factoryKind
  split_ifs with h1 h2 h3 h4 h5 h6 h7 h8
  · exact iff_of_false (hpure _) (hmem _ (by decide) h1)
  · exact iff_of_false (hbind _ _ fun _ => hpure _) (hmem _ (by decide) h2)
  · exact iff_of_false (hpure _) (hmem _ (by decide) h3)
  · exact iff_of_false (hbind _ _ fun _ => hpure _) (hmem _ (by decide) h4)
  · exact iff_of_false (hbind _ _ fun _ => hbind _ _ fun _ => hpure _) (hmem _ (by decide) h5)
  · exact iff_of_false (hpure _) (hmem _ (by decide) h6)
  · exact iff_of_false (hpure _) (hmem _ (by decide) h7)
  · exact iff_of_false (hbind _ _ fun _ => hpure _) (hmem _ (by decide) h8)
  · refine iff_of_true rfl ?_
    simp only [handlerNames, List.map_cons, List.map_nil, List.mem_cons, List.not_mem_nil, or_false,
      not_or]
    exact ⟨h1, h2, h3, h4, h5, h6, h7, h8⟩

section Locations
variable {it : DirectoryIterator} {cwd : Loc Str}

@[simp] theorem run_reading {α : Type} (x : Except StartFault α) (h : Heap) :
    (reading x).run h = match x with
      | .ok a => .ok a h
      | .error e => .error e h := rfl

theorem reading_ok {α : Type} {x : Except StartFault α} {a : α} {h h' : Heap}
    (hr : (reading x).run h = .ok a h') : x = .ok a ∧ h' = h := by
  rw [run_reading] at hr
  cases x with
  | ok b =>
    cases hr
    exact ⟨rfl, rfl⟩
  | error e => cases hr

/-- A new factory has the next address. -/
theorem newFactory_ok {kind : FactoryKind} {h h' : Heap} {f : RequestHandlerFactory}
    (hr : (newFactory it cwd kind).run h = .ok f h') : f = ⟨kind, h.made⟩ ∧ h'.made = h.made + 1 := by
  have hscan : ∀ {root u h''}, (scanRoot it cwd root).run h = .ok u h'' → h''.made = h.made := by
    intro root u h'' hs
    unfold scanRoot EStateM.run at hs
    simp only at hs
    split at hs
    · cases hs
      rfl
    · cases hs
  unfold newFactory at hr
  obtain ⟨u, h1, hfirst, hr1⟩ := run_bind_ok hr
  obtain ⟨s, h2, hget, hr2⟩ := run_bind_ok hr1
  obtain ⟨v, h3, hset, hr3⟩ := run_bind_ok hr2
  cases hget
  cases hset
  cases hr3
  have hmade : h1.made = h.made := by
    unfold construct at hfirst
    split at hfirst
    · exact hscan hfirst
    · exact hscan hfirst
    · cases hfirst
      rfl
  rw [hmade]
  exact ⟨rfl, rfl⟩

theorem token_ok {s : NginxConfigStatement} {i : ℕ} {t : Str} (h : token s i = .ok t) :
    s.tokens[i]? = some t := by
  unfold token at h
  split at h
  · cases h
    assumption
  · cases h

/-- A statement makes the factory of the location it gives a handler, or does nothing. -/
theorem addLocation_cases {routes routes' : RouteMap} {s : NginxConfigStatement} {h h' : Heap}
    (hr : (addLocation it cwd routes s).run h = .ok routes' h') :
    locationOf s = none ∧ routes' = routes ∧ h' = h ∨
    ∃ location kind f, locationOf s = some (location, kind) ∧ routes' = insertRoute routes location f ∧
      (newFactory it cwd kind).run h = .ok f h' := by
  unfold addLocation at hr
  obtain ⟨directive, h1, hread, hr1⟩ := run_bind_ok hr
  obtain ⟨hd, rfl⟩ := reading_ok hread
  have hhead : s.tokens.head? = some directive := by
    rw [List.head?_eq_getElem?]
    exact token_ok hd
  unfold locationOf
  rw [hhead]
  by_cases hloc : directive = "location".toList
  · rw [if_pos hloc] at hr1
    obtain ⟨location, h2, hread2, hr2⟩ := run_bind_ok hr1
    obtain ⟨hl, rfl⟩ := reading_ok hread2
    obtain ⟨name, h3, hread3, hr3⟩ := run_bind_ok hr2
    obtain ⟨hn, rfl⟩ := reading_ok hread3
    obtain ⟨kind, h4, hread4, hr4⟩ := run_bind_ok hr3
    obtain ⟨hk, rfl⟩ := reading_ok hread4
    rw [if_pos (congrArg some hloc), token_ok hl, token_ok hn]
    simp only [hk]
    cases kind with
    | none =>
      cases hr4
      exact Or.inl ⟨rfl, rfl, rfl⟩
    | some kind =>
      obtain ⟨f, h5, hf, hr5⟩ := run_bind_ok hr4
      cases hr5
      exact Or.inr ⟨location, kind, f, rfl, rfl, hf⟩
  · rw [if_neg hloc] at hr1
    cases hr1
    exact Or.inl ⟨if_neg fun h => hloc (Option.some.inj h), rfl, rfl⟩

/-- A statement adds the location it gives a handler. -/
theorem addLocation_ok {routes routes' : RouteMap} {s : NginxConfigStatement} {h h' : Heap}
    (hr : (addLocation it cwd routes s).run h = .ok routes' h') :
    locationOf s = none ∧ routes' = routes ∧ h'.made = h.made ∨
    ∃ location kind, locationOf s = some (location, kind) ∧
      routes' = insertRoute routes location ⟨kind, h.made⟩ ∧ h'.made = h.made + 1 := by
  rcases addLocation_cases hr with ⟨hloc, hroutes, rfl⟩ | ⟨location, kind, f, hloc, hroutes, hf⟩
  · exact Or.inl ⟨hloc, hroutes, rfl⟩
  · obtain ⟨rfl, hmade⟩ := newFactory_ok hf
    exact Or.inr ⟨location, kind, hloc, hroutes, hmade⟩

/-- The start takes the statements of all blocks one after the other. -/
theorem addServer_ok : ∀ {config : NginxConfig} {routes routes' : RouteMap} {h h' : Heap},
    (config.foldlM (addServer it cwd) routes).run h = .ok routes' h' →
      ((serverStatements config).foldlM (addLocation it cwd) routes).run h = .ok routes' h'
  | [], _, _, _, _, hr => hr
  | s :: config, routes, routes', h, h', hr => by
    rw [List.foldlM_cons] at hr
    obtain ⟨r, u, hs, hrest⟩ := run_bind_ok hr
    have ih := addServer_ok hrest
    unfold addServer at hs
    obtain ⟨directive, h1, hread, hs1⟩ := run_bind_ok hs
    obtain ⟨hd, rfl⟩ := reading_ok hread
    have hhead : s.tokens.head? = some directive := by
      rw [List.head?_eq_getElem?]
      exact token_ok hd
    have hcons : serverStatements (s :: config) =
        (if some directive = some "server".toList then s.childBlock.getD [] else []) ++
          serverStatements config := by
      rw [← hhead]
      rfl
    rw [hcons]
    by_cases hserver : directive = "server".toList
    · rw [if_pos hserver] at hs1
      obtain ⟨block, h2, hread2, hs2⟩ := run_bind_ok hs1
      obtain ⟨hb, rfl⟩ := reading_ok hread2
      have hblock : s.childBlock = some block := by
        unfold childBlock at hb
        split at hb
        · next heq =>
          cases hb
          exact heq
        · cases hb
      rw [if_pos (congrArg some hserver), hblock, Option.getD_some, List.foldlM_append,
        EStateM.run_bind, hs2]
      exact ih
    · rw [if_neg hserver] at hs1
      cases hs1
      rw [if_neg fun h => hserver (Option.some.inj h), List.nil_append]
      exact ih

end Locations

/-! ### The first statement of a location -/

/-- The factory of the first of the locations that is `l`; the first of all has the address `n`. -/
def firstFactory (l : Str) : ℕ → List (Str × FactoryKind) → Option RequestHandlerFactory
  | _, [] => none
  | n, (location, kind) :: ls =>
    if location = l then some ⟨kind, n⟩ else firstFactory l (n + 1) ls

/-- The statement number `i` is the first with the location `l`. -/
def IsFirst (ls : List (Str × FactoryKind)) (l : Str) (i : ℕ) (kind : FactoryKind) : Prop :=
  ls[i]? = some (l, kind) ∧ ∀ j kind', j < i → ls[j]? ≠ some (l, kind')

theorem firstFactory_eq_some {l : Str} {f : RequestHandlerFactory} :
    ∀ {ls : List (Str × FactoryKind)} {n : ℕ},
      firstFactory l n ls = some f ↔ ∃ i kind, IsFirst ls l i kind ∧ f = ⟨kind, n + i⟩
  | [], n => by simp [firstFactory, IsFirst]
  | (location, kind) :: ls, n => by
    unfold firstFactory
    split_ifs with hl
    · subst hl
      constructor
      · intro h
        exact ⟨0, kind, ⟨rfl, fun j _ hj => absurd hj (Nat.not_lt_zero j)⟩,
          (Option.some.inj h).symm⟩
      · rintro ⟨i, kind', ⟨hi, hfirst⟩, rfl⟩
        cases i with
        | zero =>
          cases hi
          rfl
        | succ i => exact absurd rfl (hfirst 0 kind (Nat.succ_pos i))
    · rw [firstFactory_eq_some]
      constructor
      · rintro ⟨i, kind', ⟨hi, hfirst⟩, rfl⟩
        refine ⟨i + 1, kind', ⟨hi, fun j kind'' hj => ?_⟩, by rw [Nat.add_assoc, Nat.add_comm 1]⟩
        cases j with
        | zero => exact fun h => hl (congrArg Prod.fst (Option.some.inj h))
        | succ j => exact hfirst j kind'' (Nat.lt_of_succ_lt_succ hj)
      · rintro ⟨i, kind', ⟨hi, hfirst⟩, rfl⟩
        cases i with
        | zero => exact absurd (congrArg Prod.fst (Option.some.inj hi)) hl
        | succ i =>
          exact ⟨i, kind', ⟨hi, fun j kind'' hj => hfirst (j + 1) kind'' (Nat.succ_lt_succ hj)⟩,
            by rw [Nat.add_assoc, Nat.add_comm 1]⟩

theorem firstFactory_eq_none {l : Str} : ∀ {ls : List (Str × FactoryKind)} {n : ℕ},
    firstFactory l n ls = none ↔ ∀ p ∈ ls, p.1 ≠ l
  | [], n => by simp [firstFactory]
  | (location, kind) :: ls, n => by
    unfold firstFactory
    split_ifs with hl
    · simp [hl]
    · rw [firstFactory_eq_none]
      simp [hl]

theorem lookup_insertRoute (routes : RouteMap) (location l : Str) (f : RequestHandlerFactory) :
    (insertRoute routes location f).lookup l =
      (routes.lookup l).or (if location = l then some f else none) := by
  unfold insertRoute
  cases hl : routes.lookup location with
  | some g =>
    by_cases h : location = l
    · subst h
      simp [hl]
    · simp [h]
  | none =>
    by_cases h : location = l
    · subst h
      simp [hl, Finmap.lookup_insert]
    · simp [h, Finmap.lookup_insert_of_ne _ (Ne.symm h)]

/-- **The routes lead to the first statement of each location.** -/
theorem lookup_foldlM {it : DirectoryIterator} {cwd : Loc Str} (l : Str) :
    ∀ {ss : List NginxConfigStatement} {routes routes' : RouteMap} {h h' : Heap},
      (ss.foldlM (addLocation it cwd) routes).run h = .ok routes' h' →
        routes'.lookup l =
          (routes.lookup l).or (firstFactory l h.made (ss.filterMap locationOf))
  | [], routes, _, _, _, hr => by
    cases hr
    simp [firstFactory]
  | s :: ss, routes, routes', h, h', hr => by
    rw [List.foldlM_cons] at hr
    obtain ⟨r, u, hs, hrest⟩ := run_bind_ok hr
    rw [lookup_foldlM l hrest]
    rcases addLocation_ok hs with ⟨hloc, rfl, hmade⟩ | ⟨location, kind, hloc, rfl, hmade⟩
    · rw [List.filterMap_cons_none hloc, hmade]
    · rw [List.filterMap_cons_some hloc, hmade, lookup_insertRoute, Option.or_assoc, firstFactory]
      congr 1
      split_ifs <;> simp

theorem lookup_routes {it : DirectoryIterator} {cwd : Loc Str} {config : NginxConfig} {h h' : Heap}
    {routes : RouteMap} (hr : (generateRoutes it cwd config).run h = .ok routes h') (l : Str) :
    routes.lookup l = firstFactory l h.made (locations config) := by
  rw [lookup_foldlM l (addServer_ok hr), Finmap.lookup_empty, Option.none_or]
  rfl

end Kachow.Server.Routes
