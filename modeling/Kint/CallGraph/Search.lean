import Kint.CallGraph.Run

/-!
# What the search finds

Two results about `findFunctions`.  On every value graph, cyclic or not, it ends, adds exactly
the functions that the value may point to and reports exactly whether the set grew
(`findFunctions_exact`).  And of what it takes from the value graph itself it never adds a
declaration where `Funcs` has a definition; so whether the sets of the pass hold such a
declaration is decided by the initializers alone (`reachable_prefers_iff`).

## Main ideas

* A set grows just if one of the added functions is new, so the bit of `Adds` is the change of
  the set (`Adds.changed_iff_ssubset`).
* `Superseded P funcs f` says that `f` is a declaration of which `funcs` has a definition.  The
  search resolves the functions that it takes itself (`resolve`), and these are never
  superseded.  What it takes from an entry of the map is only as good as the entry.
* The states of a run are described by single searches (`ReachableState`), so that an invariant
  has to be checked for one of them.  The preference is kept by each (`reachable_prefers`).

## Main results

* `findFunctions_exact`: the search, into a local set and into an entry.
* `reachable_prefers_iff`: in all reachable states the sets prefer definitions just if the
  initializers, which are recorded as they are, name no declaration that has a definition.
* `hook_superseded`: a variable that is initialized with a declared function keeps the
  declaration.
-/

namespace Kint.CallGraph

open Iteration Kint.Digraph

variable {L : Library} {P : Program}

/-! ## The search is exact -/

/-- A set to which functions are added grows exactly when one of them is new. -/
theorem Adds.changed_iff_ssubset {A : FuncId → Prop} {S : FuncSet} {r : Report FuncSet Empty}
    (h : Adds A S r) : r.changed = true ↔ S ⊂ r.state := by
  rw [h.1, Finset.ssubset_iff_of_subset h.subset]
  constructor
  · rintro ⟨g, hg, hS⟩
    exact ⟨g, (h.2 g).mpr (.inr hg), hS⟩
  · rintro ⟨g, hg, hS⟩
    exact ⟨g, ((h.2 g).mp hg).resolve_left hS, hS⟩

/-- Only the entry that is added to changes. -/
theorem AddsTo.other {Id Id' : String} {A : FuncId → Prop} {s : State}
    {r : Report State Empty} (h : AddsTo Id A s r) (hId : Id' ≠ Id) :
    r.state.funcPtrs Id' = s.funcPtrs Id' := by
  obtain ⟨r', -, rfl⟩ := h
  exact Function.update_of_ne hId _ _

/-- What is added to the entry, and what the report says of it. -/
theorem AddsTo.entry {Id : String} {A : FuncId → Prop} {s : State} {r : Report State Empty}
    (h : AddsTo Id A s r) :
    (∀ g, g ∈ r.state.funcPtrs Id ↔ g ∈ s.funcPtrs Id ∨ A g) ∧
      (r.changed = true ↔ s.funcPtrs Id ⊂ r.state.funcPtrs Id) := by
  obtain ⟨r', hadds, rfl⟩ := h
  simpa using And.intro hadds.2 hadds.changed_iff_ssubset

/-- `findFunctions` ends on every value graph, into a local set as into an entry
of `FuncPtrs` that the search may read itself.  The destination ends with exactly
the functions that the value may point to besides those it had, and the report
says whether it grew. -/
theorem findFunctions_exact {s : State} {V : Value} (hV : Handled P V) :
    (∀ S, ∃ r, (∀ fuel, searchFuel P ≤ fuel → findFunctions L P fuel s V S = .ok r) ∧
      (∀ g, g ∈ r.state ↔ g ∈ S ∨ MayPointTo L P s.funcs s.rel V g) ∧
      (r.changed = true ↔ S ⊂ r.state)) ∧
    ∀ Id, ∃ r, (∀ fuel, searchFuel P ≤ fuel → findFunctionsInto L P fuel Id V s = .ok r) ∧
      (∀ g, g ∈ r.state.funcPtrs Id ↔
        g ∈ s.funcPtrs Id ∨ MayPointTo L P s.funcs s.rel V g) ∧
      (∀ Id', Id' ≠ Id → r.state.funcPtrs Id' = s.funcPtrs Id') ∧
      (r.changed = true ↔ s.funcPtrs Id ⊂ r.state.funcPtrs Id) := by
  constructor
  · intro S
    obtain ⟨r, hr⟩ := findFunctions_ok (L := L) (s := s) hV le_rfl S
    have hadds := findFunctions_adds hr
    refine ⟨r, fun fuel hfuel => ?_, hadds.2, hadds.changed_iff_ssubset⟩
    rw [findFunctions_fuel hfuel, hr]
  · intro Id
    obtain ⟨r, hr⟩ : ∃ r, findFunctionsInto L P (searchFuel P) Id V s = .ok r :=
      findFunctionsInto_ok hV le_rfl
    have hadds := findFunctionsInto_addsTo hr
    refine ⟨r, fun fuel hfuel => ?_, hadds.entry.1, fun _ => hadds.other, hadds.entry.2⟩
    rw [findFunctionsInto_fuel hfuel, hr]

/-- A phi node that takes its own value around a loop through a select, beside a
declaration of a function that another module defines and an argument. -/
def phiProgram : Program where
  insts := [
    ⟨0, .other, .br 1, none, none⟩,
    ⟨1, .ptr .func, .phi [(.func 0, 0), (.inst 3, 2)], none, none⟩,
    ⟨1, .other, .condBr (.argument 2 1) 2 3, none, none⟩,
    ⟨2, .ptr .func, .select (.argument 2 1) (.inst 1) (.argument 2 0), none, none⟩,
    ⟨2, .other, .br 1, none, none⟩,
    ⟨3, .other, .ret (some (.inst 1)), none, none⟩,
    ⟨4, .other, .ret none, none, none⟩]
  blocks := [⟨2, [], 0, []⟩, ⟨2, [1], 2, [0, 2]⟩, ⟨2, [3], 4, [1]⟩, ⟨2, [], 5, [1]⟩,
    ⟨1, [], 6, []⟩]
  funcs := [
    ⟨⟨"work", .external, "a.c"⟩, false, [], .other, []⟩,
    ⟨⟨"work", .external, "b.c"⟩, false, [], .other, [4]⟩,
    ⟨⟨"pick", .external, "a.c"⟩, false, [.ptr .func, .int 1], .ptr .func, [0, 1, 2, 3]⟩]
  globals := []
  structs := []
  consts := []

/-- A state in which the declaration of `phiProgram` has a definition. -/
def phiState : State where
  funcs := fun name => if name = "work" then some 1 else none
  funcPtrs := fun _ => ∅
  callees := fun _ => none

/-- The search on the cyclic value graph of `phiProgram`. -/
theorem phi_exact :
    (∀ S, ∃ r, (∀ fuel, searchFuel phiProgram ≤ fuel →
        findFunctions .reference phiProgram fuel phiState (.inst 1) S = .ok r) ∧
      (∀ g, g ∈ r.state ↔
        g ∈ S ∨ MayPointTo .reference phiProgram phiState.funcs phiState.rel (.inst 1) g) ∧
      (r.changed = true ↔ S ⊂ r.state)) ∧
    ∀ Id, ∃ r, (∀ fuel, searchFuel phiProgram ≤ fuel →
        findFunctionsInto .reference phiProgram fuel Id (.inst 1) phiState = .ok r) ∧
      (∀ g, g ∈ r.state.funcPtrs Id ↔ g ∈ phiState.funcPtrs Id ∨
        MayPointTo .reference phiProgram phiState.funcs phiState.rel (.inst 1) g) ∧
      (∀ Id', Id' ≠ Id → r.state.funcPtrs Id' = phiState.funcPtrs Id') ∧
      (r.changed = true ↔ phiState.funcPtrs Id ⊂ r.state.funcPtrs Id) :=
  findFunctions_exact (handled_of_closed
    (l := [.inst 1, .inst 3, .func 0, .argument 2 0]) (by decide) (by decide) (by decide))

/-! ## Definitions are preferred -/

section Prefers

variable (L P)

/-- `f` is a declaration, and `Funcs` has a definition of its name. -/
def Superseded (funcs : FuncMap) (f : FuncId) : Prop :=
  (P.func f).empty = true ∧ (funcs (P.func f).name).isSome = true

/-- No set of the pass contains a declaration that has a definition. -/
structure PrefersDefinitions (s : State) : Prop where
  funcPtrs : ∀ Id, ∀ f ∈ s.funcPtrs Id, ¬ Superseded P s.funcs f
  callees : ∀ i S, s.callees i = some S → ∀ f ∈ S, ¬ Superseded P s.funcs f

/-- The states that the pass can be in after the calls of `doInitialization`: a
step is one call of `findFunctions` into `FuncPtrs` or `Callees`, or one call of
`mergeFuncSet` for an argument. -/
inductive ReachableState (modules : List Module) : State → Prop
  | init {r : Report State Empty} :
      forEach (doInitialization L P) modules .init = .ok r → ReachableState modules r.state
  | store {s : State} {fuel : ℕ} {M : Module} {F : FuncId} {i : InstId} {V pointer : Value}
      {r : Report State Empty} : ReachableState modules s →
      M ∈ modules → F ∈ M.functions → i ∈ P.instsOf F → (P.inst i).op = .store V pointer →
      findFunctionsInto L P fuel (getLoadStoreId P i) V s = .ok r →
      ReachableState modules r.state
  | ret {s : State} {fuel : ℕ} {M : Module} {F : FuncId} {i : InstId} {V : Value}
      {r : Report State Empty} : ReachableState modules s →
      M ∈ modules → F ∈ M.functions → i ∈ P.instsOf F → (P.inst i).op = .ret (some V) →
      findFunctionsInto L P fuel (getRetId L P F) V s = .ok r → ReachableState modules r.state
  -- the sets `FS` and `VS` were found in earlier states
  | argument {s s₁ s₂ : State} {fuel no : ℕ} {M : Module} {F CF : FuncId} {i : InstId}
      {callee V : Value} {args : List Value} {FS VS : Report FuncSet Empty}
      {r : Report State Empty} :
      ReachableState modules s → ReachableState modules s₁ → ReachableState modules s₂ →
      M ∈ modules → F ∈ M.functions → i ∈ P.instsOf F → (P.inst i).op = .call callee args →
      findFunctions L P fuel s₁ callee ∅ = .ok FS → CF ∈ FS.state → (V, no) ∈ args.zipIdx →
      findFunctions L P fuel s₂ V ∅ = .ok VS →
      mergeFuncSetInto (getArgId L P CF no) VS.state s = .ok r → ReachableState modules r.state
  | callee {s : State} {fuel : ℕ} {i : InstId} {r : Report State Empty} :
      ReachableState modules s → i ∈ callSites P modules → mapCallee L P fuel i s = .ok r →
      ReachableState modules r.state

variable {L P}

/-! ### The pass runs through these states -/

section Runs

variable {modules : List Module} {fuel : ℕ} {s : State} {r : Report State Empty}

/-- The searches for the argument of a call lead to reachable states. The callees come from an
earlier search in the same visit, so they are callees of the call in some reachable state. -/
theorem passArgument_reachable {M : Module} (hM : M ∈ modules) {F : FuncId}
    (hF : F ∈ M.functions) {i : InstId} (hi : i ∈ P.instsOf F) {callee : Value}
    {args : List Value} (hop : (P.inst i).op = .call callee args) {s₁ : State}
    (hs₁ : ReachableState L P modules s₁) {FS : Report FuncSet Empty}
    (hFS : findFunctions L P fuel s₁ callee ∅ = .ok FS) {arg : Value × ℕ}
    (harg : arg ∈ args.zipIdx) (h : passArgument L P fuel FS.state arg s = .ok r)
    (hs : ReachableState L P modules s) : ReachableState L P modules r.state := by
  unfold passArgument at h
  split at h
  case isFalse =>
    obtain rfl := Except.ok.inj h
    exact hs
  case isTrue =>
    obtain ⟨VS, hVS, h⟩ := bind_eq_ok.mp h
    split at h
    case isFalse =>
      obtain rfl := Except.ok.inj h
      exact hs
    case isTrue =>
      refine (Sequential.invariant (ReachableState L P modules)).forEach_spec
        (fun CF hCF s' r' h' hs' => ?_) h hs
      have hCF : CF ∈ FS.state := (L.mem_elements _ _).mp hCF
      exact .argument hs' hs₁ hs hM hF hi hop hFS hCF harg hVS h'

/-- A visit of an instruction leads from a reachable state to a reachable one. -/
theorem visitInst_reachable {M : Module} (hM : M ∈ modules) {F : FuncId}
    (hF : F ∈ M.functions) {i : InstId} (hi : i ∈ P.instsOf F)
    (h : visitInst L P fuel F i s = .ok r) (hs : ReachableState L P modules s) :
    ReachableState L P modules r.state := by
  rcases visitInst_cases h with ⟨-, rfl⟩ | ⟨V, pointer, hop, -, -, h⟩ | ⟨V, hop, -, h⟩ |
    ⟨callee, args, FS, hop, -, hFS, h⟩
  · exact hs
  · exact .store hs hM hF hi hop h
  · exact .ret hs hM hF hi hop h
  · split at h
    case isFalse =>
      subst h
      exact hs
    case isTrue =>
      exact (Sequential.invariant (ReachableState L P modules)).forEach_spec
        (fun arg harg s' r' h' => passArgument_reachable hM hF hi hop hs hFS harg h') h hs

/-- What a run of the pass returns is such a state. -/
theorem run_reachable (h : (callGraphPass L P).run fuel modules .init = .ok r) :
    ReachableState L P modules r.state := by
  have hinv : Sequential fun s (r : Report State Empty) =>
      ReachableState L P modules s → ReachableState L P modules r.state :=
    Sequential.invariant _
  obtain ⟨r₁, r₂, r₃, h₁, h₂, h₃, rfl⟩ := IterativeModulePass.run_eq_ok.mp h
  have hmid : ReachableState L P modules r₂.state := by
    refine hinv.whileChanged_spec (fun _ s r h => ?_) h₂ (.init h₁)
    refine hinv.forEach_spec (fun M hM s r h => ?_) h
    refine hinv.whileChanged_spec (fun _ s r h => ?_) h
    refine hinv.forEach_spec (fun F hF s r h => ?_) h
    exact hinv.forEach_spec (fun i hi s r => visitInst_reachable hM hF hi) h
  have hcalls : forEach (mapCallee L P fuel) (callSites P modules) r₂.state = .ok r₃ := by
    rw [← forEach_doFinalization]
    exact h₃
  show ReachableState L P modules r₃.state
  exact hinv.forEach_spec (fun i hi s r h hs => .callee hs hi h) hcalls hmid

end Runs

/-! ### What keeps the preference -/

/-- Every function in `funcs` has a body. -/
def HoldsDefinitions (P : Program) (funcs : FuncMap) : Prop :=
  ∀ name f, funcs name = some f → (P.func f).empty = false

/-- The function that a value is resolved to has no better definition. -/
theorem not_superseded_resolve {funcs : FuncMap} (hfuncs : HoldsDefinitions P funcs)
    (f : FuncId) : ¬ Superseded P funcs (resolve P funcs f) := by
  rintro ⟨hempty, hsome⟩
  unfold resolve at hempty hsome
  split at hempty
  case isFalse hf => exact hf hempty
  case isTrue hf =>
    cases hname : funcs (P.func f).name with
    | none => simp [hf, hname] at hsome
    | some d =>
      rw [hname, Option.getD_some, hfuncs _ _ hname] at hempty
      cases hempty

/-- A value may point to a declaration that has a definition only when an entry
of the map holds one. -/
theorem MayPointTo.not_superseded {funcs : FuncMap} (hfuncs : HoldsDefinitions P funcs)
    {p : FuncRel} (hp : ∀ Id, ∀ f ∈ p Id, ¬ Superseded P funcs f) {V : Value} {g : FuncId}
    (h : MayPointTo L P funcs p V g) : ¬ Superseded P funcs g := by
  obtain ⟨u, -, hg⟩ := h
  cases hg with
  | func f => exact not_superseded_resolve hfuncs f
  | argument hg => exact hp _ _ hg
  | ret _ hg => exact hp _ _ hg
  | load _ hg => exact hp _ _ hg

/-- Adding functions that are not superseded to one entry. -/
theorem AddsTo.prefers {Id : String} {A : FuncId → Prop} {s : State}
    {r : Report State Empty} (h : AddsTo Id A s r) (hs : PrefersDefinitions P s)
    (hA : ∀ g, A g → ¬ Superseded P s.funcs g) :
    r.state.funcs = s.funcs ∧ PrefersDefinitions P r.state := by
  obtain ⟨r', hadds, rfl⟩ := h
  refine ⟨rfl, fun Id' f hf => ?_, hs.callees⟩
  by_cases hId : Id' = Id
  · subst hId
    have hf : f ∈ r'.state := by simpa using hf
    exact ((hadds.2 f).mp hf).elim (hs.funcPtrs _ f) (hA f)
  · exact hs.funcPtrs Id' f (by simpa [hId] using hf)

/-- A search into a set adds nothing that is superseded, if the entries hold nothing that is. -/
theorem findFunctions_not_superseded {s : State} (hfuncs : HoldsDefinitions P s.funcs)
    (hs : PrefersDefinitions P s) {fuel : ℕ} {V : Value} {S : FuncSet}
    {r : Report FuncSet Empty} (hS : ∀ f ∈ S, ¬ Superseded P s.funcs f)
    (h : findFunctions L P fuel s V S = .ok r) : ∀ f ∈ r.state, ¬ Superseded P s.funcs f := by
  intro f hf
  rcases ((findFunctions_adds h).2 f).mp hf with hf | hf
  · exact hS f hf
  · exact hf.not_superseded hfuncs hs.funcPtrs

/-- The callees of a call prefer definitions if the entries do. They are what a search returns that
starts with the callees that are recorded already. -/
theorem mapCallee_prefers {s : State} (hfuncs : HoldsDefinitions P s.funcs)
    (hs : PrefersDefinitions P s) {fuel : ℕ} {i : InstId} {r : Report State Empty}
    (h : mapCallee L P fuel i s = .ok r) :
    r.state.funcs = s.funcs ∧ PrefersDefinitions P r.state := by
  unfold mapCallee at h
  split at h
  case h_2 =>
    obtain rfl := Except.ok.inj h
    exact ⟨rfl, hs⟩
  case h_1 callee args hop =>
    obtain ⟨r', hr', h⟩ := bind_eq_ok.mp h
    obtain rfl := Except.ok.inj h
    refine ⟨rfl, hs.funcPtrs, fun j S hS => ?_⟩
    by_cases hj : j = i
    · subst hj
      obtain rfl : r'.state = S := by simpa using hS
      refine findFunctions_not_superseded hfuncs hs (fun f hf => ?_) hr'
      cases hc : s.callees j with
      | none => simp [hc] at hf
      | some S => exact hs.callees j S hc f (by simpa [hc] using hf)
    · exact hs.callees j S (by simpa [hj] using hS)

/-! ### Initialization -/

/-- After setting definitions one by one, exactly their names are defined, each
by one of them. -/
theorem setDefinitions (fs : List FuncId) (name : String) :
    (∀ f, fs.foldl (fun m f => Function.update m (P.func f).name (some f))
        (fun _ => none) name = some f → f ∈ fs) ∧
      ((fs.foldl (fun m f => Function.update m (P.func f).name (some f))
        (fun _ => none) name).isSome = true ↔ ∃ f ∈ fs, (P.func f).name = name) := by
  induction fs using List.reverseRecOn with
  | nil => simp
  | append_singleton fs f₀ ih =>
    rw [List.foldl_append, List.foldl_cons, List.foldl_nil]
    by_cases hname : name = (P.func f₀).name
    · subst hname
      rw [Function.update_self]
      exact ⟨by simp, by simp⟩
    · rw [Function.update_of_ne hname]
      refine ⟨fun f hf => List.mem_append_left _ (ih.1 f hf), ih.2.trans ?_⟩
      have hne : (P.func f₀).name ≠ name := fun h => hname h.symm
      simp [or_and_right, exists_or, hne]

variable {modules : List Module}

theorem mem_definitions_empty {f : FuncId} (h : f ∈ definitions P modules) :
    (P.func f).empty = false := by
  obtain ⟨M, -, hf⟩ := List.mem_flatMap.mp h
  have hdef : isExternalDefinition P f = true := (List.mem_filter.mp hf).2
  rw [isExternalDefinition, Bool.and_eq_true, Bool.not_eq_true'] at hdef
  exact hdef.2

/-- The maps after the calls of `doInitialization`. -/
theorem initialized {r : Report State Empty}
    (h : forEach (doInitialization L P) modules .init = .ok r) :
    HoldsDefinitions P r.state.funcs ∧
      (∀ name, (r.state.funcs name).isSome = true ↔
        ∃ f ∈ definitions P modules, (P.func f).name = name) ∧
      (∀ Id g, g ∈ r.state.funcPtrs Id ↔ (Id, g) ∈ entries L P modules) ∧
      r.state.callees = fun _ => none := by
  obtain ⟨r', hr', hst⟩ := forEach_doInitialization (L := L) (P := P) modules .init
  obtain rfl := Except.ok.inj (hr'.symm.trans h)
  rw [hst]
  refine ⟨fun name f hf => ?_, fun name => ?_, fun Id g => ?_, rfl⟩
  · exact mem_definitions_empty ((setDefinitions (definitions P modules) name).1 f hf)
  · exact (setDefinitions (definitions P modules) name).2
  · simpa [State.init] using mem_insertEntries (entries L P modules) (fun _ => ∅) Id g

/-- No initializer entry of the modules is a declaration of a function that one of
them defines with external linkage. -/
def EntriesDefined (L : Library) (P : Program) (modules : List Module) : Prop :=
  ∀ e ∈ entries L P modules, (P.func e.2).empty = true →
    ∀ d ∈ definitions P modules, (P.func d).name ≠ (P.func e.2).name

/-- The preference at the start is that of the initializer entries. -/
theorem init_prefers_iff {r : Report State Empty}
    (h : forEach (doInitialization L P) modules .init = .ok r) :
    PrefersDefinitions P r.state ↔ EntriesDefined L P modules := by
  obtain ⟨-, hnames, hptrs, hcallees⟩ := initialized h
  constructor
  · intro hs e he hempty d hd hname
    refine hs.funcPtrs e.1 e.2 ((hptrs e.1 e.2).mpr he) ⟨hempty, ?_⟩
    exact (hnames _).mpr ⟨d, hd, hname⟩
  · intro hentries
    refine ⟨fun Id f hf hsup => ?_, fun i S hS => by rw [hcallees] at hS; cases hS⟩
    obtain ⟨d, hd, hname⟩ := (hnames _).mp hsup.2
    exact hentries (Id, f) ((hptrs Id f).mp hf) hsup.1 d hd hname

/-- Every step keeps the preference. By induction on the steps. The map of definitions is complete
once initialization is done, and is not changed afterwards; this is what the resolution of each name
relies on. -/
theorem reachable_prefers (hentries : EntriesDefined L P modules) {s : State}
    (h : ReachableState L P modules s) :
    ∀ {r : Report State Empty}, forEach (doInitialization L P) modules .init = .ok r →
      s.funcs = r.state.funcs ∧ PrefersDefinitions P s := by
  intro r₀ hinit
  have hfuncs := (initialized hinit).1
  induction h with
  | init h =>
    obtain rfl := Except.ok.inj (h.symm.trans hinit)
    exact ⟨rfl, (init_prefers_iff hinit).mpr hentries⟩
  | store _ _ _ _ _ hfind ih =>
    rw [← ih.1] at hfuncs ⊢
    exact (findFunctionsInto_addsTo hfind).prefers ih.2
      fun g hg => hg.not_superseded hfuncs ih.2.funcPtrs
  | ret _ _ _ _ _ hfind ih =>
    rw [← ih.1] at hfuncs ⊢
    exact (findFunctionsInto_addsTo hfind).prefers ih.2
      fun g hg => hg.not_superseded hfuncs ih.2.funcPtrs
  | @argument s s₁ s₂ _ _ _ _ _ _ _ _ _ _ _ _ _ _ _ _ _ _ _ _ _ _ hVS hmerge ih _ ih₂ =>
    have hfound : ∀ f ∈ _, ¬ Superseded P s₂.funcs f :=
      findFunctions_not_superseded (by rw [ih₂.1]; exact hfuncs) ih₂.2 (by simp) hVS
    rw [ih₂.1, ← ih.1] at hfound
    rw [← ih.1]
    exact (mergeFuncSetInto_addsTo hmerge).prefers ih.2 hfound
  | callee _ _ hmap ih =>
    rw [← ih.1] at hfuncs ⊢
    exact mapCallee_prefers hfuncs ih.2 hmap

/-- The sets prefer definitions in every reachable state exactly when the
initializers, which the pass collects unresolved, name no declaration that has a
definition. -/
theorem reachable_prefers_iff {modules : List Module} :
    (∀ s, ReachableState L P modules s → PrefersDefinitions P s) ↔
      EntriesDefined L P modules := by
  obtain ⟨r, hr, -⟩ := forEach_doInitialization (L := L) (P := P) modules .init
  constructor
  · intro h
    exact (init_prefers_iff hr).mp (h _ (.init hr))
  · intro hentries s hs
    exact (reachable_prefers hentries hs hr).2

/-- Two modules: one initializes a global variable with a function that it only
declares, and calls what it loads from there; the other defines the function. -/
def hookProgram : Program where
  insts := [
    ⟨0, .ptr .func, .load (.global 0) false, some "var.hook", none⟩,
    ⟨0, .other, .call (.inst 0) [], none, none⟩,
    ⟨0, .other, .ret none, none, none⟩,
    ⟨1, .other, .ret none, none, none⟩]
  blocks := [⟨1, [0, 1], 2, []⟩, ⟨2, [], 3, []⟩]
  funcs := [
    ⟨⟨"work", .external, "a.c"⟩, false, [], .other, []⟩,
    ⟨⟨"main", .external, "a.c"⟩, false, [], .other, [0]⟩,
    ⟨⟨"work", .external, "b.c"⟩, false, [], .other, [1]⟩]
  globals := [⟨⟨"hook", .external, "a.c"⟩, .ptr .func, some (.func 0)⟩]
  structs := []
  consts := []

/-- The modules of `hookProgram`. -/
def hookModules : List Module := [⟨"a.c", [0], [0, 1]⟩, ⟨"b.c", [], [2]⟩]

/-- The run on the two modules ends with the declaration as the callee, although
`Funcs` has the definition. -/
theorem hook_superseded :
    ¬ ∀ s, ReachableState .reference hookProgram hookModules s →
      PrefersDefinitions hookProgram s := by
  have hrun : resultIs ((callGraphPass .reference hookProgram).run 6 hookModules .init)
      (fun r => decide (r.state.callees 1 = some {0}) &&
        decide (r.state.funcs "work" = some 2)) = true := by decide +kernel
  obtain ⟨r, hr, hcallee⟩ := of_resultIs hrun
  simp only [Bool.and_eq_true, decide_eq_true_eq] at hcallee
  intro h
  refine (h _ (run_reachable hr)).callees 1 {0} hcallee.1 0 (by simp) ⟨rfl, ?_⟩
  show (r.state.funcs "work").isSome = true
  rw [hcallee.2]
  rfl

end Prefers

end Kint.CallGraph
