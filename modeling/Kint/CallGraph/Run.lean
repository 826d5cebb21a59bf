import Kint.CallGraph.LeastFixpoint
import Kint.LLVM.Reference
import Mathlib.Data.Set.Finite.Lattice
import Mathlib.Data.Set.Finite.List
import Mathlib.Order.Bounds.Basic

/-!
# Runs of `CallGraphPass`

The map before the iteration consists of the initializer entries (`init_state`).  Only finitely
many facts can ever be added to it (`reachable`), so the iteration ends; what it ends with is
the least closed map above the initializer entries, and `Callees` is read off from it
(`run_calleesOf`).

## Main ideas

* All functions that the pass can put anywhere are among `targets`, and all identifiers that it
  can put them under among `destinations`; both are finite lists that are read off the program.
  The map `reachable` with every target at every destination is closed, so the pass stays below
  it, and growth below it is well-founded (`wellFounded_grew`).
* `CalleesOf`: `Callees` has the entries of the calls that were visited, each with the functions
  that the called value may point to.
* `Result` describes the outcome without the pass: definitions, the least closed map, and the
  callees under it.  It is unique (`Result.unique`), and it mentions no order.

## Main results

* `run_result`: every run ends, with the described result.
* `Reordered.result`: modules, globals and functions in another order have the same description.
* `callGraphPass_least`: both together: termination, leastness and independence of the order.
-/

namespace Kint.CallGraph

open Iteration Kint.Digraph

section Run

variable (L : Library) (P : Program)

/-- The initializer entries of all modules. -/
def entries (modules : List Module) : List (String × FuncId) :=
  modules.flatMap (initializerEntries L P)

/-- The externally linked function definitions of all modules. -/
def definitions (modules : List Module) : List FuncId :=
  modules.flatMap fun M => M.functions.filter (isExternalDefinition P)

/-- Each externally linked function name is defined at most once. -/
def UniqueDefinitions (modules : List Module) : Prop :=
  ∀ f ∈ definitions P modules, ∀ g ∈ definitions P modules,
    (P.func f).name = (P.func g).name → f = g

/-- `funcs` maps the name of every definition to it, and no other name. -/
def DefinitionMap (modules : List Module) (funcs : FuncMap) : Prop :=
  ∀ name f, funcs name = some f ↔ f ∈ definitions P modules ∧ (P.func f).name = name

/-- The calls of all modules. -/
def callSites (modules : List Module) : List InstId :=
  modules.flatMap fun M => M.functions.flatMap P.instsOf

/-- `Callees` has an entry for every call among `sites`, and for nothing else,
and the entry holds the functions that the called value may point to. -/
def CalleesOf (sites : List InstId) (s : State) : Prop :=
  ∀ i, match s.callees i with
    | none => ∀ callee args, (P.inst i).op = .call callee args → i ∉ sites
    | some S => i ∈ sites ∧ ∃ callee args, (P.inst i).op = .call callee args ∧
        ∀ g, g ∈ S ↔ MayPointTo L P s.funcs s.rel callee g

variable {L P}

/-! ## Initialization -/

/-- Inserting entries one by one. -/
theorem mem_insertEntries (es : List (String × FuncId)) :
    ∀ (m : FuncPtrMap) (Id : String) (g : FuncId),
      g ∈ es.foldl (fun m e => Function.update m e.1 (insert e.2 (m e.1))) m Id ↔
        g ∈ m Id ∨ (Id, g) ∈ es := by
  induction es with
  | nil => simp
  | cons e es ih =>
    intro m Id g
    rw [List.foldl_cons, ih]
    by_cases hId : Id = e.1
    · subst hId
      simp only [Function.update_self, Finset.mem_insert, List.mem_cons, Prod.ext_iff,
        true_and]
      tauto
    · simp [hId, Prod.ext_iff]

/-- Setting definitions one by one, when no two of them have the same name. By induction from the
end of the list, since the last definition of a name is the one that stays. -/
theorem insertDefinitions {fs : List FuncId}
    (hunique : ∀ f ∈ fs, ∀ g ∈ fs, (P.func f).name = (P.func g).name → f = g) :
    ∀ (name : String) (f : FuncId),
      fs.foldl (fun m f => Function.update m (P.func f).name (some f)) (fun _ => none) name =
        some f ↔ f ∈ fs ∧ (P.func f).name = name := by
  induction fs using List.reverseRecOn with
  | nil => simp
  | append_singleton fs f₀ ih =>
    have ih := ih fun f hf g hg => hunique f (by simp [hf]) g (by simp [hg])
    intro name f
    rw [List.foldl_append, List.foldl_cons, List.foldl_nil]
    by_cases hname : name = (P.func f₀).name
    · subst hname
      rw [Function.update_self]
      constructor
      · rintro ⟨⟩
        exact ⟨by simp, rfl⟩
      · rintro ⟨hf, hname⟩
        rw [hunique f hf f₀ (by simp) hname]
    · rw [Function.update_of_ne hname, ih]
      constructor
      · exact fun ⟨hf, hname⟩ => ⟨by simp [hf], hname⟩
      · rintro ⟨hf, rfl⟩
        rcases List.mem_append.mp hf with hf | hf
        · exact ⟨hf, rfl⟩
        · rw [List.mem_singleton.mp hf] at hname
          exact absurd rfl hname

/-- The state after the initialization of all modules. -/
theorem forEach_doInitialization (modules : List Module) :
    ∀ s, ∃ r, forEach (doInitialization L P) modules s = .ok r ∧ r.state =
      { s with
        funcPtrs := (entries L P modules).foldl
          (fun m e => Function.update m e.1 (insert e.2 (m e.1))) s.funcPtrs
        funcs := (definitions P modules).foldl
          (fun m f => Function.update m (P.func f).name (some f)) s.funcs } := by
  induction modules with
  | nil => exact fun s => ⟨_, rfl, rfl⟩
  | cons M modules ih =>
    intro s
    obtain ⟨r, hr, hst⟩ := ih { s with
      funcPtrs := (initializerEntries L P M).foldl
        (fun m e => Function.update m e.1 (insert e.2 (m e.1))) s.funcPtrs
      funcs := (M.functions.filter (isExternalDefinition P)).foldl
        (fun m f => Function.update m (P.func f).name (some f)) s.funcs }
    refine ⟨_, Pass.seq_eq_ok.mpr ⟨_, r, rfl, hr, rfl⟩, ?_⟩
    simp [hst, entries, definitions, List.foldl_append]

/-- What holds of the state that the iteration starts from. -/
theorem init_state {modules : List Module} (hdef : UniqueDefinitions P modules) :
    ∃ r, forEach (doInitialization L P) modules State.init = .ok r ∧
      DefinitionMap P modules r.state.funcs ∧
      (∀ Id g, g ∈ r.state.rel Id ↔ (Id, g) ∈ entries L P modules) ∧
      r.state.callees = fun _ => none := by
  obtain ⟨r, hr, hst⟩ := forEach_doInitialization (L := L) (P := P) modules State.init
  refine ⟨r, hr, ?_, fun Id g => ?_, by rw [hst]; rfl⟩
  · rw [hst]
    exact insertDefinitions hdef
  · rw [hst]
    simpa [State.rel, State.init] using
      mem_insertEntries (entries L P modules) (fun _ => ∅) Id g

/-! ## A finite closed map -/

section Reachable

variable (P) in
/-- Every value that occurs in the heap as an operand. -/
def mentioned : List Value :=
  P.insts.flatMap (fun I => I.op.operands) ++ P.consts.flatMap fun c =>
    match c with
    | .cast _ v _ => [v]
    | .binary _ lhs rhs _ => [lhs, rhs]
    | .gep base idx _ => base :: idx
    | .other _ => []

/-- The operands of an instruction are mentioned in the heap. -/
theorem mem_mentioned_of_operand {i : InstId} {v : Value} (h : v ∈ (P.inst i).op.operands) :
    v ∈ mentioned P := by
  refine List.mem_append_left _ (List.mem_flatMap.mpr ?_)
  by_cases hi : i < P.insts.length
  · exact ⟨P.insts[i], List.getElem_mem hi, by simpa [Program.inst, hi] using h⟩
  · simp [Program.inst, hi, Opcode.operands] at h

/-- What the search goes on with is mentioned in the heap. -/
theorem mem_mentioned_of_source {u v : Value} (h : v ∈ sources P u) : v ∈ mentioned P := by
  cases u with
  | inst i =>
    refine mem_mentioned_of_operand (i := i) ?_
    simp only [sources] at h
    split at h <;> simp_all [Opcode.operands]
  | constExpr c =>
    simp only [sources] at h
    split at h
    · next op w ty hc =>
      refine List.mem_append_right _ (List.mem_flatMap.mpr ?_)
      by_cases hlt : c < P.consts.length
      · refine ⟨P.consts[c], List.getElem_mem hlt, ?_⟩
        have : P.consts[c] = .cast op w ty := by simpa [Program.const, hlt] using hc
        simpa [this] using h
      · simp [Program.const, hlt] at hc
    · simp at h
  | constInt | null | undef | constOther | func | global | argument | inlineAsm => cases h

/-- What the pass searches from is mentioned in the heap. -/
theorem mem_mentioned_of_query {F : FuncId} {i : InstId} {V : Value} (h : V ∈ queries P F i) :
    V ∈ mentioned P := by
  refine mem_mentioned_of_operand (i := i) ?_
  unfold queries at h
  split at h <;> simp_all [Opcode.operands]
  all_goals grind

variable (L P) in
/-- Every function that the pass can put into a set. -/
def targets (funcs : FuncMap) (modules : List Module) : List FuncId :=
  ((mentioned P).filterMap fun v =>
    match v with
    | .func f => some (resolve P funcs f)
    | _ => none) ++ (entries L P modules).map Prod.snd

variable (L P) in
/-- Every identifier whose entry the pass can add to. -/
def destinations (funcs : FuncMap) (modules : List Module) : List String :=
  (modules.flatMap fun M => M.functions.flatMap fun F =>
    getRetId L P F :: (P.instsOf F).flatMap fun i =>
      getLoadStoreId P i ::
        match (P.inst i).op with
        | .call _ args =>
          (targets L P funcs modules).flatMap fun CF =>
            (List.range args.length).map (getArgId L P CF)
        | _ => []) ++ (entries L P modules).map Prod.fst

variable (L P) in
/-- The map with every target in every destination. -/
def reachable (funcs : FuncMap) (modules : List Module) : FuncRel :=
  fun Id => {g | Id ∈ destinations L P funcs modules ∧ g ∈ targets L P funcs modules}

variable {funcs : FuncMap} {modules : List Module}

/-- What a mentioned value may point to is a target. -/
theorem mem_targets_of_mayPointTo {V : Value} {g : FuncId} (hV : V ∈ mentioned P)
    (h : MayPointTo L P funcs (reachable L P funcs modules) V g) :
    g ∈ targets L P funcs modules := by
  obtain ⟨u, hu, hg⟩ := h
  have hmem : u ∈ mentioned P := by
    cases hu with
    | start => exact hV
    | step _ hsrc _ => exact mem_mentioned_of_source hsrc
  cases hg with
  | func f =>
    exact List.mem_append_left _ (List.mem_filterMap.mpr ⟨.func f, hmem, rfl⟩)
  | argument hg => exact hg.2
  | ret _ hg => exact hg.2
  | load _ hg => exact hg.2

/-- The map with every target in every destination is closed under the rules. It is the greatest map
that a run can come to, and bounds the runs from above: without it the least fixpoint would not be
known to be finite. -/
theorem reachable_closed : Closed L P funcs modules (reachable L P funcs modules) := by
  intro M hM F hF i hi
  have hdest : ∀ {Id}, Id = getRetId L P F ∨ Id = getLoadStoreId P i ∨
      (∃ callee args CF no, (P.inst i).op = .call callee args ∧
        CF ∈ targets L P funcs modules ∧ no < args.length ∧ Id = getArgId L P CF no) →
      Id ∈ destinations L P funcs modules := by
    intro Id hId
    refine List.mem_append_left _ (List.mem_flatMap.mpr ⟨M, hM, List.mem_flatMap.mpr ⟨F, hF, ?_⟩⟩)
    rcases hId with rfl | rfl | ⟨callee, args, CF, no, hop, hCF, hno, rfl⟩
    · exact List.mem_cons_self
    · exact List.mem_cons_of_mem _ (List.mem_flatMap.mpr ⟨i, hi, List.mem_cons_self⟩)
    · refine List.mem_cons_of_mem _ (List.mem_flatMap.mpr ⟨i, hi, List.mem_cons_of_mem _ ?_⟩)
      simp only [hop]
      exact List.mem_flatMap.mpr ⟨CF, hCF, List.mem_map.mpr ⟨no, List.mem_range.mpr hno, rfl⟩⟩
  unfold InstClosed
  split
  · next V pointer hop =>
    intro hty _ g hg
    refine ⟨hdest (.inr (.inl rfl)), mem_targets_of_mayPointTo ?_ hg⟩
    exact mem_mentioned_of_query (F := F) (i := i) (by simp [queries, hop, hty])
  · next V hop =>
    intro hty g hg
    refine ⟨hdest (.inl rfl), mem_targets_of_mayPointTo ?_ hg⟩
    exact mem_mentioned_of_query (F := F) (i := i) (by simp [queries, hop, hty])
  · next callee args hop =>
    rintro _ CF hCF ⟨V, no⟩ harg hty g hg
    obtain ⟨hno, hV⟩ := List.mem_zipIdx' harg
    have hVmem : V ∈ args := hV ▸ List.getElem_mem hno
    have hcallee : CF ∈ targets L P funcs modules :=
      mem_targets_of_mayPointTo
        (mem_mentioned_of_query (F := F) (i := i) (by simp [queries, hop])) hCF
    refine ⟨hdest (.inr (.inr ⟨callee, args, CF, no, hop, hcallee, hno, rfl⟩)),
      mem_targets_of_mayPointTo ?_ hg⟩
    exact mem_mentioned_of_query (F := F) (i := i) (by simp [queries, hop, hVmem, hty])
  · trivial

/-- The initializer entries are below that map. -/
theorem entries_le_reachable {s : State}
    (h : ∀ Id g, g ∈ s.rel Id ↔ (Id, g) ∈ entries L P modules) :
    s.rel ≤ reachable L P funcs modules := by
  intro Id g hg
  have hmem := (h Id g).mp hg
  exact ⟨List.mem_append_right _ (List.mem_map.mpr ⟨_, hmem, rfl⟩),
    List.mem_append_right _ (List.mem_map.mpr ⟨_, hmem, rfl⟩)⟩

/-- Growth below the finite map has no infinite ascent. -/
theorem wellFounded_grew :
    WellFounded fun b a => Below funcs (reachable L P funcs modules) b ∧ Grew a b := by
  have hfinite : {x : String × FuncId | x.2 ∈ reachable L P funcs modules x.1}.Finite := by
    refine ((destinations L P funcs modules).finite_toSet.prod
      (targets L P funcs modules).finite_toSet).subset ?_
    rintro ⟨Id, g⟩ ⟨hId, hg⟩
    exact ⟨hId, hg⟩
  refine Subrelation.wf ?_ (wellFounded_growth hfinite fun s : State =>
    {x : String × FuncId | x.2 ∈ s.rel x.1})
  rintro b a ⟨hb, -, -, hlt⟩
  refine ⟨fun x hx => hb.2 x.1 hx, fun x hx => hlt.le x.1 hx, fun hsub => hlt.not_ge ?_⟩
  exact fun Id g hg => hsub (a := (Id, g)) hg

end Reachable

/-! ## The run ends -/

section Termination

variable {funcs : FuncMap} {modules : List Module}

theorem step_below {M : Module} (hM : M ∈ modules) {s : State} {r : Report State Empty}
    (h : Step (fun funcs p => ∀ F ∈ M.functions, ∀ i ∈ P.instsOf F,
      InstClosed L P funcs p F i) s r)
    (hs : Below funcs (reachable L P funcs modules) s) :
    Below funcs (reachable L P funcs modules) r.state := by
  obtain rfl := hs.1
  exact h.below _ (reachable_closed M hM) hs

/-- An exact report of a change is about a map that has grown. -/
theorem exact_grew_of_changed {s : State} {r : Report State Empty} (h : r.Exact Grew s)
    (hc : r.changed = true) : Grew s r.state := by
  rcases h with ⟨hc', -⟩ | ⟨-, h⟩
  · simp [hc] at hc'
  · exact h

/-- The loop over one module ends, since each round that goes on makes the map grow below a finite
one. -/
theorem doModulePass_settles (hval : WellHandled P modules) {M : Module} (hM : M ∈ modules)
    {s : State} (hs : Below funcs (reachable L P funcs modules) s) :
    Settles (fun fuel => doModulePass L P fuel M) s := by
  refine whileChanged_settles
    (f := fun fuel _ => forEach (runOnFunction L P fuel) M.functions)
    (R := Grew) wellFounded_grew (fun itr s _ => ?_) (fun m itr s r hs h => ?_)
    (fun m itr s r _ h hc => ?_) hs 1
  · obtain ⟨r, hr⟩ := forEach_ok (I := fun _ => True)
      (fun F hF s _ => runOnFunction_ok (L := L) hval hM hF le_rfl s)
      (fun _ _ _ _ _ _ => trivial) (s := s) trivial
    refine settles_of_ok (r := r) (n := searchFuel P) fun m hm => ?_
    rw [forEach_congr fun F _ => runOnFunction_fuel hm]
    exact hr
  · exact step_below hM (forEach_step (fun _ _ _ _ h => runOnFunction_step h) h) hs
  · exact exact_grew_of_changed
      (forEach_step (fun _ _ _ _ h => runOnFunction_step h) h).exact hc

theorem iterate_settles (hval : WellHandled P modules) {s : State}
    (hs : Below funcs (reachable L P funcs modules) s) :
    ∃ r n, ∀ fuel, n ≤ fuel → (callGraphPass L P).iterate fuel modules s = .ok r := by
  have hround : ∀ fuel s r, Below funcs (reachable L P funcs modules) s →
      forEach (doModulePass L P fuel) modules s = .ok r →
      Below funcs (reachable L P funcs modules) r.state := fun fuel s r hs h =>
    (Sequential.invariant _).forEach_spec
      (fun M hM s r h hs => step_below hM (doModulePass_step h) hs) h hs
  have hsettles : Settles (fun fuel => (callGraphPass L P).iterate fuel modules) s := by
    refine whileChanged_settles
      (f := fun fuel _ => forEach (doModulePass L P fuel) modules)
      (R := Grew) wellFounded_grew (fun itr s hs => ?_) (fun m itr s r => hround m s r)
      (fun m itr s r _ h hc => ?_) hs 1
    · exact forEach_settles (fun M hM s hs => doModulePass_settles hval hM hs)
        (fun M hM m s r hs h => step_below hM (doModulePass_step h) hs) hs
    · exact exact_grew_of_changed
        (forEach_step (fun _ _ _ _ h => doModulePass_step h) h).exact hc
  exact hsettles.ok fun fuel h => iterate_ne_fatal hval h s

end Termination

/-! ## Finalization -/

section Finalization

variable {fuel : ℕ} {s : State} {r : Report State Empty}

/-- Without entries in `Callees` no call was visited. -/
theorem calleesOf_nil (h : s.callees = fun _ => none) : CalleesOf L P [] s := by
  intro i
  simp [h]

/-- What holds of the entry of an instruction holds after a visit of another call site, or
of something that is no call. -/
theorem CalleesOf.other {sites : List InstId} {i j : InstId} (hs : CalleesOf L P sites s)
    (hj : ∀ callee args, (P.inst j).op = .call callee args → j ≠ i) :
    match s.callees j with
    | none => ∀ callee args, (P.inst j).op = .call callee args → j ∉ sites ++ [i]
    | some S => j ∈ sites ++ [i] ∧ ∃ callee args, (P.inst j).op = .call callee args ∧
        ∀ g, g ∈ S ↔ MayPointTo L P s.funcs s.rel callee g := by
  have hold := hs j
  cases hc : s.callees j with
  | none =>
    rw [hc] at hold
    intro callee args hop
    simp [hold callee args hop, hj callee args hop]
  | some S =>
    rw [hc] at hold
    exact ⟨by simp [hold.1], hold.2⟩

/-- One call site gets its entry; `Funcs` and `FuncPtrs` stay. The searches go through the final map
of functions, which is why the loop over call sites comes after the iteration. -/
theorem mapCallee_calleesOf {sites : List InstId} {i : InstId} (hs : CalleesOf L P sites s)
    (h : mapCallee L P fuel i s = .ok r) :
    CalleesOf L P (sites ++ [i]) r.state ∧ r.state.funcs = s.funcs ∧
      r.state.funcPtrs = s.funcPtrs := by
  unfold mapCallee at h
  cases hop : (P.inst i).op with
  | call callee args =>
    simp only [hop] at h
    obtain ⟨r', hr', h⟩ := bind_eq_ok.mp h
    obtain rfl := Except.ok.inj h
    refine ⟨fun j => ?_, rfl, rfl⟩
    by_cases hj : j = i
    · subst hj
      simp only [Function.update_self]
      refine ⟨by simp, callee, args, hop, fun g => ?_⟩
      rw [(findFunctions_adds hr').2]
      -- an entry from an earlier visit holds the same functions
      have hold : g ∈ (s.callees j).getD ∅ → MayPointTo L P s.funcs s.rel callee g := by
        intro hg
        have hj := hs j
        cases hc : s.callees j with
        | none => simp [hc] at hg
        | some S =>
          rw [hc] at hj hg
          obtain ⟨-, callee', args', hop', hS⟩ := hj
          obtain ⟨rfl, rfl⟩ : callee = callee' ∧ args = args' := by simpa [hop] using hop'
          exact (hS g).mp hg
      exact ⟨fun hg => hg.elim hold id, .inr⟩
    · simp only [Function.update_of_ne hj]
      exact hs.other fun _ _ _ => hj
  | _ =>
    simp only [hop] at h
    obtain rfl := Except.ok.inj h
    refine ⟨fun j => ?_, rfl, rfl⟩
    refine hs.other fun callee args hop' => ?_
    rintro rfl
    rw [hop] at hop'
    cases hop'

/-- Visiting a list of calls gives each of them its entry; by induction on the list. -/
theorem forEach_mapCallee_calleesOf :
    ∀ {is sites : List InstId} {s : State} {r : Report State Empty}, CalleesOf L P sites s →
      forEach (mapCallee L P fuel) is s = .ok r →
      CalleesOf L P (sites ++ is) r.state ∧ r.state.funcs = s.funcs ∧
        r.state.funcPtrs = s.funcPtrs := by
  intro is
  induction is with
  | nil =>
    intro sites s r hs h
    obtain rfl := Except.ok.inj h
    exact ⟨by simpa using hs, rfl, rfl⟩
  | cons i is ih =>
    intro sites s r hs h
    obtain ⟨a, b, ha, hb, rfl⟩ := Pass.seq_eq_ok.mp h
    obtain ⟨hs', hf, hp⟩ := mapCallee_calleesOf hs ha
    obtain ⟨hs'', hf', hp'⟩ := ih hs' hb
    exact ⟨by simpa using hs'', hf'.trans hf, hp'.trans hp⟩

/-- The finalization of all modules visits the calls of all modules. -/
theorem forEach_doFinalization (modules : List Module) :
    forEach (doFinalization L P fuel) modules =
      forEach (mapCallee L P fuel) (callSites P modules) := by
  have hmodule : doFinalization L P fuel =
      fun M => forEach (mapCallee L P fuel) (M.functions.flatMap P.instsOf) :=
    funext fun M => forEach_forEach _ _ _
  rw [hmodule, forEach_forEach, callSites]

/-- The search for the callees of a call of the modules has a result. -/
theorem mapCallee_ok {modules : List Module} (hval : WellHandled P modules) {i : InstId}
    (hi : i ∈ callSites P modules) (h : searchFuel P ≤ fuel) (s : State) :
    ∃ r, mapCallee L P fuel i s = .ok r := by
  obtain ⟨M, hM, hi⟩ := List.mem_flatMap.mp hi
  obtain ⟨F, hF, hi⟩ := List.mem_flatMap.mp hi
  unfold mapCallee
  cases hop : (P.inst i).op with
  | call callee args =>
    have hcallee := hval.query M hM F hF i hi callee (by simp [queries, hop])
    obtain ⟨r, hr⟩ := findFunctions_ok (L := L) (s := s) hcallee h ((s.callees i).getD ∅)
    exact ⟨_, bind_eq_ok.mpr ⟨r, hr, rfl⟩⟩
  | _ => exact ⟨_, rfl⟩

end Finalization

/-! ## The result -/

section Result

variable (L P) in
/-- What the pass is for: `Funcs` maps names to definitions, `FuncPtrs` is the
least map above the initializer entries that is closed under the rules, and
`Callees` is read off from it. -/
structure Result (modules : List Module) (s : State) : Prop where
  funcs : DefinitionMap P modules s.funcs
  least : IsLeast {p : FuncRel | (∀ e ∈ entries L P modules, e.2 ∈ p e.1) ∧
    Closed L P s.funcs modules p} s.rel
  callees : CalleesOf L P (callSites P modules) s

/-- The result is determined by the modules. The definitions are determined by the names, the map of
functions as a least fixpoint, and the callees of a call site by these two. -/
theorem Result.unique {modules : List Module} {s s' : State} (h : Result L P modules s)
    (h' : Result L P modules s') : s = s' := by
  have hfuncs : s.funcs = s'.funcs := by
    funext name
    refine Option.ext fun f => ?_
    rw [h.funcs, h'.funcs]
  have hrel : s.rel = s'.rel := by
    refine h.least.unique ?_
    rw [hfuncs]
    exact h'.least
  have hptrs : s.funcPtrs = s'.funcPtrs :=
    funext fun Id => Finset.coe_injective (congrFun hrel Id)
  have hcallees : s.callees = s'.callees := by
    funext i
    have hi := h.callees i
    have hi' := h'.callees i
    rw [hfuncs, hrel] at hi
    cases hc : s.callees i with
    | none =>
      cases hc' : s'.callees i with
      | none => rfl
      | some S' =>
        rw [hc] at hi
        rw [hc'] at hi'
        obtain ⟨hmem, callee, args, hop, -⟩ := hi'
        exact absurd hmem (hi callee args hop)
    | some S =>
      rw [hc] at hi
      obtain ⟨hmem, callee, args, hop, hS⟩ := hi
      cases hc' : s'.callees i with
      | none =>
        rw [hc'] at hi'
        exact absurd hmem (hi' callee args hop)
      | some S' =>
        rw [hc'] at hi'
        obtain ⟨-, callee', args', hop', hS'⟩ := hi'
        obtain ⟨rfl, rfl⟩ : callee = callee' ∧ args = args' := by simpa [hop] using hop'
        exact congrArg some (Finset.ext fun g => (hS g).trans (hS' g).symm)
  cases s
  cases s'
  simp_all

variable (L P) in
/-- `CallGraphPass::run` terminates, and with `s`: this is what it returns with
any sufficient fuel. -/
def EndsIn (modules : List Module) (s : State) : Prop :=
  ∃ n, ∀ fuel, n ≤ fuel → ∃ r,
    (callGraphPass L P).run fuel modules .init = .ok r ∧ r.state = s

/-- Every run ends, with the described result. The initialization establishes the entries of the
initializers, the iteration ends by the bound `reachable`, and the last loop adds the callees. -/
theorem run_result {modules : List Module} (hdef : UniqueDefinitions P modules)
    (hval : WellHandled P modules) : ∃ s, Result L P modules s ∧ EndsIn L P modules s := by
  obtain ⟨r₁, hr₁, hfuncs, hentries, hcallees⟩ := init_state (L := L) hdef
  have hbelow : Below r₁.state.funcs (reachable L P r₁.state.funcs modules) r₁.state :=
    ⟨rfl, entries_le_reachable hentries⟩
  obtain ⟨r₂, n, hr₂⟩ := iterate_settles hval hbelow
  obtain ⟨hstep, hclosed⟩ := iterate_step (hr₂ n le_rfl)
  have hfuncs₂ : r₂.state.funcs = r₁.state.funcs := exact_funcs hstep.exact
  have hcallees₂ : r₂.state.callees = fun _ => none := by
    rcases hstep.exact with ⟨-, h⟩ | ⟨-, h⟩
    · rw [h, hcallees]
    · rw [h.2.1, hcallees]
  have hle : r₁.state.rel ≤ r₂.state.rel := by
    rcases hstep.exact with ⟨-, h⟩ | ⟨-, h⟩
    · rw [h]
    · exact fun Id g hg => h.2.2.le Id hg
  -- the result of the finalization satisfies the description, whatever the fuel
  have hfinal : ∀ fuel, max n (searchFuel P) ≤ fuel → ∃ r,
      (callGraphPass L P).run fuel modules .init = .ok r ∧ Result L P modules r.state := by
    intro fuel hfuel
    obtain ⟨r₃, hr₃⟩ := forEach_ok (I := fun _ => True)
      (fun i hi s _ => mapCallee_ok (L := L) hval hi (by omega : searchFuel P ≤ fuel) s)
      (fun _ _ _ _ _ _ => trivial) (s := r₂.state) trivial
    obtain ⟨hcalls, hfuncs₃, hptrs₃⟩ :=
      forEach_mapCallee_calleesOf (calleesOf_nil hcallees₂) hr₃
    have hrel₃ : r₃.state.rel = r₂.state.rel := by
      unfold State.rel
      rw [hptrs₃]
    have hfinalize : forEach (doFinalization L P fuel) modules r₂.state = .ok r₃ := by
      rw [forEach_doFinalization, hr₃]
    refine ⟨r₁.andThen (r₂.andThen r₃), IterativeModulePass.run_eq_ok.mpr
      ⟨r₁, r₂, r₃, hr₁, hr₂ fuel (by omega), hfinalize, rfl⟩, ?_⟩
    change Result L P modules r₃.state
    refine ⟨by rwa [hfuncs₃, hfuncs₂], ⟨⟨fun e he => ?_, ?_⟩, ?_⟩, hcalls⟩
    · rw [hrel₃]
      exact hle e.1 ((hentries e.1 e.2).mpr he)
    · rwa [hrel₃, hfuncs₃]
    · rintro p ⟨hp, hpclosed⟩
      rw [hfuncs₃, hfuncs₂] at hpclosed
      rw [hrel₃]
      refine (hstep.below p hpclosed ⟨rfl, fun Id g hg => ?_⟩).2
      exact hp (Id, g) ((hentries Id g).mp hg)
  obtain ⟨r, -, hr⟩ := hfinal _ le_rfl
  refine ⟨r.state, hr, max n (searchFuel P), fun fuel hfuel => ?_⟩
  obtain ⟨r', hr', hres⟩ := hfinal fuel hfuel
  exact ⟨r', hr', hres.unique hr⟩

/-- Whatever the run of the pass returns, its entries in `Callees` are those of
the call sites. -/
theorem run_calleesOf {modules : List Module} {fuel : ℕ} {r : Report State Empty}
    (h : (callGraphPass L P).run fuel modules .init = .ok r) :
    CalleesOf L P (callSites P modules) r.state := by
  obtain ⟨r₁, r₂, r₃, h₁, h₂, h₃, rfl⟩ := IterativeModulePass.run_eq_ok.mp h
  obtain ⟨r₁', h₁', hst⟩ := forEach_doInitialization (L := L) (P := P) modules .init
  obtain rfl := Except.ok.inj (h₁'.symm.trans h₁)
  have hcallees : r₂.state.callees = fun _ => none := by
    rcases (iterate_step h₂).1.exact with ⟨-, h⟩ | ⟨-, h⟩
    · rw [h, hst]
      rfl
    · rw [h.2.1, hst]
      rfl
  have hfinal : forEach (mapCallee L P fuel) (callSites P modules) r₂.state = .ok r₃ := by
    rw [← forEach_doFinalization]
    exact h₃
  exact (forEach_mapCallee_calleesOf (calleesOf_nil hcallees) hfinal).1

/-- A function points to what it is resolved to. -/
theorem mayPointTo_func {funcs : FuncMap} {p : FuncRel} {f g : FuncId} :
    MayPointTo L P funcs p (.func f) g ↔ g = resolve P funcs f := by
  constructor
  · rintro ⟨u, hu, hg⟩
    -- `findFunctions` goes on with no operand of a function
    obtain rfl : u = .func f := by
      clear hg
      induction hu with
      | start => rfl
      | step _ hsource _ ih =>
        subst ih
        cases hsource
    cases hg
    rfl
  · rintro rfl
    exact ⟨_, .start, .func f⟩

/-- A direct call has one possible callee at most. -/
theorem CalleesOf.direct {sites : List InstId} {s : State} (hs : CalleesOf L P sites s)
    {i : InstId} {f : FuncId} {args : List Value} {S : FuncSet}
    (hop : (P.inst i).op = .call (.func f) args) (hS : s.callees i = some S) :
    S = {resolve P s.funcs f} := by
  have hi := hs i
  rw [hS] at hi
  obtain ⟨-, callee, args', hop', hmem⟩ := hi
  obtain ⟨rfl, -⟩ := Opcode.call.inj (hop.symm.trans hop')
  ext g
  rw [hmem, mayPointTo_func, Finset.mem_singleton]

/-! ## Order -/

/-- The same module with its globals and functions in another order. -/
structure ReorderedModule (M M' : Module) : Prop where
  identifier : M.identifier = M'.identifier
  globals : M.globals.Perm M'.globals
  functions : M.functions.Perm M'.functions

/-- The same modules in another order, each in another order. -/
def Reordered (modules modules' : List Module) : Prop :=
  ∃ l, modules.Perm l ∧ List.Forall₂ ReorderedModule l modules'

/-- Every module has a counterpart in the other list. -/
def Covers (modules modules' : List Module) : Prop :=
  ∀ M ∈ modules, ∃ M' ∈ modules', ReorderedModule M M'

theorem ReorderedModule.symm {M M' : Module} (h : ReorderedModule M M') :
    ReorderedModule M' M :=
  ⟨h.identifier.symm, h.globals.symm, h.functions.symm⟩

/-- Lists of modules that are reorderings of each other cover each other. The modules may change
places, and the functions and globals in each of them may, too. -/
theorem Reordered.covers {modules modules' : List Module} (h : Reordered modules modules') :
    Covers modules modules' ∧ Covers modules' modules := by
  obtain ⟨l, hperm, hl⟩ := h
  have hforall : ∀ {l l' : List Module}, List.Forall₂ ReorderedModule l l' →
      Covers l l' ∧ Covers l' l := by
    intro l l' h
    induction h with
    | nil => exact ⟨by simp [Covers], by simp [Covers]⟩
    | @cons M M' l l' hM _ ih =>
      constructor
      · rintro N (_ | ⟨_, hN⟩)
        · exact ⟨M', List.mem_cons_self, hM⟩
        · obtain ⟨N', hN', hNN'⟩ := ih.1 N hN
          exact ⟨N', List.mem_cons_of_mem _ hN', hNN'⟩
      · rintro N (_ | ⟨_, hN⟩)
        · exact ⟨M, List.mem_cons_self, hM.symm⟩
        · obtain ⟨N', hN', hNN'⟩ := ih.2 N hN
          exact ⟨N', List.mem_cons_of_mem _ hN', hNN'⟩
  refine ⟨fun M hM => (hforall hl).1 M (hperm.mem_iff.mp hM), fun M' hM' => ?_⟩
  obtain ⟨M, hM, hMM'⟩ := (hforall hl).2 M' hM'
  exact ⟨M, hperm.mem_iff.mpr hM, hMM'⟩

section Covers

variable {modules modules' : List Module} (h : Covers modules modules')
include h

/-- The definitions of covered modules are among those of the others. -/
theorem Covers.definitions {f : FuncId} (hf : f ∈ definitions P modules) :
    f ∈ definitions P modules' := by
  obtain ⟨M, hM, hf⟩ := List.mem_flatMap.mp hf
  obtain ⟨M', hM', hMM'⟩ := h M hM
  exact List.mem_flatMap.mpr ⟨M', hM', (hMM'.functions.filter _).mem_iff.mp hf⟩

/-- The initializer entries of covered modules are among those of the others. -/
theorem Covers.entries {e : String × FuncId} (he : e ∈ entries L P modules) :
    e ∈ entries L P modules' := by
  obtain ⟨M, hM, he⟩ := List.mem_flatMap.mp he
  obtain ⟨M', hM', hMM'⟩ := h M hM
  refine List.mem_flatMap.mpr ⟨M', hM', ?_⟩
  unfold initializerEntries at he ⊢
  rw [← hMM'.identifier]
  exact (hMM'.globals.flatMap_right _).mem_iff.mp he

/-- The calls of covered modules are among those of the others. -/
theorem Covers.callSites {i : InstId} (hi : i ∈ callSites P modules) :
    i ∈ callSites P modules' := by
  obtain ⟨M, hM, hi⟩ := List.mem_flatMap.mp hi
  obtain ⟨M', hM', hMM'⟩ := h M hM
  exact List.mem_flatMap.mpr ⟨M', hM', (hMM'.functions.flatMap_right _).mem_iff.mp hi⟩

/-- A map that is closed for more modules is closed for fewer. -/
theorem Covers.closed {funcs : FuncMap} {p : FuncRel} (hp : Closed L P funcs modules' p) :
    Closed L P funcs modules p := by
  intro M hM F hF i hi
  obtain ⟨M', hM', hMM'⟩ := h M hM
  exact hp M' hM' F (hMM'.functions.mem_iff.mp hF) i hi

/-- Covered modules have no other values to handle. -/
theorem Covers.wellHandled (hval : WellHandled P modules') : WellHandled P modules where
  query M hM F hF := by
    obtain ⟨M', hM', hMM'⟩ := h M hM
    exact hval.query M' hM' F (hMM'.functions.mem_iff.mp hF)
  ret M hM F hF := by
    obtain ⟨M', hM', hMM'⟩ := h M hM
    exact hval.ret M' hM' F (hMM'.functions.mem_iff.mp hF)

end Covers

/-- The description of the result does not mention the order. Each clause of the description
quantifies over modules and functions, and a reordering has the same ones. -/
theorem Reordered.result {modules modules' : List Module} (h : Reordered modules modules')
    {s : State} (hs : Result L P modules s) : Result L P modules' s := by
  obtain ⟨hto, hfrom⟩ := h.covers
  refine ⟨fun name f => ?_, ?_, fun i => ?_⟩
  · rw [hs.funcs]
    exact and_congr_left fun _ => ⟨hto.definitions, hfrom.definitions⟩
  · have hset : {p : FuncRel | (∀ e ∈ entries L P modules', e.2 ∈ p e.1) ∧
          Closed L P s.funcs modules' p} =
        {p : FuncRel | (∀ e ∈ entries L P modules, e.2 ∈ p e.1) ∧
          Closed L P s.funcs modules p} :=
      Set.ext fun p => and_congr
        ⟨fun hp e he => hp e (hto.entries he), fun hp e he => hp e (hfrom.entries he)⟩
        ⟨hto.closed, hfrom.closed⟩
    rw [hset]
    exact hs.least
  · have hi := hs.callees i
    cases hc : s.callees i with
    | none =>
      rw [hc] at hi
      exact fun callee args hop hmem => hi callee args hop (hfrom.callSites hmem)
    | some S =>
      rw [hc] at hi
      exact ⟨hto.callSites hi.1, hi.2⟩

/-- `CallGraphPass::run` ends, with the least map closed under the rules and the
callees it implies, and with the same result for every order of the modules and
of what is in them. -/
theorem callGraphPass_least {modules : List Module} (hdef : UniqueDefinitions P modules)
    (hval : WellHandled P modules) :
    ∃ s, EndsIn L P modules s ∧ Result L P modules s ∧
      ∀ modules', Reordered modules modules' → EndsIn L P modules' s := by
  obtain ⟨s, hs, hrun⟩ := run_result (L := L) hdef hval
  refine ⟨s, hrun, hs, fun modules' h => ?_⟩
  obtain ⟨hto, hfrom⟩ := h.covers
  have hdef' : UniqueDefinitions P modules' := fun f hf g hg =>
    hdef f (hfrom.definitions hf) g (hfrom.definitions hg)
  obtain ⟨s', hs', hrun'⟩ := run_result (L := L) hdef' (hfrom.wellHandled hval)
  rwa [hs'.unique (h.result hs)] at hrun'

/-- A closed list of values of the right kinds shows that values are handled. -/
theorem handled_of_closed {l : List Value} (hsrc : ∀ u ∈ l, ∀ v ∈ sources P u, v ∈ l)
    (hkind : ∀ u ∈ l, handles P u = true) {V : Value} (hV : V ∈ l) : Handled P V := by
  intro u hu
  refine hkind u ?_
  induction hu with
  | start => exact hV
  | step _ h _ ih => exact hsrc _ ih _ h

/-- Two modules: one defines a function and stores it into a global variable of
the other, which calls what it loads from there. -/
def callbackProgram : Program where
  insts := [
    ⟨0, .other, .ret none, none, none⟩,
    ⟨1, .other, .store (.func 0) (.global 0), some "var.hook", none⟩,
    ⟨1, .other, .ret none, none, none⟩,
    ⟨2, .ptr .func, .load (.global 0) false, some "var.hook", none⟩,
    ⟨2, .other, .call (.inst 3) [.inst 3], none, none⟩,
    ⟨2, .other, .ret none, none, none⟩]
  blocks := [⟨0, [], 0, []⟩, ⟨1, [1], 2, []⟩, ⟨2, [3, 4], 5, []⟩]
  funcs := [
    ⟨⟨"work", .internal, "a.c"⟩, false, [.ptr .func], .other, [0]⟩,
    ⟨⟨"setup", .external, "a.c"⟩, false, [], .other, [1]⟩,
    ⟨⟨"main", .external, "b.c"⟩, false, [], .other, [2]⟩]
  globals := [⟨⟨"hook", .external, "b.c"⟩, .ptr .func, none⟩]
  structs := []
  consts := []

/-- The modules of `callbackProgram`. -/
def callbackModules : List Module := [⟨"a.c", [], [0, 1]⟩, ⟨"b.c", [0], [2]⟩]

/-- The result of the pass on two modules, one of which calls a function of the other through a
variable. -/
theorem callback_least :
    ∃ s, EndsIn .reference callbackProgram callbackModules s ∧
      Result .reference callbackProgram callbackModules s ∧
      ∀ modules', Reordered callbackModules modules' →
        EndsIn .reference callbackProgram modules' s := by
  refine callGraphPass_least (by unfold UniqueDefinitions; decide)
    ⟨fun M hM F hF i hi V hV => ?_, by decide⟩
  have hclosed : ∀ M ∈ callbackModules, ∀ F ∈ M.functions, ∀ i ∈ callbackProgram.instsOf F,
      ∀ V ∈ queries callbackProgram F i, V ∈ [Value.func 0, .inst 3] := by decide
  exact handled_of_closed (by decide) (by decide) (hclosed M hM F hF i hi V hV)

end Result

end Run

end Kint.CallGraph
