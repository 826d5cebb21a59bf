import Kint.CallGraph.Pass
import Kint.Digraph

/-!
# What `CallGraphPass` computes

The rules of the pass, without its loops: which functions a value may point to under a map from
identifiers to function sets (`MayPointTo`), and when such a map is closed under the rules of
`runOnFunction` (`InstClosed`, `Closed`).  Then the specification of `findFunctions`: it adds
exactly the functions that the value may point to, and it reports exactly when one of them is
new.

## Main definitions

* `FuncRel`: a map from identifiers to sets of functions.  Sets need not be finite here, so that
  least closed maps exist without an argument.
* `Source`, `Direct`, `MayPointTo`: the graph of values that the search walks, what it takes at
  a value itself, and what can be taken at any value that it comes to.
* `Adds A S r`: the pass adds the functions in `A` to the set `S`, and its bit is exact.
* `Found`: what is found without looking at the visited values.  By `found_iff` it satisfies the
  recursion of the search, and without visited values it is `MayPointTo`.

## Main results

* `findFunctionsFrom_adds`: the search adds what is found, by induction on the fuel.
* `findFunctionsFrom_fuel`, `searchFuel`: the visited values grow along a path and are among the
  values with sources, of which a heap has finitely many; so there is enough fuel for all of
  them.
* `findFunctionsFrom_ok`: the search ends with a result if it handles all values it comes to.
-/

namespace Kint.CallGraph

open Iteration Kint.Digraph

/-- A map from identifiers to sets of functions, not necessarily finite. -/
abbrev FuncRel := String → Set FuncId

/-- The map that a state holds. -/
def State.rel (s : State) : FuncRel := fun Id => ↑(s.funcPtrs Id)

section Rules

variable (L : Library) (P : Program) (funcs : FuncMap)

/-- The operands that `findFunctions` goes on with. -/
def sources : Value → List Value
  | .constExpr c =>
    match P.const c with
    | .cast _ v _ => [v]
    | _ => []
  | .inst i =>
    match (P.inst i).op with
    | .cast .bitcast v => [v]
    | .phi incoming => incoming.map Prod.fst
    | .select _ ifTrue ifFalse => [ifTrue, ifFalse]
    | _ => []
  | _ => []

/-- `findFunctions` goes on from `u` with `v`. -/
def Source (u v : Value) : Prop := v ∈ sources P u

/-- The functions that `findFunctions` takes at a value itself. These are the base cases of the
search: the function itself, and what is recorded under the identifier of an argument, of a return
value or of a load. -/
inductive Direct (p : FuncRel) : Value → FuncId → Prop
  | func (f : FuncId) : Direct p (.func f) (resolve P funcs f)
  | argument {f g : FuncId} {no : ℕ} :
      g ∈ p (getArgId L P f no) → Direct p (.argument f no) g
  | ret {i : InstId} {CF g : FuncId} :
      P.calledFunction i = some CF → g ∈ p (getRetId L P CF) → Direct p (.inst i) g
  | load {i : InstId} {pointer : Value} {isVolatile : Bool} {g : FuncId} :
      (P.inst i).op = .load pointer isVolatile → g ∈ p (getLoadStoreId P i) →
      Direct p (.inst i) g

/-- A function pointer `V` may point to the function `g`. -/
def MayPointTo (p : FuncRel) (V : Value) (g : FuncId) : Prop :=
  ∃ u, Reach (Source P) V u ∧ Direct L P funcs p u g

/-- `p` is closed under the rule that `runOnFunction` applies at an instruction:
the store rule, the return rule or the call argument rule. -/
def InstClosed (p : FuncRel) (F : FuncId) (i : InstId) : Prop :=
  match (P.inst i).op with
  | .store V _ =>
    isFunctionPointer (P.typeOf V) → getLoadStoreId P i ≠ "" →
      ∀ g, MayPointTo L P funcs p V g → g ∈ p (getLoadStoreId P i)
  | .ret (some V) =>
    isFunctionPointer (P.func F).retTy →
      ∀ g, MayPointTo L P funcs p V g → g ∈ p (getRetId L P F)
  | .call callee args =>
    ignoresCall P i = false →
      ∀ CF, MayPointTo L P funcs p callee CF →
        ∀ arg ∈ args.zipIdx, isFunctionPointer (P.typeOf arg.1) →
          ∀ g, MayPointTo L P funcs p arg.1 g → g ∈ p (getArgId L P CF arg.2)
  | _ => True

/-- `p` is closed under the rules, for every function of every module. -/
def Closed (modules : List Module) (p : FuncRel) : Prop :=
  ∀ M ∈ modules, ∀ F ∈ M.functions, ∀ i ∈ P.instsOf F, InstClosed L P funcs p F i

/-- The kinds of values that `findFunctions` handles. -/
def handles : Value → Bool
  | .inst i =>
    match (P.inst i).op with
    | .cast .bitcast _ | .cast .inttoptr _ | .phi _ | .select .. | .call .. | .load .. => true
    | _ => false
  | _ => true

/-- Every value that `findFunctions` comes to from `V` is of a kind it
handles. -/
def Handled (V : Value) : Prop := ∀ u, Reach (Source P) V u → handles P u = true

/-- The values on which the pass calls `findFunctions` at an instruction: stored
and returned function pointers, callees, and function-pointer arguments. -/
def queries (F : FuncId) (i : InstId) : List Value :=
  match (P.inst i).op with
  | .store V _ => if isFunctionPointer (P.typeOf V) then [V] else []
  | .ret (some V) => if isFunctionPointer (P.func F).retTy then [V] else []
  | .call callee args => callee :: args.filter fun V => isFunctionPointer (P.typeOf V)
  | _ => []

/-- Every function-pointer value of the modules is of a kind that
`findFunctions` handles, and a function that returns a function pointer returns
a value. -/
structure WellHandled (modules : List Module) : Prop where
  query : ∀ M ∈ modules, ∀ F ∈ M.functions, ∀ i ∈ P.instsOf F,
    ∀ V ∈ queries P F i, Handled P V
  ret : ∀ M ∈ modules, ∀ F ∈ M.functions, ∀ i ∈ P.instsOf F,
    (P.inst i).op = .ret none → isFunctionPointer (P.func F).retTy = false

variable {L P funcs}

/-- A larger map gives more functions at a value. -/
theorem Direct.mono {p q : FuncRel} (hpq : p ≤ q) {V : Value} {g : FuncId}
    (h : Direct L P funcs p V g) : Direct L P funcs q V g := by
  cases h with
  | func f => exact .func f
  | argument hg => exact .argument (hpq _ hg)
  | ret hCF hg => exact .ret hCF (hpq _ hg)
  | load hop hg => exact .load hop (hpq _ hg)

/-- Under a larger map a value may point to more functions. -/
theorem MayPointTo.mono {p q : FuncRel} (hpq : p ≤ q) {V : Value} {g : FuncId} :
    MayPointTo L P funcs p V g → MayPointTo L P funcs q V g :=
  fun ⟨u, hu, hg⟩ => ⟨u, hu, hg.mono hpq⟩

end Rules

/-! ## The specification of `findFunctions` -/

/-- The pass adds the functions in `A`, and reports when one of them is new. -/
def Adds (A : FuncId → Prop) (S : FuncSet) (r : Report FuncSet Empty) : Prop :=
  (r.changed = true ↔ ∃ g, A g ∧ g ∉ S) ∧ ∀ g, g ∈ r.state ↔ g ∈ S ∨ A g

theorem adds_idle {A : FuncId → Prop} (hA : ∀ g, ¬ A g) (S : FuncSet) :
    Adds A S (Report.idle S) :=
  ⟨by simp [hA], by simp [hA]⟩

theorem Adds.andThen {A B : FuncId → Prop} {S : FuncSet} {r r' : Report FuncSet Empty}
    (h : Adds A S r) (h' : Adds B r.state r') :
    Adds (fun g => A g ∨ B g) S (r.andThen r') := by
  refine ⟨?_, fun g => ?_⟩
  · rw [Report.andThen_changed, Bool.or_eq_true, h.1, h'.1]
    constructor
    · rintro (⟨g, hg, hS⟩ | ⟨g, hg, hS⟩)
      · exact ⟨g, .inl hg, hS⟩
      · exact ⟨g, .inr hg, fun hgS => hS ((h.2 g).mpr (.inl hgS))⟩
    · rintro ⟨g, hg, hS⟩
      by_cases hA : A g
      · exact .inl ⟨g, hA, hS⟩
      · refine .inr ⟨g, hg.resolve_left hA, fun hgr => ?_⟩
        exact ((h.2 g).mp hgr).elim hS hA
  · rw [Report.andThen_state, h'.2, h.2, or_assoc]

theorem Adds.congr {A B : FuncId → Prop} {S : FuncSet} {r : Report FuncSet Empty}
    (h : Adds A S r) (hAB : ∀ g, A g ↔ B g) : Adds B S r := by
  rwa [show B = A from funext fun g => propext (hAB g).symm]

theorem Adds.subset {A : FuncId → Prop} {S : FuncSet} {r : Report FuncSet Empty}
    (h : Adds A S r) : S ⊆ r.state :=
  fun g hg => (h.2 g).mpr (.inl hg)

/-- A merge adds the other set, and reports whether something of it is new. -/
theorem mergeFuncSet_adds {src S : FuncSet} {r : Report FuncSet Empty}
    (h : mergeFuncSet src S = .ok r) : Adds (· ∈ src) S r := by
  obtain rfl := Except.ok.inj h
  exact ⟨by simp [Finset.not_subset], by simp⟩

/-- A loop over values adds what its body adds at each of them, when the body
may assume that the destination contains `base`. -/
theorem forEach_adds {f : Value → Pass FuncSet Empty} {A : Value → FuncId → Prop}
    {base : FuncSet} :
    ∀ {vs : List Value}, (∀ v ∈ vs, ∀ S r, base ⊆ S → f v S = .ok r → Adds (A v) S r) →
      ∀ {S r}, base ⊆ S → forEach f vs S = .ok r → Adds (fun g => ∃ v ∈ vs, A v g) S r := by
  intro vs
  induction vs with
  | nil =>
    intro _ S r _ h
    obtain rfl := Except.ok.inj h
    exact adds_idle (by simp) S
  | cons v vs ih =>
    intro hf S r hS h
    obtain ⟨a, b, ha, hb, rfl⟩ := Pass.seq_eq_ok.mp h
    have hA := hf v (by simp) _ _ hS ha
    have hB := ih (fun u hu => hf u (List.mem_cons_of_mem _ hu)) (hS.trans hA.subset) hb
    exact (hA.andThen hB).congr (by simp)

section FindFunctions

variable {L : Library} {P : Program} {s : State} {dst : Option String} {V : Value}

/-- What the destination contains from the start: the entry it aliases. -/
def aliased (s : State) (dst : Option String) : FuncSet := dst.elim ∅ s.funcPtrs

/-- A merge from an identifier adds the entry of it, also where the destination is that entry. -/
theorem mergeFuncSetId_adds {id : String} {S : FuncSet} {r : Report FuncSet Empty}
    (hS : aliased s dst ⊆ S) (h : mergeFuncSetId s.funcPtrs dst id S = .ok r) :
    Adds (· ∈ s.rel id) S r := by
  by_cases hid : dst = some id
  · -- the set is merged with itself, which contains the entry already
    have hr : mergeFuncSet S S = .ok r := by simpa [mergeFuncSetId, hid] using h
    have hsub : s.funcPtrs id ⊆ S := by simpa [aliased, hid] using hS
    have hadds := mergeFuncSet_adds hr
    refine ⟨hadds.1.trans ⟨?_, ?_⟩, fun g => (hadds.2 g).trans ⟨?_, ?_⟩⟩
    · rintro ⟨g, hg, hgS⟩
      exact absurd hg hgS
    · rintro ⟨g, hg, hgS⟩
      exact absurd (hsub hg) hgS
    · rintro (hg | hg) <;> exact .inl hg
    · rintro (hg | hg)
      · exact .inl hg
      · exact .inl (hsub hg)
  · exact mergeFuncSet_adds (by simpa [mergeFuncSetId, hid] using h)

section At

variable {go : Value → Pass FuncSet Empty} {A : Value → FuncId → Prop} {S : FuncSet}
  {r : Report FuncSet Empty} {i : InstId}

/-- At a value with sources there is nothing else. -/
theorem sources_adds
    (hgo : ∀ v ∈ sources P V, ∀ S r, aliased s dst ⊆ S → go v S = .ok r → Adds (A v) S r)
    (hS : aliased s dst ⊆ S) (vs : List Value) (hvs : sources P V = vs)
    (hdirect : ∀ g, ¬ Direct L P s.funcs s.rel V g) (h : forEach go vs S = .ok r) :
    Adds (fun g => Direct L P s.funcs s.rel V g ∨ ∃ v ∈ sources P V, A v g) S r := by
  subst hvs
  exact (forEach_adds hgo hS h).congr fun g => by simp [hdirect g]

/-- Elsewhere there are no sources. -/
theorem leaf_adds {B : FuncId → Prop} (hnil : sources P V = [])
    (hB : ∀ g, Direct L P s.funcs s.rel V g ↔ B g) (h : Adds B S r) :
    Adds (fun g => Direct L P s.funcs s.rel V g ∨ ∃ v ∈ sources P V, A v g) S r :=
  h.congr fun g => by simp [hnil, hB]

/-- Only calls call a function. -/
theorem calledFunction_eq_none (h : ∀ callee args, (P.inst i).op ≠ .call callee args) :
    P.calledFunction i = none := by
  unfold Program.calledFunction
  split
  · exact absurd ‹_› (h _ _)
  · rfl

/-- Of the instructions, only loads and direct calls hold functions themselves. -/
theorem not_direct_inst (hload : ∀ pointer isVolatile, (P.inst i).op ≠ .load pointer isVolatile)
    (hcall : P.calledFunction i = none) (g : FuncId) :
    ¬ Direct L P s.funcs s.rel (.inst i) g := by
  rintro (_ | _ | hCF | hop)
  · rw [hcall] at hCF
    cases hCF
  · exact hload _ _ hop

/-- The search at an instruction, by the kinds of instructions that it tells apart. Phi nodes,
selections and casts go on with their operands, loads and calls end the search at an identifier, and
all other instructions add nothing. -/
theorem findFunctionsAt_adds_inst
    (hgo : ∀ v ∈ sources P (.inst i), ∀ S r, aliased s dst ⊆ S → go v S = .ok r →
      Adds (A v) S r)
    (hS : aliased s dst ⊆ S) (h : findFunctionsAt L P s dst go (.inst i) S = .ok r) :
    Adds (fun g => Direct L P s.funcs s.rel (.inst i) g ∨ ∃ v ∈ sources P (.inst i), A v g)
      S r := by
  cases hop : (P.inst i).op with
  | phi incoming =>
    have hdirect := not_direct_inst (L := L) (s := s) (P := P) (i := i) (by simp [hop])
      (calledFunction_eq_none (by simp [hop]))
    refine sources_adds hgo hS (incoming.map Prod.fst) (by simp [sources, hop]) hdirect ?_
    simpa only [findFunctionsAt, hop] using h
  | select cond ifTrue ifFalse =>
    have hdirect := not_direct_inst (L := L) (s := s) (P := P) (i := i) (by simp [hop])
      (calledFunction_eq_none (by simp [hop]))
    refine sources_adds hgo hS [ifTrue, ifFalse] (by simp [sources, hop]) hdirect ?_
    simpa only [findFunctionsAt, hop] using h
  | cast op v =>
    have hdirect := not_direct_inst (L := L) (s := s) (P := P) (i := i) (by simp [hop])
      (calledFunction_eq_none (by simp [hop]))
    cases op with
    | bitcast =>
      refine sources_adds hgo hS [v] (by simp [sources, hop]) hdirect ?_
      rw [forEach_singleton]
      simpa [findFunctionsAt, hop] using h
    | inttoptr =>
      refine sources_adds hgo hS [] (by simp [sources, hop]) hdirect ?_
      simpa [findFunctionsAt, hop] using h
    | trunc | zext | sext | ptrtoint | floating => simp [findFunctionsAt, hop] at h
  | load pointer isVolatile =>
    have hcall : P.calledFunction i = none := calledFunction_eq_none (by simp [hop])
    refine leaf_adds (by simp [sources, hop]) (fun g => ⟨?_, .load hop⟩)
      (mergeFuncSetId_adds hS (by simpa [findFunctionsAt, hop] using h))
    rintro (_ | _ | hCF | ⟨-, hg⟩)
    · rw [hcall] at hCF
      cases hCF
    · exact hg
  | call callee args =>
    cases hCF : P.calledFunction i with
    | none =>
      refine sources_adds hgo hS [] (by simp [sources, hop])
        (not_direct_inst (by simp [hop]) hCF) ?_
      simpa [findFunctionsAt, hop, hCF] using h
    | some CF =>
      refine leaf_adds (by simp [sources, hop]) (fun g => ⟨?_, .ret hCF⟩)
        (mergeFuncSetId_adds hS (by simpa [findFunctionsAt, hop, hCF] using h))
      rintro (_ | _ | ⟨hCF', hg⟩ | ⟨hop', -⟩)
      · rw [hCF] at hCF'
        obtain rfl := Option.some.inj hCF'
        exact hg
      · simp [hop] at hop'
  | store | ret | br | condBr | switch | invoke | otherTerm | binary | icmp | extractValue | gep
  | other => simp [findFunctionsAt, hop] at h

/-- The search adds what is at `V` itself and what `go` adds at its sources. What `go` does is given
for the sources only, so that this is one step of the induction on the search. -/
theorem findFunctionsAt_adds
    (hgo : ∀ v ∈ sources P V, ∀ S r, aliased s dst ⊆ S → go v S = .ok r → Adds (A v) S r)
    (hS : aliased s dst ⊆ S) (h : findFunctionsAt L P s dst go V S = .ok r) :
    Adds (fun g => Direct L P s.funcs s.rel V g ∨ ∃ v ∈ sources P V, A v g) S r := by
  cases V with
  | func f =>
    refine leaf_adds rfl (fun g => ?_) (mergeFuncSet_adds h)
    exact ⟨by rintro ⟨⟩; simp, by simp; rintro rfl; exact .func f⟩
  | argument f no =>
    refine leaf_adds rfl (fun g => ?_) (mergeFuncSetId_adds hS h)
    exact ⟨by rintro ⟨⟩; assumption, .argument⟩
  | constExpr c =>
    cases hc : P.const c with
    | cast op v ty =>
      refine sources_adds hgo hS [v] (by simp [sources, hc]) (by rintro g ⟨⟩) ?_
      rw [forEach_singleton]
      simpa [findFunctionsAt, hc] using h
    | binary | gep | other =>
      refine sources_adds hgo hS [] (by simp [sources, hc]) (by rintro g ⟨⟩) ?_
      simpa [findFunctionsAt, hc] using h
  | inst i => exact findFunctionsAt_adds_inst hgo hS h
  | constInt | null | undef | constOther | global | inlineAsm =>
    exact sources_adds hgo hS [] rfl (by rintro g ⟨⟩) h

end At

variable (L P s) in
/-- What `findFunctions` adds at `V` when it does not look at `visited`. -/
def Found (visited : List Value) (V : Value) (g : FuncId) : Prop :=
  ∃ u, AvoidReach (Source P) V (· ∈ visited) u ∧ Direct L P s.funcs s.rel u g

/-- A search from `V` finds what is at `V` itself and what searches from its
sources find that do not come back to `V`. -/
theorem found_iff {visited : List Value} (hV : V ∉ visited) (g : FuncId) :
    Found L P s visited V g ↔
      Direct L P s.funcs s.rel V g ∨ ∃ v ∈ sources P V, Found L P s (V :: visited) v g := by
  constructor
  · rintro ⟨u, hu, hg⟩
    rcases hu.leave with rfl | ⟨v, hv, hpath⟩
    · exact .inl hg
    · refine .inr ⟨v, hv, u, hpath.mono fun w hw => ?_, hg⟩
      exact (List.mem_cons.mp hw).symm
  · rintro (hg | ⟨v, hv, u, hu, hg⟩)
    · exact ⟨V, .start hV, hg⟩
    · exact ⟨u, (hu.mono fun w => List.mem_cons_of_mem _).head hV hv, hg⟩

/-- Nothing is found at a value that was visited. -/
theorem not_found_of_mem {visited : List Value} (hV : V ∈ visited) (g : FuncId) :
    ¬ Found L P s visited V g := by
  rintro ⟨u, hu, -⟩
  induction hu with
  | start h => exact h hV
  | step _ _ _ ih => exact ih

/-- `findFunctions` adds what it finds.  The induction is on the fuel; the set
`Visited` grows along a path only, which is why the searches from the sources of
`V` avoid `V`. -/
theorem findFunctionsFrom_adds :
    ∀ {fuel : ℕ} {visited : List Value} {V : Value} {S : FuncSet} {r : Report FuncSet Empty},
      aliased s dst ⊆ S → findFunctionsFrom L P s dst fuel visited V S = .ok r →
      Adds (Found L P s visited V) S r := by
  intro fuel
  induction fuel with
  | zero => intro visited V S r _ h; cases h
  | succ fuel ih =>
    intro visited V S r hS h
    unfold findFunctionsFrom at h
    split at h
    · obtain rfl := Except.ok.inj h
      exact adds_idle (not_found_of_mem ‹_›) S
    · rename_i hV
      have hat := findFunctionsAt_adds (fun v _ S r hS h => ih hS h) hS h
      exact hat.congr fun g => (found_iff hV g).symm

/-! ### Fuel -/

variable (P) in
/-- The values that have sources at all. -/
def internal : Finset Value :=
  (Finset.range P.insts.length).image .inst ∪ (Finset.range P.consts.length).image .constExpr

/-- A value with sources is one of finitely many. -/
theorem mem_internal (h : sources P V ≠ []) : V ∈ internal P := by
  cases V with
  | inst i =>
    suffices i < P.insts.length by simpa [internal]
    by_contra hi
    exact h (by simp [sources, Program.inst, Nat.not_lt.mp hi])
  | constExpr c =>
    suffices c < P.consts.length by simpa [internal]
    by_contra hc
    exact h (by simp [sources, Program.const, Nat.not_lt.mp hc])
  | constInt | null | undef | constOther | func | global | argument | inlineAsm =>
    exact absurd rfl h

/-- The search from a source has fewer values left to visit. -/
theorem card_unvisited_lt {visited : List Value} (hV : V ∉ visited) (h : sources P V ≠ []) :
    (internal P \ (V :: visited).toFinset).card < (internal P \ visited.toFinset).card := by
  refine Finset.card_lt_card ((Finset.ssubset_iff_of_subset fun u hu => ?_).mpr ⟨V, ?_, ?_⟩)
  · simp only [Finset.mem_sdiff, List.mem_toFinset, List.mem_cons, not_or] at hu ⊢
    exact ⟨hu.1, hu.2.2⟩
  · simp [mem_internal h, hV]
  · simp

/-- The search at a value depends on the searches from its sources only. -/
theorem findFunctionsAt_congr {go go' : Value → Pass FuncSet Empty}
    (hgo : ∀ v ∈ sources P V, go v = go' v) :
    findFunctionsAt L P s dst go V = findFunctionsAt L P s dst go' V := by
  cases V with
  | constExpr c =>
    cases hc : P.const c <;> simp_all [findFunctionsAt, sources]
  | inst i =>
    cases hop : (P.inst i).op with
    | phi incoming =>
      simp only [findFunctionsAt, hop]
      exact forEach_congr fun v hv => hgo v (by simpa [sources, hop] using hv)
    | select cond ifTrue ifFalse =>
      simp only [findFunctionsAt, hop]
      exact forEach_congr fun v hv => hgo v (by simpa [sources, hop] using hv)
    | cast op v => cases op <;> simp_all [findFunctionsAt, sources]
    | _ => simp only [findFunctionsAt, hop]
  | _ => rfl

/-- The search at a value has a result if it handles the value and the searches from its sources
have. -/
theorem findFunctionsAt_ok {go : Value → Pass FuncSet Empty} (hV : handles P V = true)
    (hgo : ∀ v ∈ sources P V, ∀ S, ∃ r, go v S = .ok r) (S : FuncSet) :
    ∃ r, findFunctionsAt L P s dst go V S = .ok r := by
  have hforEach : ∀ vs, sources P V = vs → ∃ r, forEach go vs S = .ok r := by
    rintro _ rfl
    exact forEach_ok (I := fun _ => True) (fun v hv S _ => hgo v hv S)
      (fun _ _ _ _ _ _ => trivial) trivial
  cases V with
  | constExpr c =>
    cases hc : P.const c with
    | cast op v ty =>
      simpa [findFunctionsAt, hc] using hgo v (by simp [sources, hc]) S
    | binary | gep | other => exact ⟨.idle S, by simp [findFunctionsAt, hc]⟩
  | inst i =>
    cases hop : (P.inst i).op with
    | phi incoming =>
      simpa only [findFunctionsAt, hop] using hforEach _ (by simp only [sources, hop])
    | select cond ifTrue ifFalse =>
      simpa only [findFunctionsAt, hop] using hforEach _ (by simp only [sources, hop])
    | cast op v =>
      cases op with
      | bitcast => simpa [findFunctionsAt, hop] using hgo v (by simp [sources, hop]) S
      | inttoptr => exact ⟨.idle S, by simp [findFunctionsAt, hop]⟩
      | trunc | zext | sext | ptrtoint | floating => simp [handles, hop] at hV
    | load pointer isVolatile =>
      simp [findFunctionsAt, hop, mergeFuncSetId, mergeFuncSet]
    | call callee args =>
      cases hCF : P.calledFunction i <;>
        simp [findFunctionsAt, hop, hCF, mergeFuncSetId, mergeFuncSet]
    | store | ret | br | condBr | switch | invoke | otherTerm | binary | icmp | extractValue | gep
    | other => simp [handles, hop] at hV
  | _ => simp [findFunctionsAt, mergeFuncSetId, mergeFuncSet]

variable (P) in
/-- Enough fuel for `findFunctions` on the heap. -/
def searchFuel : ℕ := (internal P).card + 1

/-- With enough fuel the search does not depend on it. -/
theorem findFunctionsFrom_fuel :
    ∀ {fuel fuel' : ℕ} {visited : List Value} {V : Value},
      (internal P \ visited.toFinset).card < fuel →
      (internal P \ visited.toFinset).card < fuel' →
      findFunctionsFrom L P s dst fuel visited V =
        findFunctionsFrom L P s dst fuel' visited V := by
  intro fuel
  induction fuel with
  | zero => intro fuel' visited V h; omega
  | succ fuel ih =>
    intro fuel' visited V h h'
    obtain ⟨fuel', rfl⟩ := Nat.exists_eq_add_of_le' (show 1 ≤ fuel' by omega)
    unfold findFunctionsFrom
    split
    · rfl
    · rename_i hV
      refine findFunctionsAt_congr fun v hv => ?_
      have hlt := card_unvisited_lt hV (List.ne_nil_of_mem hv)
      exact ih (by omega) (by omega)

/-- The search has a result when it handles every value it comes to. -/
theorem findFunctionsFrom_ok :
    ∀ {fuel : ℕ} {visited : List Value} {V : Value}, Handled P V →
      (internal P \ visited.toFinset).card < fuel →
      ∀ S, ∃ r, findFunctionsFrom L P s dst fuel visited V S = .ok r := by
  intro fuel
  induction fuel with
  | zero => intro visited V _ h; omega
  | succ fuel ih =>
    intro visited V hV h S
    unfold findFunctionsFrom
    split
    · exact ⟨_, rfl⟩
    · rename_i hnew
      refine findFunctionsAt_ok (hV V .start) (fun v hv S => ?_) S
      have hlt := card_unvisited_lt hnew (List.ne_nil_of_mem hv)
      exact ih (fun u hu => hV u (hu.head hv)) (by omega) S

/-- In the beginning the fuel exceeds the number of values to be visited. -/
theorem card_unvisited_nil : (internal P \ ([] : List Value).toFinset).card < searchFuel P := by
  simp [searchFuel]

theorem findFunctions_fuel {fuel : ℕ} (h : searchFuel P ≤ fuel) :
    findFunctions L P fuel = findFunctions L P (searchFuel P) := by
  funext s V
  exact findFunctionsFrom_fuel (card_unvisited_nil.trans_le h) card_unvisited_nil

/-- Any sufficient fuel gives the same search into an entry. -/
theorem findFunctionsInto_fuel {fuel : ℕ} (h : searchFuel P ≤ fuel) :
    findFunctionsInto L P fuel = findFunctionsInto L P (searchFuel P) := by
  funext id V s
  unfold findFunctionsInto
  rw [findFunctionsFrom_fuel (card_unvisited_nil.trans_le h) card_unvisited_nil]

end FindFunctions

/-- `findFunctions` adds the functions that the value may point to. -/
theorem findFunctions_adds {L : Library} {P : Program} {fuel : ℕ} {s : State} {V : Value}
    {S : FuncSet} {r : Report FuncSet Empty} (h : findFunctions L P fuel s V S = .ok r) :
    Adds (MayPointTo L P s.funcs s.rel V) S r :=
  (findFunctionsFrom_adds (by simp [aliased]) h).congr fun g => by
    simp [Found, MayPointTo, Reach]

end Kint.CallGraph
