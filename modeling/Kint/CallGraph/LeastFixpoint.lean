import Kint.CallGraph.Rules

/-!
# `CallGraphPass` computes a least fixpoint

One instruction (`visitInst`) is the step of the pass: it reports exactly when the map grows, it
stays below every closed map, and when it reports nothing the map is closed under the rule of
the instruction.  From there the three facts go through the loops of functions, modules and
rounds: the run ends, its result is closed, and it is below every closed map that contains the
initializer entries.  Order plays no part in that description, so the result does not depend on
it.

## Main definitions

* `Grew s s'`: the map grows strictly and the definitions stay.
* `Below funcs p s`: the map is below `p`.
* `AddsTo Id A s r`: what a search into the entry of `Id` does to the whole state.
* `Step C s r`: the three facts about a part of the pass, where `C` is the rule of the part.  It
  is sequential in the sense of `Kint.Iteration`, with the rules of the parts in conjunction.

## Main results

* `visitInst_cases`: what the pass does at an instruction is one of a few searches.  All facts
  about `visitInst` are read off from here.
* `visitInst_step`, `runOnFunction_step`, `doModulePass_step`, `iterate_step`: the promise of an
  instruction goes up through the loops, and becomes closedness where a loop ends.
* The lemmas `_fuel` and `_ok`: with enough fuel no search runs out of it, and no part of the
  pass fails if all values are of kinds that the search handles.
-/

namespace Kint.CallGraph

open Iteration Kint.Digraph

/-- The map from identifiers to functions grows strictly; nothing else
changes. -/
def Grew (s s' : State) : Prop :=
  s'.funcs = s.funcs ∧ s'.callees = s.callees ∧ s.funcPtrs < s'.funcPtrs

theorem Grew.trans {a b c : State} (h : Grew a b) (h' : Grew b c) : Grew a c :=
  ⟨h'.1.trans h.1, h'.2.1.trans h.2.1, h.2.2.trans h'.2.2⟩

theorem sequential_exact_grew :
    Sequential fun s (r : Report State Empty) => r.Exact Grew s :=
  sequential_exact fun h h' => Grew.trans h h'

theorem exact_funcs {s : State} {r : Report State Empty} (h : r.Exact Grew s) :
    r.state.funcs = s.funcs := by
  rcases h with ⟨-, h⟩ | ⟨-, h⟩
  · rw [h]
  · exact h.1

theorem exact_silent {s : State} {r : Report State Empty} (h : r.Exact Grew s) :
    r.Silent id s := by
  intro hc
  rcases h with ⟨-, h⟩ | ⟨hc', -⟩
  · exact h
  · simp [hc] at hc'

/-- The state keeps its definitions and stays below `p`. -/
def Below (funcs : FuncMap) (p : FuncRel) (s : State) : Prop := s.funcs = funcs ∧ s.rel ≤ p

/-! ## Adding to one entry -/

/-- The pass adds the functions in `A` to the entry of `Id`. -/
def AddsTo (Id : String) (A : FuncId → Prop) (s : State) (r : Report State Empty) : Prop :=
  ∃ r', Adds A (s.funcPtrs Id) r' ∧
    r = ⟨r'.changed, { s with funcPtrs := Function.update s.funcPtrs Id r'.state }, []⟩

namespace AddsTo

variable {Id : String} {A : FuncId → Prop} {s : State} {r : Report State Empty}

theorem exact (h : AddsTo Id A s r) : r.Exact Grew s := by
  obtain ⟨r', hadds, rfl⟩ := h
  have hle : s.funcPtrs ≤ Function.update s.funcPtrs Id r'.state :=
    le_update_self_iff.mpr hadds.subset
  cases hc : r'.changed with
  | false =>
    refine .inl ⟨rfl, ?_⟩
    have hnew : ¬ ∃ g, A g ∧ g ∉ s.funcPtrs Id := by simp [← hadds.1, hc]
    have heq : r'.state = s.funcPtrs Id := by
      refine Finset.Subset.antisymm (fun g hg => ?_) hadds.subset
      by_contra hg'
      exact hnew ⟨g, ((hadds.2 g).mp hg).resolve_left hg', hg'⟩
    simp [heq]
  | true =>
    refine .inr ⟨rfl, rfl, rfl, lt_of_le_of_ne hle fun heq => ?_⟩
    obtain ⟨g, hg, hg'⟩ := hadds.1.mp hc
    refine hg' ?_
    rw [heq]
    simpa using (hadds.2 g).mpr (.inr hg)

/-- Adding functions of `p` to the entry stays below `p`. -/
theorem below {funcs : FuncMap} {p : FuncRel} (h : AddsTo Id A s r)
    (hA : ∀ g, A g → g ∈ p Id) (hs : Below funcs p s) : Below funcs p r.state := by
  obtain ⟨r', hadds, rfl⟩ := h
  refine ⟨hs.1, fun id g hg => ?_⟩
  by_cases hid : id = Id
  · subst hid
    have hg' : g ∈ r'.state := by simpa [State.rel] using hg
    rcases (hadds.2 g).mp hg' with hg' | hg'
    · exact hs.2 id hg'
    · exact hA g hg'
  · exact hs.2 id (by simpa [State.rel, hid] using hg)

/-- Without a report, all functions were in the entry before. -/
theorem silent (h : AddsTo Id A s r) (hc : r.changed = false) : ∀ g, A g → g ∈ s.rel Id := by
  obtain ⟨r', hadds, rfl⟩ := h
  intro g hg
  by_contra hg'
  exact absurd (hadds.1.mpr ⟨g, hg, hg'⟩) (by simpa using hc)

end AddsTo

section Steps

variable {L : Library} {P : Program} {fuel : ℕ} {s : State} {r : Report State Empty}

/-- A search into an entry adds what the value may point to. -/
theorem findFunctionsInto_addsTo {Id : String} {V : Value}
    (h : findFunctionsInto L P fuel Id V s = .ok r) :
    AddsTo Id (MayPointTo L P s.funcs s.rel V) s r := by
  obtain ⟨r', hr', h⟩ := bind_eq_ok.mp h
  refine ⟨r', ?_, (Except.ok.inj h).symm⟩
  exact (findFunctionsFrom_adds (by simp [aliased]) hr').congr fun g => by
    simp [Found, MayPointTo, Reach]

theorem mergeFuncSetInto_addsTo {Id : String} {VS : FuncSet}
    (h : mergeFuncSetInto Id VS s = .ok r) : AddsTo Id (· ∈ VS) s r := by
  obtain ⟨r', hr', h⟩ := bind_eq_ok.mp h
  exact ⟨r', mergeFuncSet_adds hr', (Except.ok.inj h).symm⟩

/-- Adding to an empty local set reports when anything is found. -/
theorem adds_empty {A : FuncId → Prop} {r : Report FuncSet Empty} (h : Adds A ∅ r) :
    (r.changed = true ↔ ∃ g, A g) ∧ ∀ g, g ∈ r.state ↔ A g :=
  ⟨by simpa using h.1, fun g => by simpa using h.2 g⟩

/-! ## The step -/

/-- What a part of the pass promises: its report is exact, it stays below every
map `p` with `C p`, and when it reports nothing the state satisfies `C`. -/
structure Step (C : FuncMap → FuncRel → Prop) (s : State) (r : Report State Empty) : Prop where
  exact : r.Exact Grew s
  below : ∀ p, C s.funcs p → Below s.funcs p s → Below s.funcs p r.state
  closed : r.changed = false → C s.funcs s.rel

/-- Doing nothing keeps the promise of a rule that holds. -/
theorem step_idle {C : FuncMap → FuncRel → Prop} (hC : C s.funcs s.rel) :
    Step C s (Report.idle s) :=
  ⟨.inl ⟨rfl, rfl⟩, fun _ _ h => h, fun _ => hC⟩

/-- A loop over parts that each keep their promise keeps the promise of all of
them. -/
theorem forEach_step {ι : Type*} {f : ι → Pass State Empty}
    {C : ι → FuncMap → FuncRel → Prop} {xs : List ι}
    (hf : ∀ x ∈ xs, ∀ s r, f x s = .ok r → Step (C x) s r)
    (h : forEach f xs s = .ok r) : Step (fun funcs p => ∀ x ∈ xs, C x funcs p) s r where
  exact := sequential_exact_grew.forEach_spec
    (fun x hx s r h => (hf x hx s r h).exact) h
  below p hp := by
    refine (Sequential.invariant (Below s.funcs p)).forEach_spec (fun x hx s' r' h' hs' => ?_) h
    have hstep := hf x hx s' r' h'
    rw [← hs'.1] at hp
    exact ⟨(exact_funcs hstep.exact).trans hs'.1,
      (hstep.below p (hp x hx) ⟨rfl, hs'.2⟩).2⟩
  closed hc x hx := by
    obtain ⟨s', r', rfl, hr', hc'⟩ := forEach_silent
      (fun y hy s r h => exact_silent (hf y hy s r h).exact) h hc x hx
    exact (hf x hx s' r' hr').closed hc'

/-- A search keeps the promise of a rule which says that its functions are in the entry. -/
theorem addsTo_step {C : FuncMap → FuncRel → Prop} {Id : String} {A : FuncId → Prop}
    (h : AddsTo Id A s r)
    (hbelow : ∀ p, C s.funcs p → s.rel ≤ p → ∀ g, A g → g ∈ p Id)
    (hclosed : (∀ g, A g → g ∈ s.rel Id) → C s.funcs s.rel) : Step C s r where
  exact := h.exact
  below p hp hs := h.below (hbelow p hp hs.2) hs
  closed hc := hclosed (h.silent hc)

/-- Passing an argument keeps the promise of the rule for arguments, for all callees in the set. The
search for the argument adds to the identifier of the parameter just what the argument may point to;
the promise survives what the visits of other callees add. -/
theorem passArgument_step {FS : FuncSet} {arg : Value × ℕ}
    (h : passArgument L P fuel FS arg s = .ok r) :
    Step (fun funcs p => ∀ CF ∈ FS, isFunctionPointer (P.typeOf arg.1) →
      ∀ g, MayPointTo L P funcs p arg.1 g → g ∈ p (getArgId L P CF arg.2)) s r := by
  unfold passArgument at h
  split at h
  case isFalse hty =>
    obtain rfl := Except.ok.inj h
    exact step_idle fun _ _ hty' => absurd hty' hty
  case isTrue hty =>
    obtain ⟨VS, hVS, h⟩ := bind_eq_ok.mp h
    obtain ⟨hnew, hmem⟩ := adds_empty (findFunctions_adds hVS)
    split at h
    case isFalse hc =>
      obtain rfl := Except.ok.inj h
      exact step_idle fun _ _ _ g hg => absurd (hnew.mpr ⟨g, hg⟩) hc
    case isTrue hc =>
      have hloop := forEach_step
        (C := fun CF _ p => ∀ g ∈ VS.state, g ∈ p (getArgId L P CF arg.2))
        (fun CF _ s' r' h' => addsTo_step (mergeFuncSetInto_addsTo h')
          (fun p hp _ => hp) id) h
      refine ⟨hloop.exact, fun p hp hs => hloop.below p (fun CF hCF g hg => ?_) hs,
        fun hc CF hCF _ g hg => ?_⟩
      · exact hp CF ((L.mem_elements _ _).mp hCF) hty g (((hmem g).mp hg).mono hs.2)
      · exact hloop.closed hc CF ((L.mem_elements _ _).mpr hCF) g ((hmem g).mpr hg)

/-- Instructions of the function `F` that do not change the map: no function pointer is
stored or returned, or the call is ignored. -/
def Skipped (P : Program) (F : FuncId) (i : InstId) : Prop :=
  match (P.inst i).op with
  | .store V _ => isFunctionPointer (P.typeOf V) → getLoadStoreId P i = ""
  | .ret _ => isFunctionPointer (P.func F).retTy = false
  | .call _ _ => ignoresCall P i = true
  | _ => True

/-- What the pass does at an instruction: nothing, a search for the stored or the
returned functions, or a search for the callees and then for the arguments. -/
theorem visitInst_cases {F : FuncId} {i : InstId} (h : visitInst L P fuel F i s = .ok r) :
    (Skipped P F i ∧ r = .idle s) ∨
    (∃ V pointer, (P.inst i).op = .store V pointer ∧ isFunctionPointer (P.typeOf V) ∧
      getLoadStoreId P i ≠ "" ∧ findFunctionsInto L P fuel (getLoadStoreId P i) V s = .ok r) ∨
    (∃ V, (P.inst i).op = .ret (some V) ∧ isFunctionPointer (P.func F).retTy ∧
      findFunctionsInto L P fuel (getRetId L P F) V s = .ok r) ∨
    ∃ callee args FS, (P.inst i).op = .call callee args ∧ ignoresCall P i = false ∧
      findFunctions L P fuel s callee ∅ = .ok FS ∧
      if FS.changed then forEach (passArgument L P fuel FS.state) args.zipIdx s = .ok r
      else r = .idle s := by
  unfold visitInst at h
  cases hop : (P.inst i).op with
  | store V pointer =>
    simp only [hop] at h
    split at h
    case isTrue hcond => exact .inr (.inl ⟨V, pointer, rfl, hcond.1, hcond.2, h⟩)
    case isFalse hcond =>
      refine .inl ⟨?_, (Except.ok.inj h).symm⟩
      simp only [Skipped, hop]
      exact fun hty => by_contra fun hid => hcond ⟨hty, hid⟩
  | ret V =>
    simp only [hop] at h
    split at h
    case isTrue hty =>
      cases V with
      | none => cases h
      | some V => exact .inr (.inr (.inl ⟨V, rfl, hty, h⟩))
    case isFalse hty =>
      refine .inl ⟨?_, (Except.ok.inj h).symm⟩
      simpa only [Skipped, hop, Bool.not_eq_true] using hty
  | call callee args =>
    simp only [hop] at h
    split at h
    case isTrue hign =>
      refine .inl ⟨?_, (Except.ok.inj h).symm⟩
      simpa only [Skipped, hop] using hign
    case isFalse hign =>
      obtain ⟨FS, hFS, h⟩ := bind_eq_ok.mp h
      refine .inr (.inr (.inr ⟨callee, args, FS, rfl, by simpa using hign, hFS, ?_⟩))
      split at h
      case isTrue hc => rwa [if_pos hc]
      case isFalse hc =>
        rw [if_neg hc]
        exact (Except.ok.inj h).symm
  | load | br | condBr | switch | invoke | otherTerm | binary | cast | select | phi | icmp
  | extractValue | gep | other =>
    simp only [hop] at h
    refine .inl ⟨?_, (Except.ok.inj h).symm⟩
    simp only [Skipped, hop]

/-- Every map is closed at an instruction that is skipped. -/
theorem Skipped.instClosed {F : FuncId} {i : InstId} (h : Skipped P F i) (funcs : FuncMap)
    (p : FuncRel) : InstClosed L P funcs p F i := by
  unfold Skipped at h
  unfold InstClosed
  split <;> simp_all

/-- A visit keeps the promise of the rule of the instruction. There is one case for each kind of
instruction that passes functions on: stores, returns and calls. The others are skipped, and promise
nothing. -/
theorem visitInst_step {F : FuncId} {i : InstId} (h : visitInst L P fuel F i s = .ok r) :
    Step (fun funcs p => InstClosed L P funcs p F i) s r := by
  rcases visitInst_cases h with ⟨hskip, rfl⟩ | ⟨V, pointer, hop, hty, hid, h⟩ | ⟨V, hop, hty, h⟩ |
    ⟨callee, args, FS, hop, hign, hFS, h⟩
  · exact step_idle (hskip.instClosed _ _)
  · refine addsTo_step (findFunctionsInto_addsTo h) (fun p hp hs g hg => ?_) fun hA => ?_
    · simp only [InstClosed, hop] at hp
      exact hp hty hid g (hg.mono hs)
    · simpa only [InstClosed, hop] using fun _ _ => hA
  · refine addsTo_step (findFunctionsInto_addsTo h) (fun p hp hs g hg => ?_) fun hA => ?_
    · simp only [InstClosed, hop] at hp
      exact hp hty g (hg.mono hs)
    · simpa only [InstClosed, hop] using fun _ => hA
  · obtain ⟨hnew, hmem⟩ := adds_empty (findFunctions_adds hFS)
    split at h
    case isFalse hc =>
      subst h
      refine step_idle ?_
      simp only [InstClosed, hop]
      exact fun _ CF hCF => absurd (hnew.mpr ⟨CF, hCF⟩) hc
    case isTrue hc =>
      have hloop := forEach_step (fun arg _ s' r' h' => passArgument_step h') h
      refine ⟨hloop.exact, fun p hp hs => hloop.below p ?_ hs, fun hc => ?_⟩
      · simp only [InstClosed, hop] at hp
        intro arg harg CF hCF hty g hg
        exact hp hign CF (((hmem CF).mp hCF).mono hs.2) arg harg hty g hg
      · simp only [InstClosed, hop]
        intro _ CF hCF arg harg hty g hg
        exact hloop.closed hc arg harg CF ((hmem CF).mpr hCF) hty g hg

/-- A visit of a function keeps the promise of the rules of its instructions. -/
theorem runOnFunction_step {F : FuncId} (h : runOnFunction L P fuel F s = .ok r) :
    Step (fun funcs p => ∀ i ∈ P.instsOf F, InstClosed L P funcs p F i) s r :=
  forEach_step (fun _ _ _ _ h => visitInst_step h) h

/-! ## The loops -/

/-- A loop `while (changed)` keeps the promise of its body, and at its end the
state satisfies `C`. -/
theorem whileChanged_step {C : FuncMap → FuncRel → Prop} {body : ℕ → Pass State Empty}
    (hbody : ∀ itr s r, body itr s = .ok r → Step C s r) {itr : ℕ}
    (h : whileChanged body fuel itr s = .ok r) :
    Step C s r ∧ C r.state.funcs r.state.rel := by
  refine ⟨⟨?_, fun p hp => ?_, fun hc => ?_⟩, ?_⟩
  · exact sequential_exact_grew.whileChanged_spec (fun itr s r h => (hbody itr s r h).exact) h
  · refine (Sequential.invariant (Below s.funcs p)).whileChanged_spec
      (fun itr s' r' h' hs' => ?_) h
    have hstep := hbody itr s' r' h'
    rw [← hs'.1] at hp
    exact ⟨(exact_funcs hstep.exact).trans hs'.1, (hstep.below p hp ⟨rfl, hs'.2⟩).2⟩
  · exact (hbody _ _ _ (whileChanged_unchanged h hc)).closed hc
  · obtain ⟨itr', s', r', -, -, hr', hc', hst⟩ :=
      whileChanged_last (I := fun _ => True) (fun _ _ _ _ _ _ => trivial) trivial h
    have hstep := hbody itr' s' r' hr'
    have hsame : r.state = s' := hst.symm.trans (exact_silent hstep.exact hc')
    rw [hsame]
    exact hstep.closed hc'

/-- A loop over a module ends in a map that is closed at all its instructions. -/
theorem doModulePass_step {M : Module} (h : doModulePass L P fuel M s = .ok r) :
    Step (fun funcs p => ∀ F ∈ M.functions, ∀ i ∈ P.instsOf F, InstClosed L P funcs p F i)
      s r :=
  (whileChanged_step (fun _ _ _ h => forEach_step (fun _ _ _ _ h => runOnFunction_step h) h)
    h).1

/-- The iteration over all modules ends in a closed map that is below every
closed map above its start. -/
theorem iterate_step {modules : List Module}
    (h : (callGraphPass L P).iterate fuel modules s = .ok r) :
    Step (fun funcs p => Closed L P funcs modules p) s r ∧
      Closed L P r.state.funcs modules r.state.rel :=
  whileChanged_step (fun _ _ _ h => forEach_step (fun _ _ _ _ h => doModulePass_step h) h) h

/-! ## The loops have results -/

/-- Any sufficient fuel gives the same result for an argument. -/
theorem passArgument_fuel {FS : FuncSet} {arg : Value × ℕ} (h : searchFuel P ≤ fuel) :
    passArgument L P fuel FS arg = passArgument L P (searchFuel P) FS arg := by
  funext s
  simp only [passArgument, findFunctions_fuel h]

theorem visitInst_fuel {F : FuncId} {i : InstId} (h : searchFuel P ≤ fuel) :
    visitInst L P fuel F i = visitInst L P (searchFuel P) F i := by
  have harg : ∀ FS, passArgument L P fuel FS = passArgument L P (searchFuel P) FS :=
    fun FS => funext fun arg => passArgument_fuel h
  funext s
  simp only [visitInst, findFunctions_fuel h, findFunctionsInto_fuel h, harg]

/-- Any sufficient fuel gives the same visit of a function. -/
theorem runOnFunction_fuel {F : FuncId} (h : searchFuel P ≤ fuel) :
    runOnFunction L P fuel F = runOnFunction L P (searchFuel P) F :=
  forEach_congr fun _ _ => visitInst_fuel h

/-- A search from a value that is handled has a result. -/
theorem findFunctions_ok {V : Value} (hV : Handled P V) (h : searchFuel P ≤ fuel)
    (S : FuncSet) : ∃ r, findFunctions L P fuel s V S = .ok r :=
  findFunctionsFrom_ok hV (card_unvisited_nil.trans_le h) S

/-- A search into an entry has a result if the value is handled. -/
theorem findFunctionsInto_ok {Id : String} {V : Value} (hV : Handled P V)
    (h : searchFuel P ≤ fuel) : ∃ r, findFunctionsInto L P fuel Id V s = .ok r := by
  have hsearch : ∃ r, findFunctionsFrom L P s (some Id) fuel [] V (s.funcPtrs Id) = .ok r :=
    findFunctionsFrom_ok hV (card_unvisited_nil.trans_le h) _
  obtain ⟨r, hr⟩ := hsearch
  exact ⟨_, bind_eq_ok.mpr ⟨r, hr, rfl⟩⟩

/-- Passing an argument does not fail if the argument is handled. -/
theorem passArgument_ok {FS : FuncSet} {arg : Value × ℕ}
    (hV : isFunctionPointer (P.typeOf arg.1) → Handled P arg.1) (h : searchFuel P ≤ fuel) :
    ∃ r, passArgument L P fuel FS arg s = .ok r := by
  unfold passArgument
  split
  case isFalse => exact ⟨_, rfl⟩
  case isTrue hty =>
    obtain ⟨VS, hVS⟩ := findFunctions_ok (L := L) (s := s) (hV hty) h ∅
    simp only [hVS, ok_bind]
    split
    · exact forEach_ok (I := fun _ => True) (fun _ _ _ _ => ⟨_, rfl⟩)
        (fun _ _ _ _ _ _ => trivial) trivial
    · exact ⟨_, rfl⟩

/-- A visit does not fail if the values that it searches from are handled and a function pointer is
returned where the type says so. -/
theorem visitInst_ok {F : FuncId} {i : InstId} (hV : ∀ V ∈ queries P F i, Handled P V)
    (hret : (P.inst i).op = .ret none → isFunctionPointer (P.func F).retTy = false)
    (h : searchFuel P ≤ fuel) : ∃ r, visitInst L P fuel F i s = .ok r := by
  unfold visitInst
  cases hop : (P.inst i).op with
  | store V pointer =>
    simp only
    split
    · next hcond => exact findFunctionsInto_ok (hV V (by simp [queries, hop, hcond.1])) h
    · exact ⟨_, rfl⟩
  | ret V =>
    simp only
    split
    · next hty =>
      cases V with
      | none => simp [hret hop] at hty
      | some V => exact findFunctionsInto_ok (hV V (by simp [queries, hop, hty])) h
    · exact ⟨_, rfl⟩
  | call callee args =>
    simp only
    split
    · exact ⟨_, rfl⟩
    · obtain ⟨FS, hFS⟩ :=
        findFunctions_ok (L := L) (s := s) (hV callee (by simp [queries, hop])) h ∅
      simp only [hFS, ok_bind]
      split
      · refine forEach_ok (I := fun _ => True) (fun arg harg s _ => passArgument_ok ?_ h)
          (fun _ _ _ _ _ _ => trivial) trivial
        intro hty
        have hmem : arg.1 ∈ args := by
          obtain ⟨V, no⟩ := arg
          exact (List.mem_zipIdx' harg).2 ▸ List.getElem_mem _
        exact hV arg.1 (by simp [queries, hop, hmem, hty])
      · exact ⟨_, rfl⟩
  | _ => exact ⟨_, rfl⟩

variable {modules : List Module}

/-- A visit of a function of the modules does not fail. -/
theorem runOnFunction_ok (hval : WellHandled P modules) {M : Module} (hM : M ∈ modules)
    {F : FuncId} (hF : F ∈ M.functions) (h : searchFuel P ≤ fuel) (s : State) :
    ∃ r, runOnFunction L P fuel F s = .ok r :=
  forEach_ok (I := fun _ => True)
    (fun i hi _ _ => visitInst_ok (hval.query M hM F hF i hi) (hval.ret M hM F hF i hi) h)
    (fun _ _ _ _ _ _ => trivial) trivial

theorem doModulePass_ne_fatal (hval : WellHandled P modules) {M : Module} (hM : M ∈ modules)
    (h : searchFuel P ≤ fuel) (s : State) : doModulePass L P fuel M s ≠ .error .fatal := by
  refine whileChanged_ne_fatal (I := fun _ => True) (fun itr s _ => ?_)
    (fun _ _ _ _ _ => trivial) trivial
  obtain ⟨r, hr⟩ := forEach_ok (I := fun _ => True)
    (fun F hF s _ => runOnFunction_ok (L := L) hval hM hF h s)
    (fun _ _ _ _ _ _ => trivial) (s := s) trivial
  simp [hr]

theorem iterate_ne_fatal (hval : WellHandled P modules) (h : searchFuel P ≤ fuel) (s : State) :
    (callGraphPass L P).iterate fuel modules s ≠ .error .fatal :=
  whileChanged_ne_fatal (I := fun _ => True)
    (fun _ _ _ => forEach_ne_error (I := fun _ => True)
      (fun _ hM s _ => doModulePass_ne_fatal hval hM h s) (fun _ _ _ _ _ _ => trivial) trivial)
    (fun _ _ _ _ _ => trivial) trivial

end Steps

end Kint.CallGraph
