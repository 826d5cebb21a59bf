import Kint.Taint.Closure

/-!
# `TaintPass` on the maps themselves

`TaintMap::get` returns a null pointer for a missing entry, and the pass tests pointers where
one might expect it to test for empty sets.  Here the pass is transcribed over maps that tell a
missing entry from an empty one.  No stored set is ever empty (`Maps.Filled`), so the two tests
agree: on such maps every part of the pass does what the same part in `Kint.Taint.Pass` does on
the maps without that difference (`Agrees`).

## Main definitions

* `Maps`: the two maps of `TaintMap`, with `none` for a missing entry.
* `Promise ids s r`: what a part of the pass leaves behind.  It stores no empty set, adds
  descriptors only, takes none away, and reports just if one of the identifiers `ids` has got
  its first descriptor.
* `Agrees ids loops f f'`: from filled maps, `f` keeps the promise and says the same as `f'`; it
  may run out of fuel only where `loops` says so.

## Main results

* `Agrees.seq`, `Agrees.forEach`, `Agrees.whileChanged`: agreement goes through the loops, so it
  has to be shown for the calls of `TaintMap` only.
* `withTaint_agrees`: the difficult case is `getTaint`, where one version copies from null
  pointers and the other one from empty sets.  The copies go to the value itself, so what
  follows sees the same set (`localTaint_copied`).
-/

namespace Kint.Taint

open Iteration

/-- `TaintMap` with its two maps. -/
structure Maps where
  gts : String → Option (DescSet × Bool)
  vts : Value → Option DescSet

namespace Maps

/-- The maps before the pass have no entry. -/
def init : Maps := ⟨fun _ => none, fun _ => none⟩

/-- `TaintMap::get` of an identifier; `none` is the null pointer. -/
def getId (s : Maps) (ID : String) : Option DescSet :=
  if ID = "" then none else (s.gts ID).map Prod.fst

/-- `GTS[ID]`: a missing entry is created empty. -/
def entry (s : Maps) (ID : String) : DescSet × Bool := (s.gts ID).getD (∅, false)

/-- What happens in a run: a call of `add` by identifier with a set, or the
metadata written for an instruction. -/
inductive Action
  | add (ID : String) (D : DescSet)
  | metadata (i : InstId) (DS : Option DescSet)
  deriving DecidableEq

section Pass

variable (L : Library) (P : Program) (callees : CalleeMap)

/-- `TaintMap::add` to a value. -/
def addValue (V : Value) (D : DescSet) : Pass Maps Action := fun s => .ok ⟨false,
  { s with vts := Function.update s.vts V (some ((s.vts V).getD ∅ ∪ D)) }, []⟩

/-- `TaintMap::add` to an identifier: the returned bit is `isNew`, which is
computed before the insertion. -/
def addId (ID : String) (D : DescSet) (isSource : Bool) : Pass Maps Action := fun s =>
  if ID = "" then .ok ⟨false, s, [.add ID D]⟩
  else .ok ⟨decide ((s.entry ID).1 = ∅),
    { s with
      gts := Function.update s.gts ID (some ((s.entry ID).1 ∪ D, (s.entry ID).2 || isSource)) },
    [.add ID D]⟩

/-- `if (DescSet *DS = TM.get(ID)) TM.add(V, *DS);` -/
def copyId (V : Value) (ID : String) : Pass Maps Action := fun s =>
  match s.getId ID with
  | some D => addValue V D s
  | none => .ok (.idle s)

/-- The identifiers whose taint a value takes over. -/
def globalIds (V : Value) : List String :=
  (calleesOf L P callees V).map (getRetId L P) ++ [getValueId L P V]

/-- Go on with `getTaint(V)`, which may be null. -/
def withTaint (V : Value) (k : Option DescSet → Pass Maps Action) : Pass Maps Action :=
  fun s =>
    match s.vts V with
    | some D => k (some D) s
    | none =>
      match s.vts (L.stripPointerCasts P V) with
      | some D => k (some D) s
      | none => do
        let r ← forEach (copyId V) (globalIds L P callees V) s
        let r' ← k (r.state.vts V) r.state
        return r.andThen r'

/-- Go on with the union of the taints of values. -/
def withTaints : List Value → DescSet → (DescSet → Pass Maps Action) → Pass Maps Action
  | [], D, k => k D
  | V :: Vs, D, k => withTaint L P callees V fun DS => withTaints Vs (D ∪ DS.getD ∅) k

/-- `checkTaintSource`; the reference `*TM.get(I)` must not be null. -/
def checkTaintSource (F : FuncId) (i : InstId) : Pass Maps Action :=
  match (P.inst i).taintSrc with
  | none => fun s => .ok (.idle s)
  | some d => (addValue (.inst i) {d}).seq fun s =>
      match s.vts (.inst i) with
      | none => .error .fatal
      | some D => forEach (fun ID => addId ID D true)
          (getValueId L P (.inst i) :: fieldIds L P (P.inst i).ty (P.func F).moduleIdentifier) s

/-- `if (DescSet *DS = getTaint(…)) changed |= TM.add(getArgId(…), *DS);` -/
def markArgument (f : FuncId) (arg : Value × ℕ) : Pass Maps Action :=
  withTaint L P callees arg.1 fun DS =>
    match DS with
    | some D => addId (getArgId L P f arg.2) D false
    | none => fun s => .ok (.idle s)

/-- Mark the arguments of the possible callees of a call. -/
def visitCall (i : InstId) (args : List Value) : Pass Maps Action :=
  forEach (fun f =>
    if skipsCallee P f then fun s => .ok (.idle s)
    else forEach (markArgument L P callees f) args.zipIdx) (calleesOf L P callees (.inst i))

/-- What an instruction does with the descriptors of its operands. -/
def propagate (F : FuncId) (i : InstId) (D : DescSet) : Pass Maps Action :=
  if D = ∅ then fun s => .ok (.idle s)
  else (addValue (.inst i) D).seq <|
    match (P.inst i).op with
    | .store _ _ =>
      match (P.inst i).id with
      | some ID => addId ID D false
      | none => fun s => .ok (.idle s)
    | .ret _ => addId (getRetId L P F) D false
    | _ => fun s => .ok (.idle s)

/-- The body of the loop of `runOnFunction`. -/
def visitInst (F : FuncId) (i : InstId) : Pass Maps Action :=
  (checkTaintSource L P F i).seq <|
    match (P.inst i).op with
    | .call _ args => visitCall L P callees i args
    | op => withTaints L P callees op.operands ∅ (propagate L P F i)

/-- `runOnFunction` -/
def runOnFunction (F : FuncId) : Pass Maps Action :=
  forEach (visitInst L P callees F) (P.instsOf F)

/-- One pass of the loop of `doModulePass`. -/
def runOnFunctions (M : Module) : Pass Maps Action :=
  forEach (runOnFunction L P callees) M.functions

/-- `doModulePass` -/
def doModulePass (fuel : ℕ) (M : Module) : Pass Maps Action :=
  whileChanged (fun _ => runOnFunctions L P callees M) fuel 1

/-- `doFinalization` -/
def doFinalization (M : Module) : Pass Maps Action :=
  forEach (fun f => forEach (fun i => withTaint L P callees (.inst i) fun DS s =>
    .ok ⟨true, s, [.metadata i DS]⟩) (P.instsOf f)) M.functions

/-- `TaintPass` -/
def taintPass : IterativeModulePass Maps Action where
  doInitialization _ s := .ok ⟨true, s, []⟩
  doModulePass := doModulePass L P callees
  doFinalization _ := doFinalization L P callees

end Pass

/-! ## No stored set is empty -/

/-- Every entry holds a descriptor. -/
structure Filled (s : Maps) : Prop where
  gts : ∀ ID e, s.gts ID = some e → e.1 ≠ ∅
  vts : ∀ V D, s.vts V = some D → D ≠ ∅

/-- The maps without entries hold no empty set. -/
theorem filled_init : Filled init := ⟨nofun, nofun⟩

/-- What a null pointer or a pointer to a set may be. -/
def NotEmpty (DS : Option DescSet) : Prop := ∀ D, DS = some D → D ≠ ∅

/-- The maps without the difference between a missing entry and an empty one. -/
def toTaintMap (s : Maps) : TaintMap := ⟨s.entry, fun V => (s.vts V).getD ∅⟩

theorem getId_toTaintMap (s : Maps) (ID : String) :
    s.toTaintMap.getId ID = (s.getId ID).getD ∅ := by
  unfold TaintMap.getId getId
  split
  · rfl
  · show (s.entry ID).1 = _
    cases h : s.gts ID <;> simp [entry, h]

/-- What an identifier has in filled maps is not empty. -/
theorem Filled.getId {s : Maps} (hs : s.Filled) (ID : String) : NotEmpty (s.getId ID) := by
  intro D hD
  unfold Maps.getId at hD
  split at hD
  · cases hD
  · obtain ⟨e, he, rfl⟩ := Option.map_eq_some_iff.mp hD
    exact hs.gts ID e he

/-- Adding descriptors to a value leaves filled maps. -/
theorem Filled.addValue {s : Maps} (hs : s.Filled) (V : Value) {D : DescSet} (hD : D ≠ ∅) :
    Filled { s with vts := Function.update s.vts V (some ((s.vts V).getD ∅ ∪ D)) } := by
  refine ⟨hs.gts, fun W D' hW => ?_⟩
  by_cases h : W = V
  · subst h
    obtain rfl : (s.vts W).getD ∅ ∪ D = D' := by simpa using hW
    exact fun hempty => hD (Finset.union_eq_empty.mp hempty).2
  · exact hs.vts W D' (by simpa [h] using hW)

/-! ## What a part of the pass does -/

/-- One of the identifiers had no descriptors and has some now. -/
def Turns (ids : Finset String) (s s' : Maps) : Prop :=
  ∃ ID ∈ ids, (s.entry ID).1 = ∅ ∧ (s'.entry ID).1 ≠ ∅

/-- What a part of the pass promises: it leaves no empty entry, it calls `add`
with descriptors only, no identifier loses all of its own, and when it reports,
an identifier among `ids` got its first one.  There are no `ids` where the
returned bit is not read. -/
structure Promise (ids : Option (Finset String)) (s : Maps) (r : Report Maps Action) :
    Prop where
  filled : r.state.Filled
  added : ∀ ID D, .add ID D ∈ r.trace → D ≠ ∅
  keeps : ∀ ID, (s.entry ID).1 ≠ ∅ → (r.state.entry ID).1 ≠ ∅
  turns : ∀ S ∈ ids, r.changed = true → Turns S s r.state

/-- Two parts that keep their promise one after the other. -/
theorem Promise.andThen {ids : Option (Finset String)} {s : Maps} {a b : Report Maps Action}
    (ha : Promise ids s a) (hb : Promise ids a.state b) : Promise ids s (a.andThen b) where
  filled := hb.filled
  added ID D h := (List.mem_append.mp h).elim (ha.added ID D) (hb.added ID D)
  keeps ID h := hb.keeps ID (ha.keeps ID h)
  turns S hS hc := by
    rcases Bool.or_eq_true_iff.mp hc with hc | hc
    · obtain ⟨ID, hID, hempty, hne⟩ := ha.turns S hS hc
      exact ⟨ID, hID, hempty, hb.keeps ID hne⟩
    · obtain ⟨ID, hID, hempty, hne⟩ := hb.turns S hS hc
      exact ⟨ID, hID, of_not_not fun h => ha.keeps ID h hempty, hne⟩

/-- The metadata that is written, in order; a null pointer is no descriptors. -/
def written (t : List Action) : List (InstId × DescSet) :=
  t.filterMap fun
    | .metadata i DS => some (i, DS.getD ∅)
    | .add _ _ => none

/-- The same for the events of `Kint.Taint.Pass`. -/
def written' (t : List Event) : List (InstId × DescSet) :=
  t.filterMap fun
    | .metadata i D => some (i, D)
    | _ => none

/-- The two reports say the same. -/
structure Same (r : Report Maps Action) (r' : Report TaintMap Event) : Prop where
  changed : r'.changed = r.changed
  state : r'.state = r.state.toTaintMap
  written : written' r'.trace = written r.trace

theorem Same.andThen {a b : Report Maps Action} {a' b' : Report TaintMap Event}
    (ha : Same a a') (hb : Same b b') : Same (a.andThen b) (a'.andThen b') where
  changed := by rw [Report.andThen_changed, ha.changed, hb.changed, Report.andThen_changed]
  state := hb.state
  written := by
    have ha := ha.written
    have hb := hb.written
    unfold written' Maps.written at ha hb ⊢
    rw [Report.andThen_trace, List.filterMap_append, ha, hb, ← List.filterMap_append,
      Report.andThen_trace]

/-- From filled maps, `f` keeps the promise and does the same as `f'`, or it runs
out of fuel, which it may only when `loops`. -/
def Agrees (ids : Option (Finset String)) (loops : Prop) (f : Pass Maps Action)
    (f' : Pass TaintMap Event) : Prop :=
  ∀ s, s.Filled → (∃ r r', f s = .ok r ∧ f' s.toTaintMap = .ok r' ∧ Promise ids s r ∧ Same r r') ∨
    loops ∧ f s = .error .fuel

namespace Agrees

variable {ids : Option (Finset String)} {loops : Prop} {f g : Pass Maps Action}
  {f' g' : Pass TaintMap Event}

theorem idle : Agrees ids loops (fun s => .ok (.idle s)) (fun s => .ok (.idle s)) :=
  fun _ hs => .inl ⟨_, _, rfl, rfl, ⟨hs, by simp, fun _ h => h, by simp⟩, ⟨rfl, rfl, rfl⟩⟩

/-- The same where the returned bit is not read. -/
theorem unread (h : Agrees ids loops f f') : Agrees none loops f f' := by
  intro s hs
  rcases h s hs with ⟨r, r', hr, hr', hp, hsame⟩ | h
  · exact .inl ⟨r, r', hr, hr', ⟨hp.filled, hp.added, hp.keeps, nofun⟩, hsame⟩
  · exact .inr h

/-- A result keeps the promise. -/
theorem promise (h : Agrees ids loops f f') {s : Maps} (hs : s.Filled)
    {r : Report Maps Action} (hr : f s = .ok r) : Promise ids s r := by
  rcases h s hs with ⟨a, -, ha, -, hp, -⟩ | ⟨-, ha⟩
  · obtain rfl := Except.ok.inj (ha.symm.trans hr)
    exact hp
  · rw [hr] at ha
    cases ha

/-- The pass does not stop with a failed assertion. -/
theorem ne_fatal (h : Agrees ids loops f f') {s : Maps} (hs : s.Filled) :
    f s ≠ .error .fatal := by
  intro hf
  rcases h s hs with ⟨a, -, ha, -⟩ | ⟨-, ha⟩ <;> rw [hf] at ha <;> cases ha

/-- A pass without loops has a result. -/
theorem total (h : Agrees ids False f f') {s : Maps} (hs : s.Filled) : ∃ r, f s = .ok r := by
  rcases h s hs with ⟨a, -, ha, -⟩ | ⟨h, -⟩
  · exact ⟨a, ha⟩
  · exact h.elim

theorem seq (hf : Agrees ids loops f f') (hg : Agrees ids loops g g') :
    Agrees ids loops (f.seq g) (f'.seq g') := by
  intro s hs
  rcases hf s hs with ⟨a, a', ha, ha', hpa, hsa⟩ | ⟨hl, ha⟩
  · rcases hg a.state hpa.filled with ⟨b, b', hb, hb', hpb, hsb⟩ | ⟨hl, hb⟩
    · refine .inl ⟨a.andThen b, a'.andThen b', Pass.seq_eq_ok.mpr ⟨a, b, ha, hb, rfl⟩, ?_,
        hpa.andThen hpb, hsa.andThen hsb⟩
      exact Pass.seq_eq_ok.mpr ⟨a', b', ha', by rw [hsa.state]; exact hb', rfl⟩
    · exact .inr ⟨hl, by simp [Pass.seq, ha, hb]⟩
  · exact .inr ⟨hl, by simp [Pass.seq, ha]⟩

/-- Loops over a list agree if their bodies do; by induction on the list. -/
theorem forEach {ι : Type*} {h : ι → Pass Maps Action} {h' : ι → Pass TaintMap Event} :
    ∀ {xs : List ι}, (∀ x ∈ xs, Agrees ids loops (h x) (h' x)) →
      Agrees ids loops (Iteration.forEach h xs) (Iteration.forEach h' xs) := by
  intro xs
  induction xs with
  | nil => exact fun _ => idle
  | cons x xs ih =>
    exact fun hx => (hx x (by simp)).seq (ih fun y hy => hx y (List.mem_cons_of_mem _ hy))

/-- The loop `while (changed)`, by induction on the fuel. Both loops report a change in the same
rounds, so that they go on together. -/
theorem whileChanged {body : ℕ → Pass Maps Action} {body' : ℕ → Pass TaintMap Event}
    (hbody : ∀ itr, Agrees ids loops (body itr) (body' itr)) (fuel : ℕ) :
    ∀ itr, Agrees ids True (Iteration.whileChanged body fuel itr)
      (Iteration.whileChanged body' fuel itr) := by
  induction fuel with
  | zero => exact fun itr s hs => .inr ⟨trivial, rfl⟩
  | succ fuel ih =>
    intro itr s hs
    rcases hbody itr s hs with ⟨a, a', ha, ha', hpa, hsa⟩ | ⟨-, ha⟩
    · cases hc : a.changed with
      | false =>
        have hc' : a'.changed = false := hsa.changed.trans hc
        exact .inl ⟨a, a', whileChanged_succ_eq_ok.mpr (.inl ⟨ha, hc⟩),
          whileChanged_succ_eq_ok.mpr (.inl ⟨ha', hc'⟩), hpa, hsa⟩
      | true =>
        have hc' : a'.changed = true := hsa.changed.trans hc
        rcases ih (itr + 1) a.state hpa.filled with ⟨b, b', hb, hb', hpb, hsb⟩ | ⟨-, hb⟩
        · rw [← hsa.state] at hb'
          exact .inl ⟨a.andThen b, a'.andThen b',
            whileChanged_succ_eq_ok.mpr (.inr ⟨a, b, ha, hc, hb, rfl⟩),
            whileChanged_succ_eq_ok.mpr (.inr ⟨a', b', ha', hc', hb', rfl⟩),
            hpa.andThen hpb, hsa.andThen hsb⟩
        · exact .inr ⟨trivial, by simp [Iteration.whileChanged, ha, hc, hb]⟩
    · exact .inr ⟨trivial, by simp [Iteration.whileChanged, ha]⟩

end Agrees

/-! ## The parts of the pass -/

section Parts

variable {L : Library} {P : Program} {callees : CalleeMap}
  {ids : Option (Finset String)} {loops : Prop}

theorem addValue_agrees {V : Value} {D : DescSet} (hD : D ≠ ∅) :
    Agrees ids loops (addValue V D) (Taint.addValue V D) := by
  intro s hs
  refine .inl ⟨_, _, rfl, rfl, ⟨hs.addValue V hD, by simp, fun _ h => h, by simp⟩, rfl, ?_, ?_⟩
  · show TaintMap.mk s.entry _ = TaintMap.mk s.entry _
    congr 1
    funext W
    by_cases h : W = V
    · subst h
      simp [toTaintMap]
    · simp [toTaintMap, h]
  · simp only [written', written]
    split <;> rfl

/-- Adding descriptors to one of the identifiers agrees; the returned bit says whether the entry was
empty, which is whether it was missing. -/
theorem addId_agrees {ID : String} {D : DescSet} {isSource : Bool} (hD : D ≠ ∅)
    (hID : ∀ S ∈ ids, ID ∈ S) :
    Agrees ids loops (addId ID D isSource) (Taint.addId ID D isSource) := by
  intro s hs
  have hunion : (s.entry ID).1 ∪ D ≠ ∅ := fun h => hD (Finset.union_eq_empty.mp h).2
  by_cases hempty : ID = ""
  · refine .inl ⟨⟨false, s, [.add ID D]⟩, .idle s.toTaintMap, by simp [addId, hempty],
      by simp [Taint.addId, hempty], ⟨hs, ?_, fun _ h => h, by simp⟩, rfl, rfl, rfl⟩
    intro ID' D' h
    obtain ⟨-, rfl⟩ : ID' = ID ∧ D' = D := by simpa using h
    exact hD
  · refine .inl ⟨_, _, by simp only [addId, hempty, if_false]; rfl,
      by simp only [Taint.addId, hempty, if_false]; rfl, ⟨⟨fun ID' e he => ?_, hs.vts⟩, ?_, ?_, ?_⟩,
      rfl, ?_, ?_⟩
    · by_cases h : ID' = ID
      · subst h
        have he : ((s.entry ID').1 ∪ D, (s.entry ID').2 || isSource) = e := by simpa using he
        rw [← he]
        exact hunion
      · exact hs.gts ID' e (by simpa [h] using he)
    · intro ID' D' h
      obtain ⟨-, rfl⟩ : ID' = ID ∧ D' = D := by simpa using h
      exact hD
    · intro ID' hne
      by_cases h : ID' = ID
      · subst h
        simpa [entry] using hunion
      · simpa [entry, h] using hne
    · intro S hS hc
      refine ⟨ID, hID S hS, by simpa using hc, ?_⟩
      simpa [entry] using hunion
    · show TaintMap.mk _ _ = TaintMap.mk _ _
      congr 1
      funext ID'
      by_cases h : ID' = ID
      · subst h
        simp [entry, toTaintMap]
      · simp [entry, h, toTaintMap]
    · simp only [written', written]
      split <;> rfl

/-- Copying from an identifier: a null pointer adds nothing, as an empty set
does. -/
theorem copyId_agrees {V : Value} {ID : String} :
    Agrees ids loops (copyId V ID) (copyEntry V (.id ID)) := by
  intro s hs
  have hget : Taint.get s.toTaintMap (.id ID) = (s.getId ID).getD ∅ := getId_toTaintMap s ID
  unfold copyId copyEntry
  rw [hget]
  cases h : s.getId ID with
  | some D => exact addValue_agrees (hs.getId ID D h) s hs
  | none =>
    refine .inl ⟨_, _, rfl, rfl, ⟨hs, by simp, fun _ h => h, by simp⟩, rfl, ?_, ?_⟩
    · show TaintMap.mk _ _ = TaintMap.mk _ _
      congr 1
      funext W
      by_cases h : W = V
      · subst h
        simp [toTaintMap]
      · simp [toTaintMap, h]
    · simp [written', written]

/-- Copying from the identifiers of `V` agrees, and changes the entry of `V`
only. -/
theorem copyIds_agrees {V : Value} {IDs : List String} {s : Maps} (hs : s.Filled) :
    ∃ a a', Iteration.forEach (copyId V) IDs s = .ok a ∧
      Iteration.forEach (copyEntry V) (IDs.map .id) s.toTaintMap = .ok a' ∧
      Promise ids s a ∧ Same a a' ∧ ∀ W, W ≠ V → a.state.vts W = s.vts W := by
  induction IDs generalizing s with
  | nil =>
    exact ⟨_, _, rfl, rfl, ⟨hs, by simp, fun _ h => h, by simp⟩, ⟨rfl, rfl, rfl⟩, fun _ _ => rfl⟩
  | cons ID IDs ih =>
    have hcopy : Agrees ids False (copyId V ID) (copyEntry V (.id ID)) := copyId_agrees
    obtain ⟨a, a', ha, ha', hpa, hsa⟩ := (hcopy s hs).resolve_right fun h => h.1
    obtain ⟨b, b', hb, hb', hpb, hsb, hother⟩ := ih hpa.filled
    refine ⟨_, _, Pass.seq_eq_ok.mpr ⟨a, b, ha, hb, rfl⟩, ?_, hpa.andThen hpb,
      hsa.andThen hsb, fun W hW => (hother W hW).trans ?_⟩
    · exact Pass.seq_eq_ok.mpr ⟨a', b', ha', by rw [hsa.state]; exact hb', rfl⟩
    · unfold copyId at ha
      split at ha
      · obtain rfl := Except.ok.inj ha
        exact Function.update_of_ne hW _ _
      · obtain rfl := Except.ok.inj ha
        rfl

/-- After the copying both versions go on with the same set. -/
theorem withTaint_continues {V : Value} {k : Option DescSet → Pass Maps Action}
    {k' : DescSet → Pass TaintMap Event} {s : Maps} {a : Report Maps Action}
    {a' : Report TaintMap Event}
    (ha' : copyTaint L P callees V s.toTaintMap = .ok a') (hpa : Promise ids s a)
    (hsa : Same a a') {DS : Option DescSet} (hDS : localTaint L P a'.state V = DS.getD ∅)
    (hk : Agrees ids loops (k DS) (k' (DS.getD ∅))) :
    (∃ b r', k DS a.state = .ok b ∧ Taint.withTaint L P callees V k' s.toTaintMap = .ok r' ∧
      Promise ids s (a.andThen b) ∧ Same (a.andThen b) r') ∨
    loops ∧ k DS a.state = .error .fuel := by
  rcases hk a.state hpa.filled with ⟨b, b', hb, hb', hpb, hsb⟩ | hfuel
  · rw [← hDS, ← hsa.state] at hb'
    refine .inl ⟨b, _, hb, withTaint_eq_ok.mpr ⟨_, b', getTaint_eq_ok.mpr ⟨a', ha', rfl⟩, hb',
      rfl⟩, hpa.andThen hpb, Same.andThen ⟨hsa.changed, hsa.state, ?_⟩ hsb⟩
    rw [← hsa.written]
    simp [written']
  · exact .inr hfuel

/-- The copying goes to the value itself. -/
theorem localTaint_copied {V : Value} {s s' : Maps}
    (hstrip : s.vts (L.stripPointerCasts P V) = none) (h : ∀ W, W ≠ V → s'.vts W = s.vts W) :
    localTaint L P s'.toTaintMap V = (s'.vts V).getD ∅ := by
  have hstrip' : (s'.vts (L.stripPointerCasts P V)).getD ∅ =
      if L.stripPointerCasts P V = V then (s'.vts V).getD ∅ else ∅ := by
    split
    · next heq => rw [heq]
    · next hne => rw [h _ hne, hstrip, Option.getD_none]
  simp only [localTaint, toTaintMap, hstrip']
  split
  · rfl
  · next h => split <;> simp_all

/-- A value with a set of its own, or of the value it is a cast of, has that; for
another one the sets of its identifiers are copied. -/
theorem withTaint_agrees {V : Value} {k : Option DescSet → Pass Maps Action}
    {k' : DescSet → Pass TaintMap Event}
    (hk : ∀ DS, NotEmpty DS → Agrees ids loops (k DS) (k' (DS.getD ∅))) :
    Agrees ids loops (withTaint L P callees V k) (Taint.withTaint L P callees V k') := by
  intro s hs
  have hidle : Promise ids s (Report.idle s) := ⟨hs, by simp, fun _ h => h, by simp⟩
  have hsame : Same (Report.idle s) (Report.idle s.toTaintMap) := ⟨rfl, rfl, rfl⟩
  have hfound : ∀ D, D ≠ ∅ → localTaint L P s.toTaintMap V = D →
      (∃ r r', k (some D) s = .ok r ∧ Taint.withTaint L P callees V k' s.toTaintMap = .ok r' ∧
        Promise ids s r ∧ Same r r') ∨ loops ∧ k (some D) s = .error .fuel := by
    intro D hD hlocal
    have hD' : localTaint L P s.toTaintMap V = (some D).getD ∅ := hlocal
    refine withTaint_continues ?_ hidle hsame hD' (hk _ ?_)
    · rw [copyTaint, if_neg (by rw [hlocal]; exact hD)]
    · rintro _ ⟨⟩
      exact hD
  cases hV : s.vts V with
  | some D =>
    have hD := hs.vts V D hV
    simp only [withTaint, hV]
    refine hfound D hD ?_
    simp [localTaint, toTaintMap, hV, hD]
  | none =>
    cases hstrip : s.vts (L.stripPointerCasts P V) with
    | some D =>
      simp only [withTaint, hV, hstrip]
      refine hfound D (hs.vts _ D hstrip) ?_
      simp [localTaint, toTaintMap, hV, hstrip]
    | none =>
      obtain ⟨a, a', ha, ha', hpa, hsa, hother⟩ : ∃ a a',
          Iteration.forEach (copyId V) (globalIds L P callees V) s = .ok a ∧
          Iteration.forEach (copyEntry V) ((globalIds L P callees V).map .id) s.toTaintMap =
            .ok a' ∧
          Promise ids s a ∧ Same a a' ∧ ∀ W, W ≠ V → a.state.vts W = s.vts W :=
        copyIds_agrees hs
      have hcopy : copyTaint L P callees V s.toTaintMap = .ok a' := by
        rw [copyTaint, if_pos (by simp [localTaint, toTaintMap, hV, hstrip]), globalEntries_eq]
        exact ha'
      have hlocal : localTaint L P a'.state V = (a.state.vts V).getD ∅ := by
        rw [hsa.state]
        exact localTaint_copied hstrip hother
      have hnot : NotEmpty (a.state.vts V) := hpa.filled.vts V
      simp only [withTaint, hV, hstrip, ha, ok_bind]
      rcases withTaint_continues hcopy hpa hsa hlocal (hk _ hnot) with
        ⟨b, r', hb, hr', hp, hsame⟩ | ⟨hl, hb⟩
      · exact .inl ⟨a.andThen b, r', by rw [hb]; rfl, hr', hp, hsame⟩
      · exact .inr ⟨hl, by rw [hb]; rfl⟩

/-- Going on with the union of the taints of values agrees. -/
theorem withTaints_agrees {Vs : List Value} {k : DescSet → Pass Maps Action}
    {k' : DescSet → Pass TaintMap Event} (hk : ∀ D, Agrees ids loops (k D) (k' D)) :
    ∀ D, Agrees ids loops (withTaints L P callees Vs D k)
      (Taint.withTaints L P callees Vs D k') := by
  induction Vs with
  | nil => exact hk
  | cons V Vs ih => exact fun D => withTaint_agrees fun DS _ => ih (D ∪ DS.getD ∅)

end Parts

end Maps

end Kint.Taint
