import Kint.Taint.Maps

/-!
# `TaintPass` terminates

`TaintMap::add` by identifier reports whether the entry was empty before the insertion.  Every
set that the pass adds is non-empty (`Promise.added`), so a report means that one of the
finitely many identifiers of the modules got its first descriptor (`Turns`), and an identifier
keeps its descriptors.  Both loops of the pass therefore end, whatever the modules are.

## Main ideas

* `instIds` lists the identifiers that the visit of an instruction may add to, by the cases of
  the source, and `identifiers` those of all instructions of the modules.  The list does not
  depend on the state, so it bounds all rounds.
* The lemmas `_agrees` go up from an instruction to the whole run: each part keeps its promise
  for the identifiers of the modules, and says the same as the version without null pointers.
* The order for both loops is `Turns`: the set of identifiers that have a descriptor grows
  inside of a finite set (`wellFounded_turns`).

## Main results

* `run_agrees`: the two transcriptions of the pass return the same.
* `run_settles`: the run has one result with all sufficient fuel.
* `taintPass_terminates`: termination for every list of modules, with the measure: no set that
  is added is empty, and from any maps that a run can be in, a pass of either loop that reports
  a change has given an identifier its first descriptor.
-/

namespace Kint.Taint.Maps

open Iteration

section Identifiers

variable (L : Library) (P : Program) (callees : CalleeMap)

/-- The identifiers that the visit of an instruction may add to. -/
def instIds (F : FuncId) (i : InstId) : List String :=
  getRetId L P F :: getValueId L P (.inst i) ::
    (fieldIds L P (P.inst i).ty (P.func F).moduleIdentifier ++ (P.inst i).id.toList ++
      match (P.inst i).op with
      | .call _ args => (calleesOf L P callees (.inst i)).flatMap fun f =>
          args.zipIdx.map fun arg => getArgId L P f arg.2
      | _ => [])

/-- The identifiers that the pass may add to. -/
def identifiers (modules : List Module) : Finset String :=
  (modules.flatMap fun M => M.functions.flatMap fun F =>
    (P.instsOf F).flatMap (instIds L P callees F)).toFinset

end Identifiers

variable {L : Library} {P : Program} {callees : CalleeMap}

/-! ## Every part keeps the promise -/

section Parts

variable {ids : Option (Finset String)} {loops : Prop} {F : FuncId} {i : InstId}

/-- A taint source adds to its own value and to the identifiers of the instruction. The source takes
a reference to the entry of the value and reads it while it adds to identifiers. The entry was just
created and is not empty, so the copy that the model takes is what the reference sees. -/
theorem checkTaintSource_agrees (hids : ∀ S ∈ ids, ∀ ID ∈ instIds L P callees F i, ID ∈ S) :
    Agrees ids loops (checkTaintSource L P F i) (Taint.checkTaintSource L P F i) := by
  unfold checkTaintSource Taint.checkTaintSource
  cases (P.inst i).taintSrc with
  | none => exact .idle
  | some d =>
    intro s hs
    -- the entry that the reference is taken from was just created
    have hD : (s.vts (.inst i)).getD ∅ ∪ {d} ≠ ∅ := by simp
    have hadd : Agrees ids False (addValue (.inst i) {d}) (Taint.addValue (.inst i) {d}) :=
      addValue_agrees (by simp)
    obtain ⟨a, a', ha, ha', hpa, hsa⟩ := (hadd s hs).resolve_right fun h => h.1
    have hget : a.state.vts (.inst i) = some ((s.vts (.inst i)).getD ∅ ∪ {d}) := by
      obtain rfl := Except.ok.inj ha
      simp
    have hget' : a'.state.vts (.inst i) = (s.vts (.inst i)).getD ∅ ∪ {d} := by
      simp only [hsa.state, toTaintMap, hget, Option.getD_some]
    have hloop : Agrees ids loops
        (Iteration.forEach (fun ID => addId ID ((s.vts (.inst i)).getD ∅ ∪ {d}) true)
          (getValueId L P (.inst i) ::
            fieldIds L P (P.inst i).ty (P.func F).moduleIdentifier))
        (Iteration.forEach (fun ID => Taint.addId ID ((s.vts (.inst i)).getD ∅ ∪ {d}) true)
          (getValueId L P (.inst i) ::
            fieldIds L P (P.inst i).ty (P.func F).moduleIdentifier)) := by
      refine .forEach fun ID hID => addId_agrees hD fun S hS => hids S hS ID ?_
      unfold instIds
      rcases List.mem_cons.mp hID with rfl | hID
      · simp
      · simp [hID]
    rcases hloop a.state hpa.filled with ⟨b, b', hb, hb', hpb, hsb⟩ | ⟨hl, hb⟩
    · refine .inl ⟨a.andThen b, _, Pass.seq_eq_ok.mpr ⟨a, b, ha, by simp only [hget, hb], rfl⟩,
        Pass.seq_eq_ok.mpr ⟨a', _, ha', withValue_eq_ok.mpr ⟨b', ?_, rfl⟩, rfl⟩,
        hpa.andThen hpb, hsa.andThen ⟨hsb.changed, hsb.state, ?_⟩⟩
      · rw [hget', hsa.state, hb']
      · rw [← hsb.written]
        simp [written']
    · exact .inr ⟨hl, by simp only [Pass.seq, ha, ok_bind, hget, hb, error_bind]⟩

/-- Marking an argument adds to the identifier of the argument. -/
theorem markArgument_agrees {f : FuncId} {arg : Value × ℕ}
    (hID : ∀ S ∈ ids, getArgId L P f arg.2 ∈ S) :
    Agrees ids loops (markArgument L P callees f arg) (Taint.markArgument L P callees f arg) := by
  refine withTaint_agrees fun DS hDS => ?_
  cases DS with
  | none => exact .idle
  | some D =>
    have hD : D ≠ ∅ := hDS D rfl
    simp only [Option.getD_some, hD, if_false]
    exact addId_agrees hD hID

theorem visitCall_agrees {callee : Value} {args : List Value}
    (hop : (P.inst i).op = .call callee args)
    (hids : ∀ S ∈ ids, ∀ ID ∈ instIds L P callees F i, ID ∈ S) :
    Agrees ids loops (visitCall L P callees i args) (Taint.visitCall L P callees i args) := by
  refine .forEach fun f hf => ?_
  split
  · exact .idle
  · refine .forEach fun arg harg => markArgument_agrees fun S hS => hids S hS _ ?_
    simp only [instIds, hop, List.mem_cons, List.mem_append, List.mem_flatMap, List.mem_map]
    exact .inr (.inr (.inr ⟨f, hf, arg, harg, rfl⟩))

/-- The descriptors of the operands are added to the identifiers of the instruction. -/
theorem propagate_agrees (hids : ∀ S ∈ ids, ∀ ID ∈ instIds L P callees F i, ID ∈ S) (D : DescSet) :
    Agrees ids loops (propagate L P F i D) (Taint.propagate L P F i D) := by
  unfold propagate Taint.propagate
  split
  · exact .idle
  · next hD =>
    refine (addValue_agrees hD).seq ?_
    cases (P.inst i).op with
    | store =>
      simp only
      cases hID : (P.inst i).id with
      | none => exact .idle
      | some ID => exact addId_agrees hD fun S hS => hids S hS ID (by simp [instIds, hID])
    | ret => exact addId_agrees hD fun S hS => hids S hS _ (by simp [instIds])
    | _ => exact .idle

/-- A visit adds to the identifiers of the instruction only. -/
theorem visitInst_agrees (hids : ∀ S ∈ ids, ∀ ID ∈ instIds L P callees F i, ID ∈ S) :
    Agrees ids loops (visitInst L P callees F i) (Taint.visitInst L P callees F i) := by
  refine (checkTaintSource_agrees hids).seq ?_
  cases hop : (P.inst i).op with
  | call callee args => exact visitCall_agrees hop hids
  | _ => exact withTaints_agrees (propagate_agrees hids) ∅

end Parts

section Run

variable {modules : List Module} {loops : Prop}

/-- A visit of a function of the modules adds to identifiers of the modules. -/
theorem runOnFunction_agrees {M : Module} (hM : M ∈ modules) {F : FuncId}
    (hF : F ∈ M.functions) :
    Agrees (some (identifiers L P callees modules)) loops (runOnFunction L P callees F)
      (Taint.runOnFunction L P callees F) := by
  refine .forEach fun i hi => visitInst_agrees fun S hS ID hID => ?_
  obtain rfl := Option.some.inj hS
  simp only [identifiers, List.mem_toFinset, List.mem_flatMap]
  exact ⟨M, hM, F, hF, i, hi, hID⟩

/-- So does one pass over the functions of a module. -/
theorem runOnFunctions_agrees {M : Module} (hM : M ∈ modules) :
    Agrees (some (identifiers L P callees modules)) loops (runOnFunctions L P callees M)
      (Iteration.forEach (Taint.runOnFunction L P callees) M.functions) :=
  .forEach fun _ hF => runOnFunction_agrees hM hF

/-- The loop over a module agrees; it may run out of fuel. -/
theorem doModulePass_agrees {M : Module} (hM : M ∈ modules) (fuel : ℕ) :
    Agrees (some (identifiers L P callees modules)) True (doModulePass L P callees fuel M)
      (Taint.doModulePass L P callees fuel M) :=
  have hround : Agrees _ False (runOnFunctions L P callees M) _ := runOnFunctions_agrees hM
  .whileChanged (fun _ => hround) fuel 1

theorem doFinalization_agrees (M : Module) :
    Agrees none loops (doFinalization L P callees M) (Taint.doFinalization L P callees M) := by
  refine .forEach fun f _ => .forEach fun i _ => withTaint_agrees fun DS _ s hs => ?_
  exact .inl ⟨_, _, rfl, rfl, ⟨hs, by simp, fun _ h => h, nofun⟩, rfl, rfl, rfl⟩

theorem iterate_agrees (fuel : ℕ) :
    Agrees (some (identifiers L P callees modules)) True
      ((taintPass L P callees).iterate fuel modules)
      ((Taint.taintPass L P callees).iterate fuel modules) :=
  .whileChanged (fun _ => .forEach fun _ hM => doModulePass_agrees hM fuel) fuel 1

/-- The run on the maps does the same as the run that does not tell a missing entry
from an empty one: the reported bits, the maps and the metadata agree. -/
theorem run_agrees (fuel : ℕ) :
    Agrees none True ((taintPass L P callees).run fuel modules)
      ((Taint.taintPass L P callees).run fuel modules) := by
  have hinit : Agrees none True
      (Iteration.forEach (taintPass L P callees).doInitialization modules)
      (Iteration.forEach (Taint.taintPass L P callees).doInitialization modules) := by
    refine .forEach fun M _ s hs => ?_
    exact .inl ⟨_, _, rfl, rfl, ⟨hs, by simp, fun _ h => h, nofun⟩, rfl, rfl, rfl⟩
  exact hinit.seq ((iterate_agrees fuel).unread.seq
    (.forEach fun M _ => doFinalization_agrees M))

/-! ## The loops end -/

/-- The identifiers among finitely many that have a descriptor: there is no
infinite ascent. -/
theorem wellFounded_turns (ids : Finset String) :
    WellFounded fun b a : Maps => b.Filled ∧
      (Turns ids a b ∧ ∀ ID, (a.entry ID).1 ≠ ∅ → (b.entry ID).1 ≠ ∅) := by
  refine Subrelation.wf ?_ (wellFounded_growth ids.finite_toSet fun s : Maps =>
    {ID | ID ∈ ids ∧ (s.entry ID).1 ≠ ∅})
  rintro b a ⟨-, ⟨ID, hID, hempty, hne⟩, hkeeps⟩
  refine ⟨fun _ h => h.1, fun _ h => ⟨h.1, hkeeps _ h.2⟩, fun hsub => ?_⟩
  exact (hsub (a := ID) ⟨hID, hne⟩).2 hempty

/-- The loop over a module ends: each round that reports a change gives an identifier its first
descriptor. -/
theorem doModulePass_settles {M : Module} (hM : M ∈ modules) {s : Maps} (hs : s.Filled) :
    Settles (fun fuel => doModulePass L P callees fuel M) s := by
  have hbody : Agrees (some (identifiers L P callees modules)) False
      (runOnFunctions L P callees M) _ := runOnFunctions_agrees hM
  refine whileChanged_settles (f := fun _ _ => runOnFunctions L P callees M)
    (wellFounded_turns (identifiers L P callees modules)) (fun itr s hs => ?_)
    (fun m itr s r hs h => (hbody.promise hs h).filled) (fun m itr s r hs h hc => ?_) hs 1
  · obtain ⟨r, hr⟩ := hbody.total hs
    exact settles_of_ok (n := 0) fun m _ => hr
  · exact ⟨(hbody.promise hs h).turns _ rfl hc, (hbody.promise hs h).keeps⟩

/-- The iteration over all modules ends for the same reason. -/
theorem iterate_settles {s : Maps} (hs : s.Filled) :
    Settles (fun fuel => (taintPass L P callees).iterate fuel modules) s := by
  have hround : ∀ fuel, Agrees (some (identifiers L P callees modules)) True
      (Iteration.forEach (doModulePass L P callees fuel) modules) _ :=
    fun fuel => .forEach fun _ hM => doModulePass_agrees hM fuel
  refine whileChanged_settles
    (f := fun fuel _ => Iteration.forEach (doModulePass L P callees fuel) modules)
    (wellFounded_turns (identifiers L P callees modules)) (fun itr s hs => ?_)
    (fun m itr s r hs h => ((hround m).promise hs h).filled) (fun m itr s r hs h hc => ?_) hs 1
  · exact forEach_settles (fun M hM s hs => doModulePass_settles hM hs)
      (fun M hM m s r hs h => ((doModulePass_agrees hM m).promise hs h).filled) hs
  · exact ⟨((hround m).promise hs h).turns _ rfl hc, ((hround m).promise hs h).keeps⟩

/-- The run has one result with all sufficient fuel. Each loop of the pass ends by itself; putting
them together takes the invariant that entries were filled by initialization. -/
theorem run_settles : ∃ r n, ∀ fuel, n ≤ fuel →
    (taintPass L P callees).run fuel modules .init = .ok r := by
  have hset : Settles (fun fuel => (taintPass L P callees).run fuel modules) .init := by
    have hinit : ∀ M ∈ modules, ∀ s : Maps,
        Settles (fun _ => (taintPass L P callees).doInitialization M) s :=
      fun M _ s => settles_of_ok (n := 0) fun _ _ => rfl
    have hkept : ∀ {r}, Iteration.forEach (taintPass L P callees).doInitialization modules
        .init = .ok r → r.state.Filled := fun h =>
      (Sequential.invariant Filled).forEach_spec
        (fun M _ s r h hs => by obtain rfl := Except.ok.inj h; exact hs) h filled_init
    refine Settles.seq (forEach_settles (I := fun _ => True)
      (fun M hM s _ => hinit M hM s) (fun _ _ _ _ _ _ _ => trivial) trivial) fun m r hr => ?_
    refine Settles.seq (iterate_settles (hkept hr)) fun m r' hr' => ?_
    have hfilled := ((iterate_agrees m).promise (hkept hr) hr').filled
    have hfinal : Agrees none False (Iteration.forEach (doFinalization L P callees) modules)
        (Iteration.forEach (Taint.doFinalization L P callees) modules) :=
      .forEach fun M _ => doFinalization_agrees M
    obtain ⟨r'', hr''⟩ := hfinal.total hfilled
    exact settles_of_ok (n := 0) fun _ _ => hr''
  exact hset.ok fun fuel (_ : 0 ≤ fuel) => (run_agrees fuel).ne_fatal filled_init

end Run

/-! ## The result -/

/-- The maps that the iteration of a run can be in between the visits of two
functions. -/
inductive ReachedMaps (L : Library) (P : Program) (callees : CalleeMap)
    (modules : List Module) : Maps → Prop
  | init : ReachedMaps L P callees modules .init
  | visit {s : Maps} {M : Module} {F : FuncId} {r : Report Maps Action} :
      ReachedMaps L P callees modules s → M ∈ modules → F ∈ M.functions →
      runOnFunction L P callees F s = .ok r → ReachedMaps L P callees modules r.state

/-- The maps that a run can be in hold no empty set. -/
theorem ReachedMaps.filled {modules : List Module} {s : Maps}
    (h : ReachedMaps L P callees modules s) : s.Filled := by
  induction h with
  | init => exact filled_init
  | visit _ hM hF hr ih =>
    have hvisit : Agrees _ False (runOnFunction L P callees _) _ := runOnFunction_agrees hM hF
    exact (hvisit.promise ih hr).filled

/-- `TaintPass::run` terminates on every list of modules, with any map of callees.
Every set that is passed to `add` by identifier in the run is non-empty; and a pass
of either loop that reports a change, wherever in the run it starts, has given one
of the finitely many identifiers of the modules its first descriptor. -/
theorem taintPass_terminates (modules : List Module) :
    (∃ r n, (∀ fuel, n ≤ fuel → (taintPass L P callees).run fuel modules .init = .ok r) ∧
      ∀ ID D, .add ID D ∈ r.trace → D ≠ ∅) ∧
    ∀ s, ReachedMaps L P callees modules s →
      (∀ M ∈ modules, ∀ r, runOnFunctions L P callees M s = .ok r → r.changed = true →
        Turns (identifiers L P callees modules) s r.state) ∧
      ∀ fuel r, forEach (doModulePass L P callees fuel) modules s = .ok r →
        r.changed = true → Turns (identifiers L P callees modules) s r.state := by
  constructor
  · obtain ⟨r, n, hr⟩ : ∃ r n, ∀ fuel, n ≤ fuel →
        (taintPass L P callees).run fuel modules .init = .ok r := run_settles
    exact ⟨r, n, hr, ((run_agrees n).promise filled_init (hr n le_rfl)).added⟩
  · intro s hs
    refine ⟨fun M hM r hr hc => ?_, fun fuel r hr hc => ?_⟩
    · have hround : Agrees _ False (runOnFunctions L P callees M) _ := runOnFunctions_agrees hM
      exact (hround.promise hs.filled hr).turns _ rfl hc
    · have hround : Agrees (some (identifiers L P callees modules)) True
          (Iteration.forEach (doModulePass L P callees fuel) modules) _ :=
        .forEach fun _ hM => doModulePass_agrees hM fuel
      exact (hround.promise hs.filled hr).turns _ rfl hc

end Kint.Taint.Maps
