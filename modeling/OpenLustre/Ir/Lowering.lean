import OpenLustre.Ir.Refinement
import OpenLustre.Lib.Statechart

/-! What the lowering of a state machine emits for each of its regions. -/

namespace OpenLustre.Ir

/-- A region with its states as they are in the machine. -/
def Region.chart (r : Region) : Statechart.Region String Expr where
  states := r.states.map (·.name)
  initial := r.initialState
  transitions s := ((r.states.find? (·.name = s)).map fun st =>
    st.transitions.map fun t => (t.guard, t.target)).getD []
  history := r.history

/-- A region inside another one, with the states that it is inside of: the variable of each one's
region, and its name. -/
inductive Nested : RegionInfo → List (String × String) → RegionInfo → Prop
  | self (info : RegionInfo) : Nested info [] info
  | inner {info sub info' : RegionInfo} {node : StateNode} {path : List (String × String)} :
    node ∈ info.states → sub ∈ node.nested → Nested sub path info' →
    Nested info ((info.stateVar, node.state.name) :: path) info'

/-- The equations of a region and of those inside it are among `eqs`, and its states among
`bound`. -/
inductive Emitted (bound : List String) (eqs : List Equation) : Option Expr → RegionInfo → Prop
  | intro {active : Option Expr} {info : RegionInfo} (names : RegionNames) :
    info.stateVar = names.stateVar →
    (∀ eq ∈ regionEquations names active info.region, eq ∈ eqs) →
    info.states.map (·.state) = info.region.states →
    info.region.initialState ∈ info.region.states.map (·.name) →
    (∀ st ∈ info.region.states, st.name ∈ bound ∧
      ∀ t ∈ st.transitions, t.target ∈ info.region.states.map (·.name)) →
    (∀ node ∈ info.states, node.nested.map (·.region) = node.state.regions) →
    (∀ node ∈ info.states, ∀ sub ∈ node.nested, Emitted bound eqs
      (some (nestedActive names.stateVar (active.map fun _ => names.activeVar) node.state.name))
      sub) →
    Emitted bound eqs active info

section Emission

variable {machine : String} {bound : List String}

/-- What emitting the states of a region leaves. -/
structure EmitsStates (bound : List String) (stateVar : String) (activeVar : Option String)
    (states : List StateDef) (lo : Lower) (nodes : List StateNode) (lo' : Lower) : Prop where
  equations : lo.equations ⊆ lo'.equations
  states : nodes.map (·.state) = states
  regions : ∀ node ∈ nodes, node.nested.map (·.region) = node.state.regions
  emitted : ∀ eqs, lo'.equations ⊆ eqs → ∀ node ∈ nodes, ∀ sub ∈ node.nested,
    Emitted bound eqs (some (nestedActive stateVar activeVar node.state.name)) sub

structure EmitsRegions (bound : List String) (active : Expr) (regions : List Region) (lo : Lower)
    (infos : List RegionInfo) (lo' : Lower) : Prop where
  equations : lo.equations ⊆ lo'.equations
  regions : infos.map (·.region) = regions
  emitted : ∀ eqs, lo'.equations ⊆ eqs → ∀ sub ∈ infos, Emitted bound eqs (some active) sub

theorem scopedStates_targets {names : List String} {states : List StateDef}
    (h : ScopedStates names states) :
    ∀ st ∈ states, ∀ t ∈ st.transitions, t.target ∈ names := by
  induction states with
  | nil => simp
  | cons st states ih =>
    obtain ⟨name, equations, transitions, regions, refines⟩ := st
    obtain ⟨hst, hstates⟩ := h
    intro st' hst'
    cases List.mem_cons.mp hst' with
    | inl heq =>
      subst heq
      exact hst.1
    | inr hmem => exact ih hstates st' hmem

theorem mem_collectStateNames {states : List StateDef} {st : StateDef} (h : st ∈ states) :
    st.name ∈ collectStateNames states := by
  induction states with
  | nil => cases h
  | cons st' states ih =>
    obtain ⟨name, equations, transitions, regions, refines⟩ := st'
    cases List.mem_cons.mp h with
    | inl heq =>
      subst heq
      exact List.mem_append_left _ List.mem_cons_self
    | inr hmem => exact List.mem_append_right _ (ih hmem)

/-- A region is emitted when its states are. -/
theorem emitRegion_emitted {initial : String} {states : List StateDef} {history : Bool}
    (hstates : ∀ sv av lo nodes lo', emitStates machine sv av states lo = (nodes, lo') →
      EmitsStates bound sv av states lo nodes lo')
    (hscoped : ScopedRegion ⟨initial, states, history⟩)
    (hbound : ∀ x ∈ collectStateNames states, x ∈ bound) {active : Option Expr} {lo lo' : Lower}
    {info : RegionInfo}
    (h : emitRegion machine active ⟨initial, states, history⟩ lo = (info, lo')) :
    lo.equations ⊆ lo'.equations ∧ info.region = ⟨initial, states, history⟩ ∧
      ∀ eqs, lo'.equations ⊆ eqs → Emitted bound eqs active info := by
  rw [emitRegion] at h
  obtain ⟨nodes, lo₁, hnodes⟩ : ∃ nodes lo₁, emitStates machine
      (regionNames machine lo.nextId).stateVar
      (active.map fun _ => (regionNames machine lo.nextId).activeVar) states
      { enums := lo.enums ++ [⟨.enum ⟨(regionNames machine lo.nextId).enumName,
          states.map (·.name)⟩⟩]
        locals := lo.locals ++ regionLocals (regionNames machine lo.nextId) active.isSome
        equations := lo.equations ++ regionEquations (regionNames machine lo.nextId) active
          ⟨initial, states, history⟩
        nextId := lo.nextId + 1 } = (nodes, lo₁) := ⟨_, _, rfl⟩
  simp only [hnodes] at h
  cases h
  have hemits := hstates _ _ _ _ _ hnodes
  refine ⟨fun eq heq => hemits.equations (List.mem_append_left _ heq), rfl, fun eqs hsub => ?_⟩
  refine .intro (regionNames machine lo.nextId) rfl ?_ hemits.states hscoped.1 ?_ hemits.regions
    (hemits.emitted eqs hsub)
  · exact fun eq heq => hsub (hemits.equations (List.mem_append_right _ heq))
  · intro st hst
    exact ⟨hbound _ (mem_collectStateNames hst), scopedStates_targets hscoped.2 st hst⟩

theorem emits : (∀ states : List StateDef, ∀ names, ScopedStates names states →
      (∀ x ∈ collectStateNames states, x ∈ bound) → ∀ sv av lo nodes lo',
      emitStates machine sv av states lo = (nodes, lo') →
      EmitsStates bound sv av states lo nodes lo') ∧
    ∀ regions : List Region, ScopedRegions regions →
      (∀ x ∈ collectRegions regions, x ∈ bound) → ∀ active lo infos lo',
      emitRegions machine active regions lo = (infos, lo') →
      EmitsRegions bound active regions lo infos lo' := by
  apply states_induct
  · intro names _ _ sv av lo nodes lo' h
    cases h
    exact ⟨fun _ h => h, rfl, by simp, by simp⟩
  · intro name equations transitions regions refines states ihregions ihstates names hscoped hbound
      sv av lo nodes lo' h
    obtain ⟨⟨htargets, hregions⟩, hstates⟩ := hscoped
    rw [emitStates, emitState] at h
    obtain ⟨nested, lo₁, hnested⟩ : ∃ nested lo₁, emitRegions machine (nestedActive sv av name)
        regions lo = (nested, lo₁) := ⟨_, _, rfl⟩
    obtain ⟨rest, lo₂, hrest⟩ : ∃ rest lo₂, emitStates machine sv av states lo₁ = (rest, lo₂) :=
      ⟨_, _, rfl⟩
    simp only [hnested, hrest] at h
    cases h
    have hemits := ihregions hregions (fun x hx => hbound x
      (List.mem_append_left _ (List.mem_cons_of_mem _ hx))) _ _ _ _ hnested
    have hemits' := ihstates names hstates (fun x hx => hbound x (List.mem_append_right _ hx))
      _ _ _ _ _ hrest
    refine ⟨List.Subset.trans hemits.equations hemits'.equations, ?_, ?_, ?_⟩
    · rw [List.map_cons, hemits'.states]
    · intro node hnode
      cases List.mem_cons.mp hnode with
      | inl heq =>
        subst heq
        exact hemits.regions
      | inr hmem => exact hemits'.regions node hmem
    · intro eqs hsub node hnode
      cases List.mem_cons.mp hnode with
      | inl heq =>
        subst heq
        exact hemits.emitted eqs (List.Subset.trans hemits'.equations hsub)
      | inr hmem => exact hemits'.emitted eqs hsub node hmem
  · intro _ _ active lo infos lo' h
    cases h
    exact ⟨fun _ h => h, rfl, by simp⟩
  · intro initial states history regions ihstates ihregions hscoped hbound active lo infos lo' h
    obtain ⟨hregion, hregions⟩ := hscoped
    rw [emitRegions] at h
    obtain ⟨info, lo₁, hinfo⟩ : ∃ info lo₁, emitRegion machine (some active)
        ⟨initial, states, history⟩ lo = (info, lo₁) := ⟨_, _, rfl⟩
    obtain ⟨rest, lo₂, hrest⟩ : ∃ rest lo₂, emitRegions machine active regions lo₁ = (rest, lo₂) :=
      ⟨_, _, rfl⟩
    simp only [hinfo, hrest] at h
    cases h
    have hbound' : ∀ x ∈ collectStateNames states, x ∈ bound := fun x hx =>
      hbound x (List.mem_append_left _ hx)
    obtain ⟨hequations, heq, hemitted⟩ :=
      emitRegion_emitted (ihstates _ hregion.2 hbound') hregion hbound' hinfo
    have hemits := ihregions hregions (fun x hx => hbound x (List.mem_append_right _ hx))
      _ _ _ _ hrest
    refine ⟨List.Subset.trans hequations hemits.equations, ?_, ?_⟩
    · rw [List.map_cons, hemits.regions, heq]
    · intro eqs hsub sub hmem
      cases List.mem_cons.mp hmem with
      | inl heq => exact heq ▸ hemitted eqs (List.Subset.trans hemits.equations hsub)
      | inr hmem => exact hemits.emitted eqs hsub sub hmem

theorem lower_eq_ok {sm : StateMachineDef} {lowered : LoweredMachine}
    (h : lower sm = .ok lowered) : checkOutputs sm sm.outputs = .ok () ∧
      lowered.node.equations = sm.emit.2.equations ++
        sm.outputs.map fun out => ⟨[out.name], valueOf out.name out.ty sm.emit.1⟩ := by
  cases hempty : sm.states.isEmpty with
  | true =>
    simp only [lower, hempty, if_true] at h
    cases h
  | false =>
    cases hdup : firstDuplicate [] (collectStateNames sm.states) with
    | some n =>
      simp only [lower, hempty, hdup] at h
      cases h
    | none =>
      simp only [lower, hempty, hdup] at h
      obtain ⟨_, -, h⟩ := Except.bind_eq_ok.mp h
      obtain ⟨_, -, h⟩ := Except.bind_eq_ok.mp h
      obtain ⟨_, houtputs, h⟩ := Except.bind_eq_ok.mp h
      cases h
      exact ⟨houtputs, rfl⟩

/-- A machine that is lowered is emitted with all its regions. -/
theorem lower_emitted {sm : StateMachineDef} {lowered : LoweredMachine}
    (h : lower sm = .ok lowered) :
    Emitted (collectStateNames sm.states) lowered.node.equations none sm.emit.1 := by
  obtain ⟨-, hscoped⟩ := lower_accepts h
  obtain ⟨info, lo, hemit⟩ : ∃ info lo, sm.emit = (info, lo) := ⟨_, _, rfl⟩
  have hbound : ∀ x ∈ collectStateNames sm.states, x ∈ collectStateNames sm.states := fun _ h => h
  obtain ⟨-, -, hemitted⟩ :=
    emitRegion_emitted (emits.1 sm.states _ hscoped.2 hbound) hscoped hbound hemit
  rw [(lower_eq_ok h).2, hemit]
  exact hemitted _ (List.subset_append_left _ _)

theorem emit_region (sm : StateMachineDef) : sm.emit.1.region = sm.top := rfl

end Emission

section Coverage

variable {machine o : String}

theorem covers_of_require :
    (∀ states, requireCover machine o states = .ok () → allStatesCover o states = true) ∧
      ∀ regions err first, requireAnyCover machine o err first regions = .ok () →
        anyRegionCovers o regions = true := by
  apply states_induct
  · exact fun _ => rfl
  · intro name equations transitions regions refines states ihregions ihstates h
    simp only [requireCover, requireCoverState] at h
    obtain ⟨_, hst, hstates⟩ := Except.bind_eq_ok.mp h
    simp only [allStatesCover, stateCovers, Bool.and_eq_true, Bool.or_eq_true]
    refine ⟨?_, ihstates hstates⟩
    split at hst
    · next hown => exact .inl hown
    · exact .inr (ihregions _ _ hst)
  · intro err first h
    cases h
  · intro initialState states history regions ihstates ihregions err first h
    simp only [requireAnyCover, requireCoverRegion] at h
    simp only [anyRegionCovers, regionCovers, Bool.or_eq_true]
    split at h
    · next hcover => exact .inl (ihstates hcover)
    · exact .inr (ihregions _ _ h)

/-- Every output is assigned in every state, by the state or a region in it. -/
theorem lower_covers {sm : StateMachineDef} {lowered : LoweredMachine}
    (h : lower sm = .ok lowered) {out : Port} (hout : out ∈ sm.outputs) :
    regionCovers out.name sm.emit.1.region = true := by
  have hchecked := (lower_eq_ok h).1
  rw [emit_region]
  suffices hall : ∀ outs, checkOutputs sm outs = .ok () →
      ∀ out ∈ outs, allStatesCover out.name sm.states = true from
    hall sm.outputs hchecked out hout
  intro outs
  induction outs with
  | nil => simp
  | cons out' outs ih =>
    intro houts
    obtain ⟨_, hcover, houts⟩ := Except.bind_eq_ok.mp houts
    intro out hout
    cases List.mem_cons.mp hout with
    | inl heq => exact heq ▸ covers_of_require.1 _ hcover
    | inr hmem => exact ih houts out hmem

theorem allStatesCover_iff {states : List StateDef} :
    allStatesCover o states = true ↔ ∀ st ∈ states, stateCovers o st = true := by
  induction states with
  | nil => simp [allStatesCover]
  | cons st states ih => simp [allStatesCover, ih]

theorem anyRegionCovers_iff {regions : List Region} :
    anyRegionCovers o regions = true ↔ ∃ r ∈ regions, regionCovers o r = true := by
  induction regions with
  | nil => simp [anyRegionCovers]
  | cons r regions ih => simp [anyRegionCovers, ih]

theorem regionCovers_eq (r : Region) : regionCovers o r = allStatesCover o r.states := by
  cases r
  rfl

theorem stateCovers_eq (st : StateDef) :
    stateCovers o st = (st.equations.any (·.lhs == [o]) || anyRegionCovers o st.regions) := by
  cases st
  rfl

theorem valueOf_eq (ty : Ty) (info : RegionInfo) :
    valueOf o ty info = valueChain o ty info.stateVar info.states := by
  cases info
  rfl

theorem valueInState_eq (ty : Ty) (node : StateNode) :
    valueInState o ty node = (valueInRegions o ty node.nested).getD
      (((node.state.equationOf o).map (·.rhs)).getD (defaultExprForType ty)) := by
  cases node
  rfl

/-- A state that assigns an output, but in none of its regions, has an equation for it. -/
theorem exists_equationOf {st : StateDef} (h : stateCovers o st = true)
    (hregions : ∀ r ∈ st.regions, regionCovers o r = false) : ∃ eq, st.equationOf o = some eq := by
  have hany : anyRegionCovers o st.regions ≠ true := by
    rw [ne_eq, anyRegionCovers_iff]
    rintro ⟨r, hr, hcovers⟩
    rw [hregions r hr] at hcovers
    cases hcovers
  rw [stateCovers_eq, Bool.eq_false_of_not_eq_true hany, Bool.or_false] at h
  exact Option.isSome_iff_exists.mp (by rwa [StateDef.equationOf, List.find?_isSome, ← List.any_eq_true])

end Coverage

end OpenLustre.Ir
