import OpenLustre.Ir.StateMachine
import OpenLustre.Lib.Descent
import OpenLustre.Lib.Stateful

/-! Which machines the refinements of a machine lead to, and what they expand to. -/

namespace OpenLustre.Ir

open Relation Descent

section Targets

mutual

/-- The machines that a state refines, itself or in its regions. -/
def stateTargets : StateDef → List String
  | ⟨_, _, _, regions, refines⟩ => regionsTargets regions ++ refines.toList
  termination_by structural st => st

def statesTargets : List StateDef → List String
  | [] => []
  | st :: states => stateTargets st ++ statesTargets states
  termination_by structural states => states

def regionTargets : Region → List String
  | ⟨_, states, _⟩ => statesTargets states
  termination_by structural r => r

def regionsTargets : List Region → List String
  | [] => []
  | r :: regions => regionTargets r ++ regionsTargets regions
  termination_by structural regions => regions

end

mutual

/-- The states that refine a machine. -/
def stateRefining : StateDef → List String
  | ⟨name, _, _, regions, refines⟩ =>
    (if refines.isSome then [name] else []) ++ regionsRefining regions
  termination_by structural st => st

def statesRefining : List StateDef → List String
  | [] => []
  | st :: states => stateRefining st ++ statesRefining states
  termination_by structural states => states

def regionRefining : Region → List String
  | ⟨_, states, _⟩ => statesRefining states
  termination_by structural r => r

def regionsRefining : List Region → List String
  | [] => []
  | r :: regions => regionRefining r ++ regionsRefining regions
  termination_by structural regions => regions

end

mutual

/-- Targets are among the states of their region, and initial states too. -/
def ScopedState (names : List String) : StateDef → Prop
  | ⟨_, _, transitions, regions, _⟩ =>
    (∀ t ∈ transitions, t.target ∈ names) ∧ ScopedRegions regions
  termination_by structural st => st

def ScopedStates (names : List String) : List StateDef → Prop
  | [] => True
  | st :: states => ScopedState names st ∧ ScopedStates names states
  termination_by structural states => states

def ScopedRegion : Region → Prop
  | ⟨initialState, states, _⟩ =>
    initialState ∈ states.map (·.name) ∧ ScopedStates (states.map (·.name)) states
  termination_by structural r => r

def ScopedRegions : List Region → Prop
  | [] => True
  | r :: regions => ScopedRegion r ∧ ScopedRegions regions
  termination_by structural regions => regions

end

end Targets

/-- Induction on states and regions at once. -/
theorem states_induct {P : List StateDef → Prop} {Q : List Region → Prop} (noStates : P [])
    (state : ∀ name equations transitions regions refines states, Q regions → P states →
      P (⟨name, equations, transitions, regions, refines⟩ :: states))
    (noRegions : Q []) (region : ∀ initialState states history regions, P states → Q regions →
      Q (⟨initialState, states, history⟩ :: regions)) :
    (∀ states, P states) ∧ ∀ regions, Q regions := by
  have hstate : ∀ st : StateDef, Q st.regions := by
    refine @StateDef.rec (fun st => Q st.regions) (fun r => P r.states) Q P ?_ ?_ noRegions ?_
      noStates ?_
    · exact fun _ _ _ _ _ ih => ih
    · exact fun _ _ _ ih => ih
    · rintro ⟨initialState, states, history⟩ regions ih ihs
      exact region initialState states history regions ih ihs
    · rintro ⟨name, equations, transitions, regions, refines⟩ states ih ihs
      exact state name equations transitions regions refines states ih ihs
  have hstates : ∀ states, P states := by
    intro states
    induction states with
    | nil => exact noStates
    | cons st states ih =>
      obtain ⟨name, equations, transitions, regions, refines⟩ := st
      exact state name equations transitions regions refines states
        (hstate ⟨name, equations, transitions, regions, refines⟩) ih
  refine ⟨hstates, fun regions => ?_⟩
  induction regions with
  | nil => exact noRegions
  | cons r regions ih =>
    obtain ⟨initialState, states, history⟩ := r
    exact region initialState states history regions (hstates states) ih

section Expansion

variable (find : String → Option StateMachineDef)

mutual

/-- The states of a machine with every name under a prefix, and in place of a refinement a
region more, with the states of the machine refined under the prefix of the state. -/
inductive Expands : String → List StateDef → List StateDef → Prop
  | nil {pre : String} : Expands pre [] []
  | plain {pre name : String} {equations : List Equation} {transitions : List Transition}
    {regions regions' : List Region} {states states' : List StateDef} :
    ExpandsRegions pre regions regions' → Expands pre states states' →
    Expands pre (⟨name, equations, transitions, regions, none⟩ :: states)
      (⟨pre ++ name, equations, transitions.map fun t => ⟨t.guard, pre ++ t.target⟩, regions',
        none⟩ :: states')
  | refined {pre name target : String} {equations : List Equation} {transitions : List Transition}
    {regions regions' : List Region} {sub : StateMachineDef}
    {inlined states states' : List StateDef} :
    ExpandsRegions pre regions regions' → find target = some sub →
    Expands (pre ++ (name ++ "_")) sub.states inlined → Expands pre states states' →
    Expands pre (⟨name, equations, transitions, regions, some target⟩ :: states)
      (⟨pre ++ name, equations, transitions.map fun t => ⟨t.guard, pre ++ t.target⟩,
        regions' ++ [⟨pre ++ (name ++ "_") ++ sub.initialState, inlined, false⟩], none⟩ :: states')

inductive ExpandsRegions : String → List Region → List Region → Prop
  | nil {pre : String} : ExpandsRegions pre [] []
  | cons {pre initialState : String} {history : Bool} {states states' : List StateDef}
    {regions regions' : List Region} :
    Expands pre states states' → ExpandsRegions pre regions regions' →
    ExpandsRegions pre (⟨initialState, states, history⟩ :: regions)
      (⟨pre ++ initialState, states', history⟩ :: regions')

end

variable {find} {pre machine : String}

theorem prefixRegions_append (regions more : List Region) :
    prefixRegions pre (regions ++ more) = prefixRegions pre regions ++ prefixRegions pre more := by
  induction regions with
  | nil => rfl
  | cons r regions ih => simp [prefixRegions, ih]

theorem prefixed_transitions {outer : String} (transitions : List Transition) :
    ((transitions.map fun t => (⟨t.guard, pre ++ t.target⟩ : Transition)).map fun t =>
      (⟨t.guard, outer ++ t.target⟩ : Transition)) =
      transitions.map fun t => ⟨t.guard, outer ++ pre ++ t.target⟩ := by
  simp [String.append_assoc]

mutual

/-- Under one more prefix an expansion is one under both. -/
theorem Expands.prefixed (outer : String) {pre : String} {states states' : List StateDef} :
    Expands find pre states states' →
      Expands find (outer ++ pre) states (prefixStates outer states')
  | .nil => .nil
  | @Expands.plain _ _ name equations transitions _ _ _ _ hregions hstates => by
    have hhead := @Expands.plain find (outer ++ pre) name equations transitions _ _ _ _
      (hregions.prefixed outer) (hstates.prefixed outer)
    simpa only [prefixStates, prefixState, prefixed_transitions, String.append_assoc] using hhead
  | @Expands.refined _ _ name target equations transitions _ _ _ _ _ _ hregions hfind hsub
      hstates => by
    have hinlined := hsub.prefixed outer
    rw [← String.append_assoc] at hinlined
    have hhead := @Expands.refined find (outer ++ pre) name target equations transitions _ _ _ _ _ _
      (hregions.prefixed outer) hfind hinlined (hstates.prefixed outer)
    simpa only [prefixStates, prefixState, prefixRegions_append, prefixRegions, prefixRegion,
      prefixed_transitions, String.append_assoc] using hhead

theorem ExpandsRegions.prefixed (outer : String) {pre : String} {regions regions' : List Region} :
    ExpandsRegions find pre regions regions' →
      ExpandsRegions find (outer ++ pre) regions (prefixRegions outer regions')
  | .nil => .nil
  | @ExpandsRegions.cons _ _ initialState history _ _ _ _ hstates hregions => by
    have hhead := @ExpandsRegions.cons find (outer ++ pre) initialState history _ _ _ _
      (hstates.prefixed outer) (hregions.prefixed outer)
    simpa only [prefixRegions, prefixRegion, String.append_assoc] using hhead

end

/-- What resolves a refinement gives the expanded states of the machine, prefixed. -/
def ResolvesTo (find : String → Option StateMachineDef)
    (sub : String → String → Except LowerError Region) : Prop :=
  ∀ name target region, sub name target = .ok region →
    ∃ m states, find target = some m ∧ Expands find "" m.states states ∧
      region = refinement name m states

variable {sub : String → String → Except LowerError Region}

theorem expands_of_resolve (hsub : ResolvesTo find sub) :
    (∀ states states', resolveStates sub states = .ok states' → Expands find "" states states') ∧
      ∀ regions regions', resolveRegions sub regions = .ok regions' →
        ExpandsRegions find "" regions regions' := by
  apply states_induct
  · intro states' h
    cases h
    exact .nil
  · intro name equations transitions regions refines states ihregions ihstates states' h
    simp only [resolveStates, resolveState] at h
    obtain ⟨st, hst, h⟩ := Except.bind_eq_ok.mp h
    obtain ⟨rest, hrest, h⟩ := Except.bind_eq_ok.mp h
    cases h
    obtain ⟨regions', hregions, hst⟩ := Except.bind_eq_ok.mp hst
    have hregions := ihregions regions' hregions
    have hrest := ihstates rest hrest
    cases refines with
    | none =>
      cases hst
      simpa using @Expands.plain find "" name equations transitions _ _ _ _ hregions hrest
    | some target =>
      obtain ⟨region, hregion, hst⟩ := Except.bind_eq_ok.mp hst
      cases hst
      obtain ⟨m, inlined, hfind, hinlined, rfl⟩ := hsub name target region hregion
      have hprefixed := hinlined.prefixed (name ++ "_")
      rw [String.append_empty, ← String.empty_append (s := name ++ "_")] at hprefixed
      simpa [refinement] using @Expands.refined find "" name target equations transitions _ _ _ _ _ _
        hregions hfind hprefixed hrest
  · intro regions' h
    cases h
    exact .nil
  · intro initialState states history regions ihstates ihregions regions' h
    simp only [resolveRegions, resolveRegion] at h
    obtain ⟨r, hr, h⟩ := Except.bind_eq_ok.mp h
    obtain ⟨rest, hrest, h⟩ := Except.bind_eq_ok.mp h
    cases h
    obtain ⟨states', hstates, hr⟩ := Except.bind_eq_ok.mp hr
    cases hr
    simpa using @ExpandsRegions.cons find "" initialState history _ _ _ _
      (ihstates states' hstates) (ihregions rest hrest)

/-- Where all is resolved, so is every refinement. -/
theorem targets_of_resolve :
    (∀ states states', resolveStates sub states = .ok states' → ∀ t ∈ statesTargets states,
      ∃ name region, sub name t = .ok region) ∧
    ∀ regions regions', resolveRegions sub regions = .ok regions' → ∀ t ∈ regionsTargets regions,
      ∃ name region, sub name t = .ok region := by
  apply states_induct
  · exact fun _ _ t ht => nomatch ht
  · intro name equations transitions regions refines states ihregions ihstates states' h t ht
    simp only [resolveStates, resolveState] at h
    obtain ⟨st, hst, h⟩ := Except.bind_eq_ok.mp h
    obtain ⟨rest, hrest, -⟩ := Except.bind_eq_ok.mp h
    obtain ⟨regions', hregions, hst⟩ := Except.bind_eq_ok.mp hst
    simp only [statesTargets, stateTargets, List.mem_append] at ht
    rcases ht with (ht | ht) | ht
    · exact ihregions regions' hregions t ht
    · cases refines with
      | none => cases ht
      | some target =>
        obtain ⟨region, hregion, -⟩ := Except.bind_eq_ok.mp hst
        obtain rfl : t = target := by simpa using ht
        exact ⟨name, region, hregion⟩
    · exact ihstates rest hrest t ht
  · exact fun _ _ t ht => nomatch ht
  · intro initialState states history regions ihstates ihregions regions' h t ht
    simp only [resolveRegions, resolveRegion] at h
    obtain ⟨r, hr, h⟩ := Except.bind_eq_ok.mp h
    obtain ⟨rest, hrest, -⟩ := Except.bind_eq_ok.mp h
    obtain ⟨states', hstates, -⟩ := Except.bind_eq_ok.mp hr
    rcases List.mem_append.mp ht with ht | ht
    · exact ihstates states' hstates t ht
    · exact ihregions rest hrest t ht

/-- An error is that of some refinement. -/
theorem target_of_error {e : LowerError} :
    (∀ states, resolveStates sub states = .error e → ∃ t ∈ statesTargets states,
      ∃ name, sub name t = .error e) ∧
    ∀ regions, resolveRegions sub regions = .error e → ∃ t ∈ regionsTargets regions,
      ∃ name, sub name t = .error e := by
  apply states_induct
  · intro h
    cases h
  · intro name equations transitions regions refines states ihregions ihstates h
    simp only [resolveStates, resolveState] at h
    simp only [statesTargets, stateTargets, List.mem_append]
    rcases Except.bind_eq_error.mp h with h | ⟨st, -, h⟩
    · rcases Except.bind_eq_error.mp h with h | ⟨regions', -, h⟩
      · obtain ⟨t, ht, hsub⟩ := ihregions h
        exact ⟨t, .inl (.inl ht), hsub⟩
      · cases refines with
        | none => cases h
        | some target =>
          rcases Except.bind_eq_error.mp h with h | ⟨region, -, h⟩
          · exact ⟨target, .inl (.inr (by simp)), name, h⟩
          · cases h
    · rcases Except.bind_eq_error.mp h with h | ⟨rest, -, h⟩
      · obtain ⟨t, ht, hsub⟩ := ihstates h
        exact ⟨t, .inr ht, hsub⟩
      · cases h
  · intro h
    cases h
  · intro initialState states history regions ihstates ihregions h
    simp only [resolveRegions, resolveRegion] at h
    simp only [regionsTargets, regionTargets, List.mem_append]
    rcases Except.bind_eq_error.mp h with h | ⟨r, -, h⟩
    · rcases Except.bind_eq_error.mp h with h | ⟨states', -, h⟩
      · obtain ⟨t, ht, hsub⟩ := ihstates h
        exact ⟨t, .inl ht, hsub⟩
      · cases h
    · rcases Except.bind_eq_error.mp h with h | ⟨rest, -, h⟩
      · obtain ⟨t, ht, hsub⟩ := ihregions h
        exact ⟨t, .inr ht, hsub⟩
      · cases h

end Expansion

section Resolution

variable (sm : StateMachineDef) (machines : List StateMachineDef)

/-- The states under the name of a machine, the root's own under its name. -/
def statesOf (name : String) : List StateDef :=
  if name = sm.name then sm.states else ((machineByName machines name).map (·.states)).getD []

/-- The machine of the first name refines the one of the second name. -/
def RefersTo (a b : String) : Prop := b ∈ statesTargets (statesOf sm machines a)

def IsMachine (name : String) : Prop := (machineByName machines name).isSome

variable {sm machines} {machine : String} {fuel : Nat} {stack : List String}

theorem machineByName_mem {name : String} {m : StateMachineDef}
    (h : machineByName machines name = some m) : name ∈ machines.map (·.name) := by
  have hmem := List.mem_of_find?_eq_some h
  have hname := List.find?_some h
  exact List.mem_map.mpr ⟨m, List.mem_reverse.mp hmem, by simpa using hname⟩

theorem resolveRefinement_eq_ok {name target : String} {region : Region}
    (h : resolveRefinement machine machines fuel stack name target = .ok region) :
    ∃ rest m states, fuel = rest + 1 ∧ target ∉ stack ∧ machineByName machines target = some m ∧
      resolveStates (resolveRefinement machine machines rest (target :: stack)) m.states = .ok states ∧
      region = refinement name m states := by
  cases fuel with
  | zero => cases h
  | succ rest =>
    simp only [resolveRefinement] at h
    split at h
    · cases h
    · next hnew =>
      split at h
      · cases h
      · next m hm =>
        obtain ⟨states, hstates, h⟩ := Except.bind_eq_ok.mp h
        cases h
        exact ⟨rest, m, states, rfl, by simpa using hnew, hm, hstates, rfl⟩

theorem resolveRefinement_resolves (machine : String) (machines : List StateMachineDef) (fuel : Nat)
    (stack : List String) :
    ResolvesTo (machineByName machines) (resolveRefinement machine machines fuel stack) := by
  induction fuel generalizing stack with
  | zero => exact fun _ _ _ h => nomatch h
  | succ fuel ih =>
    intro name target region h
    obtain ⟨rest, m, states, hfuel, -, hm, hstates, rfl⟩ := resolveRefinement_eq_ok h
    obtain rfl := Nat.succ.inj hfuel
    exact ⟨m, states, hm, (expands_of_resolve (ih _)).1 _ _ hstates, rfl⟩

/-- With a machine resolved, the descent from it went through. -/
theorem descends_of_resolve {a : String} {states' : List StateDef} (hroot : sm.name ∈ stack)
    (h : resolveStates (resolveRefinement machine machines fuel stack) (statesOf sm machines a) =
      .ok states') :
    Descends (RefersTo sm machines) (IsMachine machines) stack a := by
  induction fuel generalizing stack a states' with
  | zero =>
    have hnone : ∀ b, ¬ RefersTo sm machines a b := by
      intro b hb
      obtain ⟨name, region, hregion⟩ := targets_of_resolve.1 _ _ h b hb
      cases hregion
    exact .intro (fun b hb => absurd hb (hnone b)) (fun b hb => absurd hb (hnone b))
      fun b hb => absurd hb (hnone b)
  | succ fuel ih =>
    have hsub : ∀ b, RefersTo sm machines a b → IsMachine machines b ∧ b ∉ stack ∧
        Descends (RefersTo sm machines) (IsMachine machines) (b :: stack) b := by
      intro b hb
      obtain ⟨name, region, hregion⟩ := targets_of_resolve.1 _ _ h b hb
      obtain ⟨rest, m, states, hfuel, hnew, hm, hstates, -⟩ := resolveRefinement_eq_ok hregion
      obtain rfl := Nat.succ.inj hfuel
      have hne : b ≠ sm.name := fun heq => hnew (heq ▸ hroot)
      have hof : statesOf sm machines b = m.states := by simp [statesOf, hne, hm]
      exact ⟨by simp [IsMachine, hm], hnew, ih (List.mem_cons_of_mem _ hroot) (hof ▸ hstates)⟩
    exact .intro (fun b hb => (hsub b hb).1) (fun b hb => (hsub b hb).2.1) fun b hb => (hsub b hb).2.2

/-- An error on the way down comes from an unknown machine or a cycle. -/
theorem blocked_of_error {a : String} {e : LowerError}
    (hway : Way (RefersTo sm machines) sm.name (a :: stack))
    (hfuel : left (machines.map (·.name)) (a :: stack) < fuel)
    (h : resolveStates (resolveRefinement machine machines fuel (a :: stack))
      (statesOf sm machines a) = .error e) :
    Blocked (RefersTo sm machines) (IsMachine machines) sm.name := by
  induction fuel generalizing a stack with
  | zero => exact absurd hfuel (Nat.not_lt_zero _)
  | succ fuel ih =>
    obtain ⟨b, hb, name, h⟩ := target_of_error.1 _ h
    have hedge : RefersTo sm machines a b := hb
    simp only [resolveRefinement] at h
    split at h
    · next hmem => exact hway.blocked hedge (by simpa using hmem)
    · next hnew =>
      have hnew : b ∉ a :: stack := by simpa using hnew
      split at h
      · next hnone => exact hway.unknown hedge (by simp [IsMachine, hnone])
      · next m hm =>
        rcases Except.bind_eq_error.mp h with h | ⟨states, -, h⟩
        · have hne : b ≠ sm.name := fun heq => hnew (heq ▸ hway.root_mem)
          have hof : statesOf sm machines b = m.states := by simp [statesOf, hne, hm]
          have hless := left_lt (machineByName_mem hm) hnew
          exact ih (hway.step hedge) (by omega) (hof ▸ h)
        · cases h

/-- More fuel changes nothing. -/
theorem resolveRefinement_fuel (hfuel : left (machines.map (·.name)) stack < fuel) :
    resolveRefinement machine machines (fuel + 1) stack =
      resolveRefinement machine machines fuel stack := by
  induction fuel generalizing stack with
  | zero => exact absurd hfuel (Nat.not_lt_zero _)
  | succ fuel ih =>
    funext name target
    rw [resolveRefinement, resolveRefinement]
    split
    · rfl
    · next hnew =>
      split
      · rfl
      · next m hm =>
        have hless := left_lt (machineByName_mem hm) (by simpa using hnew)
        rw [ih (by omega)]

theorem statesOf_self (sm : StateMachineDef) (machines : List StateMachineDef) :
    statesOf sm machines sm.name = sm.states := if_pos rfl

theorem resolveRefines_eq_ok {r : StateMachineDef} (h : resolveRefines sm machines = .ok r) :
    Expands (machineByName machines) "" sm.states r.states ∧ r = { sm with states := r.states } := by
  obtain ⟨states, hstates, h⟩ := Except.bind_eq_ok.mp h
  cases h
  exact ⟨(expands_of_resolve (resolveRefinement_resolves _ _ _ _)).1 _ _ hstates, rfl⟩

/-- Resolution fails just on an unknown machine or a cycle that the root leads to. -/
theorem resolveRefines_error (sm : StateMachineDef) (machines : List StateMachineDef) :
    (∃ e, resolveRefines sm machines = .error e) ↔
      Blocked (RefersTo sm machines) (IsMachine machines) sm.name := by
  have hself := statesOf_self sm machines
  constructor
  · rintro ⟨e, h⟩
    rcases Except.bind_eq_error.mp h with h | ⟨states, -, h⟩
    · have hleft := left_le (machines.map (·.name)) [sm.name]
      rw [List.length_map] at hleft
      exact blocked_of_error .start (Nat.lt_succ_of_le hleft) (hself.symm ▸ h)
    · cases h
  · intro hblocked
    cases h : resolveRefines sm machines with
    | error e => exact ⟨e, rfl⟩
    | ok r =>
      obtain ⟨states, hstates, -⟩ := Except.bind_eq_ok.mp h
      rw [← hself] at hstates
      exact absurd hblocked (descends_of_resolve List.mem_cons_self hstates).not_blocked

end Resolution

section Expanded

variable {find : String → Option StateMachineDef}

/-- The machines that are inlined for a list of targets. -/
inductive Inlines (find : String → Option StateMachineDef) : List String → StateMachineDef → Prop
  | direct {targets : List String} {target : String} {m : StateMachineDef} :
    target ∈ targets → find target = some m → Inlines find targets m
  | deeper {targets : List String} {target : String} {k m : StateMachineDef} :
    target ∈ targets → find target = some k → Inlines find (statesTargets k.states) m →
    Inlines find targets m

theorem inlines_append {ts us : List String} {m : StateMachineDef} :
    Inlines find (ts ++ us) m ↔ Inlines find ts m ∨ Inlines find us m := by
  constructor
  · rintro (⟨ht, hm⟩ | ⟨ht, hk, hm⟩)
    · exact (List.mem_append.mp ht).imp (.direct · hm) (.direct · hm)
    · exact (List.mem_append.mp ht).imp (.deeper · hk hm) (.deeper · hk hm)
  · rintro ((⟨ht, hm⟩ | ⟨ht, hk, hm⟩) | ⟨ht, hm⟩ | ⟨ht, hk, hm⟩)
    · exact .direct (List.mem_append_left _ ht) hm
    · exact .deeper (List.mem_append_left _ ht) hk hm
    · exact .direct (List.mem_append_right _ ht) hm
    · exact .deeper (List.mem_append_right _ ht) hk hm

theorem not_inlines_nil {m : StateMachineDef} : ¬ Inlines find [] m := by
  rintro (⟨ht, -⟩ | ⟨ht, -, -⟩) <;> cases ht

theorem inlines_singleton {target : String} {k m : StateMachineDef} (h : find target = some k) :
    Inlines find [target] m ↔ m = k ∨ Inlines find (statesTargets k.states) m := by
  constructor
  · rintro (⟨ht, hm⟩ | ⟨ht, hk, hm⟩)
    · rw [List.mem_singleton.mp ht, h] at hm
      exact .inl (Option.some.inj hm).symm
    · rw [List.mem_singleton.mp ht, h] at hk
      exact .inr (Option.some.inj hk ▸ hm)
  · rintro (rfl | hm)
    · exact .direct (List.mem_singleton.mpr rfl) h
    · exact .deeper (List.mem_singleton.mpr rfl) h hm

theorem regionsTargets_append (regions more : List Region) :
    regionsTargets (regions ++ more) = regionsTargets regions ++ regionsTargets more := by
  induction regions with
  | nil => rfl
  | cons r regions ih => simp [regionsTargets, ih]

theorem collectRegions_append (regions more : List Region) :
    collectRegions (regions ++ more) = collectRegions regions ++ collectRegions more := by
  induction regions with
  | nil => rfl
  | cons r regions ih => simp [collectRegions, ih]

theorem scopedRegions_append (regions more : List Region) :
    ScopedRegions (regions ++ more) ↔ ScopedRegions regions ∧ ScopedRegions more := by
  induction regions with
  | nil => simp [ScopedRegions]
  | cons r regions ih => simp [ScopedRegions, ih, and_assoc]

mutual

/-- Nothing is left to refine. -/
theorem Expands.no_targets {pre : String} {states states' : List StateDef} :
    Expands find pre states states' → statesTargets states' = []
  | .nil => rfl
  | .plain hregions hstates => by
    simp [statesTargets, stateTargets, hregions.no_targets, hstates.no_targets]
  | .refined hregions _ hsub hstates => by
    simp [statesTargets, stateTargets, regionsTargets_append, regionsTargets, regionTargets,
      hregions.no_targets, hsub.no_targets, hstates.no_targets]

theorem ExpandsRegions.no_targets {pre : String} {regions regions' : List Region} :
    ExpandsRegions find pre regions regions' → regionsTargets regions' = []
  | .nil => rfl
  | .cons hstates hregions => by
    simp [regionsTargets, regionTargets, hstates.no_targets, hregions.no_targets]

end

theorem Expands.names {pre : String} {states states' : List StateDef} :
    Expands find pre states states' →
      states'.map (·.name) = (states.map (·.name)).map (pre ++ ·)
  | .nil => rfl
  | .plain _ hstates => by simp [hstates.names]
  | .refined _ _ _ hstates => by simp [hstates.names]

theorem prefix_injective (pre : String) : Function.Injective (pre ++ ·) :=
  fun _ _ h => (String.append_right_inj pre).mp h

theorem mem_prefixed {pre name : String} {names : List String} :
    pre ++ name ∈ names.map (pre ++ ·) ↔ name ∈ names :=
  List.mem_map_of_injective (prefix_injective pre)

/-- The region of the states of a machine. -/
abbrev ScopedMachine (m : StateMachineDef) : Prop := ScopedRegion m.top

/-- The region that a machine is expanded to. -/
theorem scopedRegion_inlined {pre : String} {m : StateMachineDef} {states' : List StateDef}
    {P : Prop} (hnames : states'.map (·.name) = (m.states.map (·.name)).map (pre ++ ·))
    (h : ∀ names : List String,
      ScopedStates (names.map (pre ++ ·)) states' ↔ ScopedStates names m.states ∧ P) :
    ScopedRegion ⟨pre ++ m.initialState, states', false⟩ ↔ ScopedMachine m ∧ P := by
  simp only [ScopedMachine, StateMachineDef.top, ScopedRegion, hnames, h, mem_prefixed, and_assoc]

mutual

/-- The states of an expansion are in scope just when those of every machine in it are. -/
theorem Expands.scoped {pre : String} {states states' : List StateDef} (names : List String) :
    Expands find pre states states' →
      (ScopedStates (names.map (pre ++ ·)) states' ↔
        ScopedStates names states ∧ ∀ m, Inlines find (statesTargets states) m → ScopedMachine m)
  | .nil => by simp [ScopedStates, statesTargets, not_inlines_nil]
  | .plain hregions hstates => by
    simp only [ScopedStates, ScopedState, statesTargets, stateTargets, Option.toList,
      hregions.scoped, hstates.scoped names, inlines_append, not_inlines_nil, or_false,
      List.forall_mem_map, mem_prefixed, or_imp, forall_and]
    tauto
  | .refined hregions hfind hsub hstates => by
    have hregion := scopedRegion_inlined hsub.names fun names => hsub.scoped names
    simp only [ScopedStates, ScopedState, statesTargets, stateTargets, Option.toList,
      scopedRegions_append, ScopedRegions, hregion, and_true, hregions.scoped, hstates.scoped names,
      inlines_append, inlines_singleton hfind, List.forall_mem_map, mem_prefixed, or_imp, forall_and,
      forall_eq]
    tauto

theorem ExpandsRegions.scoped {pre : String} {regions regions' : List Region} :
    ExpandsRegions find pre regions regions' →
      (ScopedRegions regions' ↔
        ScopedRegions regions ∧ ∀ m, Inlines find (regionsTargets regions) m → ScopedMachine m)
  | .nil => by simp [ScopedRegions, regionsTargets, not_inlines_nil]
  | .cons hstates hregions => by
    simp only [ScopedRegions, ScopedRegion, regionsTargets, regionTargets, hstates.names,
      hstates.scoped, hregions.scoped, mem_prefixed, inlines_append, or_imp, forall_and]
    tauto

end

/-- Own names that are distinct, and none of which begins with that of a refining state and an
underscore. -/
structure Clear (names refining : List String) : Prop where
  nodup : names.Nodup
  apart : ∀ n ∈ refining, ∀ k ∈ names, ¬ (n ++ "_").toList <+: k.toList

abbrev ClearMachine (m : StateMachineDef) : Prop :=
  Clear (collectStateNames m.states) (statesRefining m.states)

theorem Clear.left {as bs refining refining' : List String}
    (h : Clear (as ++ bs) (refining ++ refining')) : Clear as refining :=
  ⟨h.nodup.of_append_left, fun n hn k hk =>
    h.apart n (List.mem_append_left _ hn) k (List.mem_append_left _ hk)⟩

theorem Clear.right {as bs refining refining' : List String}
    (h : Clear (as ++ bs) (refining ++ refining')) : Clear bs refining' :=
  ⟨h.nodup.of_append_right, fun n hn k hk =>
    h.apart n (List.mem_append_right _ hn) k (List.mem_append_right _ hk)⟩

/-- A name that stands for a state, or for one inlined in a refining state. -/
def Under (pre : String) (names refining : List String) (x : String) : Prop :=
  (∃ n ∈ names, x = pre ++ n) ∨ ∃ n ∈ refining, ∃ rest, x = pre ++ (n ++ "_") ++ rest

theorem Under.mono {pre x : String} {names names' refining refining' : List String}
    (hnames : names ⊆ names') (hrefining : refining ⊆ refining') (h : Under pre names refining x) :
    Under pre names' refining' x := by
  rcases h with ⟨n, hn, hx⟩ | ⟨n, hn, rest, hx⟩
  · exact .inl ⟨n, hnames hn, hx⟩
  · exact .inr ⟨n, hrefining hn, rest, hx⟩

/-- A name inlined in one state is no name of the machine itself. -/
theorem Clear.inlined_ne {pre n k rest : String} {names refining : List String}
    (h : Clear names refining) (hn : n ∈ refining) (hk : k ∈ names) :
    pre ++ (n ++ "_") ++ rest ≠ pre ++ k := by
  intro heq
  rw [String.append_assoc, String.append_right_inj] at heq
  refine h.apart n hn k hk ⟨rest.toList, ?_⟩
  rw [← String.toList_append, heq]

/-- Nor is it one inlined in another state. -/
theorem Clear.inlined_eq {pre n k rest rest' : String} {names refining : List String}
    (h : Clear names refining) (hsub : refining ⊆ names) (hn : n ∈ refining) (hk : k ∈ refining)
    (heq : pre ++ (n ++ "_") ++ rest = pre ++ (k ++ "_") ++ rest') : n = k := by
  have hlist := congrArg String.toList heq
  simp only [String.toList_append, List.append_assoc, List.append_right_inj] at hlist
  have hunderscore : "_".toList = ['_'] := rfl
  rw [hunderscore] at hlist
  rcases List.append_eq_append_iff.mp hlist with ⟨more, hk', hrest⟩ | ⟨more, hn', hrest⟩
  · cases more with
    | nil => exact String.toList_injective (by simpa using hk'.symm)
    | cons c more =>
      obtain ⟨rfl, -⟩ := List.cons.inj hrest
      refine absurd ⟨more, ?_⟩ (h.apart n hn k (hsub hk))
      simp [hk', hunderscore]
  · cases more with
    | nil => exact String.toList_injective (by simpa using hn')
    | cons c more =>
      obtain ⟨rfl, -⟩ := List.cons.inj hrest
      refine absurd ⟨more, ?_⟩ (h.apart k hk n (hsub hn))
      simp [hn', hunderscore]

/-- Distinct names, each of which stands for one of the own names or for one inlined there. -/
structure Owned (pre : String) (names refining names' : List String) : Prop where
  nodup : names'.Nodup
  refines : refining ⊆ names
  under : ∀ x ∈ names', Under pre names refining x

theorem Owned.append {pre : String} {as bs refining refining' as' bs' : List String}
    (ha : Owned pre as refining as') (hb : Owned pre bs refining' bs')
    (h : Clear (as ++ bs) (refining ++ refining')) :
    Owned pre (as ++ bs) (refining ++ refining') (as' ++ bs') := by
  have hdisjoint := List.disjoint_of_nodup_append h.nodup
  have hsub : refining ++ refining' ⊆ as ++ bs := fun n hn => by
    rcases List.mem_append.mp hn with hn | hn
    · exact List.mem_append_left _ (ha.refines hn)
    · exact List.mem_append_right _ (hb.refines hn)
  refine ⟨ha.nodup.append hb.nodup fun x hxa hxb => ?_, hsub, fun x hx => ?_⟩
  · rcases ha.under x hxa with ⟨n, hn, rfl⟩ | ⟨n, hn, rest, rfl⟩
    · rcases hb.under _ hxb with ⟨k, hk, heq⟩ | ⟨k, hk, rest, heq⟩
      · exact hdisjoint hn (prefix_injective pre heq ▸ hk)
      · exact h.inlined_ne (List.mem_append_right _ hk) (List.mem_append_left _ hn) heq.symm
    · rcases hb.under _ hxb with ⟨k, hk, heq⟩ | ⟨k, hk, rest', heq⟩
      · exact h.inlined_ne (List.mem_append_left _ hn) (List.mem_append_right _ hk) heq
      · obtain rfl := h.inlined_eq hsub (List.mem_append_left _ hn) (List.mem_append_right _ hk) heq
        exact hdisjoint (ha.refines hn) (hb.refines hk)
  · rcases List.mem_append.mp hx with hx | hx
    · exact (ha.under x hx).mono (List.subset_append_left _ _) (List.subset_append_left _ _)
    · exact (hb.under x hx).mono (List.subset_append_right _ _) (List.subset_append_right _ _)

theorem Owned.perm {pre : String} {names refining names' names'' : List String}
    (h : Owned pre names refining names') (hperm : names'.Perm names'') :
    Owned pre names refining names'' :=
  ⟨hperm.nodup_iff.mp h.nodup, h.refines, fun x hx => h.under x (hperm.mem_iff.mpr hx)⟩

theorem owned_self (pre name : String) : Owned pre [name] [] [pre ++ name] :=
  ⟨List.nodup_singleton _, List.nil_subset _,
    fun _ hx => .inl ⟨name, by simp, List.mem_singleton.mp hx⟩⟩

/-- The name of a state and those inlined in it. -/
theorem owned_inlined {pre name : String} {names refining inlined : List String}
    (h : Owned (pre ++ (name ++ "_")) names refining inlined) :
    Owned pre [name] [name] ((pre ++ name) :: inlined) := by
  have hlong : ∀ x ∈ inlined, ∃ rest, x = pre ++ (name ++ "_") ++ rest := by
    intro x hx
    rcases h.under x hx with ⟨n, -, rfl⟩ | ⟨n, -, rest, rfl⟩
    · exact ⟨n, rfl⟩
    · exact ⟨n ++ "_" ++ rest, by simp [String.append_assoc]⟩
  refine ⟨List.nodup_cons.mpr ⟨fun hmem => ?_, h.nodup⟩, List.Subset.refl _, fun x hx => ?_⟩
  · obtain ⟨rest, hrest⟩ := hlong _ hmem
    have hlength := congrArg String.length hrest
    have hunderscore : "_".length = 1 := rfl
    simp only [String.length_append, hunderscore] at hlength
    omega
  · rcases List.mem_cons.mp hx with rfl | hx
    · exact .inl ⟨name, by simp, rfl⟩
    · exact .inr ⟨name, by simp, hlong x hx⟩

mutual

/-- The names of an expansion are distinct, where those of every machine in it are clear. -/
theorem Expands.owned {pre : String} {states states' : List StateDef}
    (hclear : Clear (collectStateNames states) (statesRefining states))
    (hinlined : ∀ m, Inlines find (statesTargets states) m → ClearMachine m) :
    Expands find pre states states' →
      Owned pre (collectStateNames states) (statesRefining states) (collectStateNames states')
  | .nil => ⟨List.nodup_nil, List.nil_subset _, fun _ hx => nomatch hx⟩
  | @Expands.plain _ _ name _ _ _ _ _ _ hregions hstates => by
    simp only [collectStateNames, collectState, List.cons_append, statesRefining, stateRefining,
      Option.isSome_none, Bool.false_eq_true, if_false, List.nil_append] at hclear ⊢
    simp only [statesTargets, stateTargets, Option.toList, List.append_nil, inlines_append, or_imp,
      forall_and] at hinlined
    have hrest := @Clear.right [name] _ [] _ hclear
    exact (owned_self _ name).append ((hregions.owned hrest.left hinlined.1).append
      (hstates.owned hrest.right hinlined.2) hrest) hclear
  | @Expands.refined _ _ name _ _ _ _ regions' _ inlined _ states' hregions hfind hsub
      hstates => by
    simp only [collectStateNames, collectState, List.cons_append, collectRegions_append,
      collectRegions, collectRegion, List.append_nil, statesRefining, stateRefining,
      Option.isSome_some, if_true, List.nil_append] at hclear ⊢
    simp only [statesTargets, stateTargets, Option.toList, inlines_append, inlines_singleton hfind,
      or_imp, forall_and, forall_eq] at hinlined
    have hrest := @Clear.right [name] _ [name] _ hclear
    have hown := owned_inlined (hsub.owned hinlined.1.2.1 hinlined.1.2.2)
    refine (hown.append ((hregions.owned hrest.left hinlined.1.1).append
      (hstates.owned hrest.right hinlined.2) hrest) hclear).perm ?_
    have hcomm : (collectStateNames inlined ++ (collectRegions regions' ++
        collectStateNames states')).Perm
        (collectRegions regions' ++ collectStateNames inlined ++ collectStateNames states') := by
      rw [← List.append_assoc]
      exact List.perm_append_comm.append_right _
    exact hcomm.cons _

theorem ExpandsRegions.owned {pre : String} {regions regions' : List Region}
    (hclear : Clear (collectRegions regions) (regionsRefining regions))
    (hinlined : ∀ m, Inlines find (regionsTargets regions) m → ClearMachine m) :
    ExpandsRegions find pre regions regions' →
      Owned pre (collectRegions regions) (regionsRefining regions) (collectRegions regions')
  | .nil => ⟨List.nodup_nil, List.nil_subset _, fun _ hx => nomatch hx⟩
  | .cons hstates hregions => by
    simp only [collectRegions, collectRegion, regionsRefining, regionRefining] at hclear ⊢
    simp only [regionsTargets, regionTargets, inlines_append, or_imp, forall_and] at hinlined
    exact (hstates.owned hclear.left hinlined.1).append (hregions.owned hclear.right hinlined.2)
      hclear

end

end Expanded

section Accepted

theorem firstDuplicate_eq_none {seen names : List String} (h : firstDuplicate seen names = none) :
    names.Nodup ∧ ∀ n ∈ names, n ∉ seen := by
  induction names generalizing seen with
  | nil => exact ⟨List.nodup_nil, fun _ hn => nomatch hn⟩
  | cons n names ih =>
    simp only [firstDuplicate] at h
    split at h
    · cases h
    · next hnew =>
      obtain ⟨hnodup, hfresh⟩ := ih h
      refine ⟨List.nodup_cons.mpr ⟨fun hmem => hfresh n hmem List.mem_cons_self, hnodup⟩, ?_⟩
      rintro k (_ | ⟨_, hk⟩)
      · simpa using hnew
      · exact fun hmem => hfresh k hk (List.mem_cons_of_mem _ hmem)

theorem targets_of_check {machine state : String} {names : List String}
    {transitions : List Transition} (h : checkTargets machine state names transitions = .ok ()) :
    ∀ t ∈ transitions, t.target ∈ names := by
  induction transitions with
  | nil => exact fun _ ht => nomatch ht
  | cons t transitions ih =>
    simp only [checkTargets] at h
    split at h
    · next hmem =>
      rintro u (_ | ⟨_, hu⟩)
      · simpa using hmem
      · exact ih h u hu
    · cases h

theorem scoped_of_validate {machine : String} :
    (∀ states names, validateStates machine names states = .ok () → ScopedStates names states) ∧
      ∀ regions, validateRegions machine regions = .ok () → ScopedRegions regions := by
  apply states_induct
  · exact fun _ _ => trivial
  · intro name equations transitions regions refines states ihregions ihstates names h
    simp only [validateStates, validateState] at h
    obtain ⟨_, hst, hstates⟩ := Except.bind_eq_ok.mp h
    obtain ⟨_, htargets, hregions⟩ := Except.bind_eq_ok.mp hst
    exact ⟨⟨targets_of_check htargets, ihregions hregions⟩, ihstates names hstates⟩
  · exact fun _ => trivial
  · intro initialState states history regions ihstates ihregions h
    simp only [validateRegions, validateRegion] at h
    obtain ⟨_, hr, hregions⟩ := Except.bind_eq_ok.mp h
    split at hr
    · next hmem => exact ⟨⟨by simpa using hmem, ihstates _ hr⟩, ihregions hregions⟩
    · cases hr

/-- What lowering accepts has distinct names that are in scope. -/
theorem lower_accepts {sm : StateMachineDef} {lowered : LoweredMachine}
    (h : lower sm = .ok lowered) :
    (collectStateNames sm.states).Nodup ∧ ScopedMachine sm := by
  cases hempty : sm.states.isEmpty with
  | true =>
    simp only [lower, hempty, if_true] at h
    cases h
  | false =>
    cases hdup : firstDuplicate [] (collectStateNames sm.states) with
    | some n =>
      simp only [lower, hempty, hdup] at h
      cases h
    | none =>
      simp only [lower, hempty, hdup] at h
      obtain ⟨_, -, h⟩ := Except.bind_eq_ok.mp h
      obtain ⟨_, hregion, -⟩ := Except.bind_eq_ok.mp h
      have hregions : validateRegions sm.name [sm.top] = .ok () := by
        simp [validateRegions, hregion]; rfl
      exact ⟨(firstDuplicate_eq_none hdup).1, (scoped_of_validate.2 _ hregions).1⟩

end Accepted

section Runs

variable (sm : StateMachineDef) (machines : List StateMachineDef)

theorem resolveRefinement_enough (extra : Nat) :
    resolveRefinement sm.name machines (machines.length + 1 + extra) [sm.name] =
      resolveRefinement sm.name machines (machines.length + 1) [sm.name] := by
  have hleft := left_le (machines.map (·.name)) [sm.name]
  rw [List.length_map] at hleft
  induction extra with
  | zero => rfl
  | succ extra ih => rw [← Nat.add_assoc, resolveRefinement_fuel (by omega), ih]

/-- The expansion of a machine ends with any fuel from the number of machines on.  It fails just
on an unknown machine or a cycle that the machine leads to; what it gives is the states of the
machines, prefixed, with the regions of the refined ones, and nothing left to refine.  It is in
scope just when every machine in it is, its names are distinct when every machine in it is clear,
and `lower` accepts no other. -/
theorem resolveRefines_expands :
    (∀ extra, resolveStates
        (resolveRefinement sm.name machines (machines.length + 1 + extra) [sm.name]) sm.states =
      resolveStates (resolveRefinement sm.name machines (machines.length + 1) [sm.name])
        sm.states) ∧
    ((∃ e, resolveRefines sm machines = .error e) ↔
      Blocked (RefersTo sm machines) (IsMachine machines) sm.name) ∧
    ∀ r, resolveRefines sm machines = .ok r →
      r = { sm with states := r.states } ∧ statesTargets r.states = [] ∧
      Expands (machineByName machines) "" sm.states r.states ∧
      (ScopedMachine r ↔ ScopedMachine sm ∧
        ∀ m, Inlines (machineByName machines) (statesTargets sm.states) m → ScopedMachine m) ∧
      ((ClearMachine sm ∧
        ∀ m, Inlines (machineByName machines) (statesTargets sm.states) m → ClearMachine m) →
        (collectStateNames r.states).Nodup) ∧
      ∀ lowered, lower r = .ok lowered → (collectStateNames r.states).Nodup ∧ ScopedMachine r := by
  refine ⟨fun extra => by rw [resolveRefinement_enough], resolveRefines_error sm machines, ?_⟩
  intro r h
  obtain ⟨hexpands, hr⟩ := resolveRefines_eq_ok h
  refine ⟨hr, hexpands.no_targets, hexpands, ?_, ?_, fun _ => lower_accepts⟩
  · have hinitial : r.initialState = sm.initialState := by rw [hr]
    have hnames := hexpands.names
    have hscoped := fun names => hexpands.scoped names
    simp only [String.empty_append, List.map_id'] at hnames hscoped
    simp only [ScopedMachine, StateMachineDef.top, ScopedRegion, hinitial, hnames, hscoped,
      and_assoc]
  · rintro ⟨hclear, hinlined⟩
    exact (hexpands.owned hclear hinlined).nodup

/-- A machine that refines another one with clear names. -/
def refiningMachine : StateMachineDef :=
  ⟨"P", [], [], [], "A", [⟨"A", [], [⟨.const (.bool true), "C"⟩], [], some "M"⟩,
    ⟨"C", [], [], [], none⟩], none⟩

def refinedMachine : StateMachineDef := ⟨"M", [], [], [], "B", [⟨"B", [], [], [], none⟩], none⟩

theorem resolveRefines_refining :
    ∃ r, resolveRefines refiningMachine [refiningMachine, refinedMachine] = .ok r ∧
      statesTargets r.states = [] ∧ (collectStateNames r.states).Nodup := by
  obtain ⟨-, -, hok⟩ := resolveRefines_expands refiningMachine [refiningMachine, refinedMachine]
  obtain ⟨-, hnone, -, -, hnames, -⟩ := hok _ rfl
  refine ⟨_, rfl, hnone, hnames ⟨⟨by decide, by decide⟩, fun m hm => ?_⟩⟩
  have hfind : machineByName [refiningMachine, refinedMachine] "M" = some refinedMachine := rfl
  rcases (inlines_singleton hfind).mp hm with rfl | hm
  · exact ⟨by decide, by decide⟩
  · exact absurd hm not_inlines_nil

def clashingMachine : StateMachineDef :=
  ⟨"P", [], [], [], "A", [⟨"A", [], [], [], some "M"⟩, ⟨"A_B", [], [], [], none⟩], none⟩

def astrayMachine : StateMachineDef := ⟨"Q", [], [], [], "X", [⟨"A", [], [], [], none⟩], none⟩

/-- An inlined state takes the name of one of the machine, and an initial state that is none
stays so. -/
theorem resolveRefines_unchecked :
    (∃ r, resolveRefines clashingMachine [clashingMachine, refinedMachine] = .ok r ∧
      ¬ (collectStateNames r.states).Nodup) ∧
    ∃ r, resolveRefines astrayMachine [astrayMachine] = .ok r ∧ ¬ ScopedMachine r :=
  ⟨⟨_, rfl, by decide⟩, _, rfl, fun h => absurd h.1 (by decide)⟩

end Runs

end OpenLustre.Ir
