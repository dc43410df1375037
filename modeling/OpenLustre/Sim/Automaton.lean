import OpenLustre.Ir.Lowering
import OpenLustre.Sim.Equations
import OpenLustre.Typecheck.Check

/-! A state machine in the body of a node: the states its regions go through are those of the
machine, and its outputs have the values of the states it is in. -/

namespace OpenLustre.Simulator

open OpenLustre.Ir Statechart

variable {m : Machine} {p : Project}

namespace Cycle

variable {c : Cycle} {x s : String} {v : Value}

/-- A guard has a value in a cycle. -/
def Holds (m : Machine) (p : Project) (c : Cycle) (g : Expr) (b : Bool) : Prop :=
  c.Evaluates m p g (.bool b)

/-- A cycle is in all states of a path. -/
def ActiveIn (c : Cycle) (path : List (String × String)) : Prop :=
  ∀ x ∈ path, c.env x.1 = some (.enum x.2)

theorem Evaluates.variant (h : c.Evaluates m p (.var x) v) (hx : c.env x = none) :
    v = .enum x := by
  cases h.var with
  | inl hsome => rw [hx] at hsome; cases hsome
  | inr hnone => exact hnone.2

theorem Evaluates.value {w : Value} (h : c.Evaluates m p (.var x) v) (hx : c.env x = some w) :
    v = w := by
  cases h.var with
  | inl hsome => rw [hx] at hsome; cases hsome; rfl
  | inr hnone => rw [hx] at hnone; cases hnone.1

theorem Evaluates.inState {name : String} (h : c.Evaluates m p (inState x name) v)
    (hx : c.env x = some (.enum s)) (hname : c.env name = none) :
    v = .bool (decide (s = name)) := by
  obtain ⟨l, r, hl, hr, hv⟩ := h.binary
  cases hl.value hx
  cases hr.variant hname
  cases hv
  rfl

theorem Evaluates.transitionChain {ts : List Transition}
    (h : c.Evaluates m p (transitionChain x ts) v) (hx : c.env x = some (.enum s))
    (hts : ∀ t ∈ ts, c.env t.target = none) :
    ∃ s', v = .enum s' ∧ Moves (c.Holds m p) s (ts.map fun t => (t.guard, t.target)) s' := by
  induction ts generalizing v with
  | nil => exact ⟨s, h.value hx, .stay⟩
  | cons t ts ih =>
    obtain ⟨taken, w, hguard, hw, hv⟩ := Evaluates.ite h
    cases taken with
    | true =>
      cases hw.variant (hts t List.mem_cons_self)
      exact ⟨t.target, enum_widened.mp hv, .take hguard⟩
    | false =>
      obtain ⟨s', rfl, hmoves⟩ := ih hw fun t ht => hts t (List.mem_cons_of_mem _ ht)
      exact ⟨s', enum_widened.mp hv, .skip hguard hmoves⟩

/-- The chain of a region's states moves the state it is in. -/
theorem Evaluates.nextState {initial : String} {states : List StateDef} {history : Bool}
    (h : c.Evaluates m p (buildNextStateChain x states) v) (hx : c.env x = some (.enum s))
    (hs : s ∈ states.map (·.name)) (hnames : ∀ st ∈ states, c.env st.name = none)
    (htargets : ∀ st ∈ states, ∀ t ∈ st.transitions, c.env t.target = none) :
    ∃ s', v = .enum s' ∧
      Moves (c.Holds m p) s ((Ir.Region.chart ⟨initial, states, history⟩).transitions s) s' := by
  induction states generalizing v with
  | nil => cases hs
  | cons st states ih =>
    have hmoves (heq : s = st.name) {w : Value}
        (h : c.Evaluates m p (Ir.transitionChain x st.transitions) w) : ∃ s', w = .enum s' ∧
          Moves (c.Holds m p) s
            ((Ir.Region.chart ⟨initial, st :: states, history⟩).transitions s) s' := by
      have hchart : (Ir.Region.chart ⟨initial, st :: states, history⟩).transitions s =
          st.transitions.map fun t => (t.guard, t.target) := by
        simp [Ir.Region.chart, heq]
      rw [hchart]
      exact h.transitionChain hx (htargets st List.mem_cons_self)
    cases states with
    | nil => exact hmoves (by simpa using hs) h
    | cons st' states =>
      obtain ⟨taken, w, hcond, hw, hv⟩ := Evaluates.ite h
      have htaken : Value.bool taken = .bool (decide (s = st.name)) :=
        hcond.inState hx (hnames st List.mem_cons_self)
      cases taken with
      | true =>
        have heq : s = st.name := by simpa using htaken
        obtain ⟨s', rfl, hmoved⟩ := hmoves heq hw
        exact ⟨s', enum_widened.mp hv, hmoved⟩
      | false =>
        have hne : s ≠ st.name := by simpa using htaken
        have hs' : s ∈ (st' :: states).map (·.name) := by simpa [hne] using hs
        obtain ⟨s', rfl, hmoves'⟩ := ih hw hs'
          (fun st hst => hnames st (List.mem_cons_of_mem _ hst))
          (fun st hst => htargets st (List.mem_cons_of_mem _ hst))
        refine ⟨s', enum_widened.mp hv, ?_⟩
        have hchart : (Ir.Region.chart ⟨initial, st :: st' :: states, history⟩).transitions s =
            (Ir.Region.chart ⟨initial, st' :: states, history⟩).transitions s := by
          have hne' : st.name ≠ s := fun h => hne h.symm
          simp [Ir.Region.chart, hne']
        rwa [hchart]

theorem Evaluates.resume {initial next n : String}
    (h : c.Evaluates m p (.arrow (.var initial) (.pre (.var next))) v)
    (hinitial : c.env initial = none)
    (hnext : c.sim.state.cycle ≠ 0 → c.sim.state.prev next = some (.enum n)) :
    v = .enum (if c.sim.state.cycle = 0 then initial else n) := by
  obtain ⟨w, hw, hv⟩ := h.arrow
  split at hw
  next hfirst =>
    cases hw.variant hinitial
    rw [if_pos hfirst]
    exact enum_widened.mp hv
  next hfirst =>
    have hprev := hw.pre
    rw [hnext hfirst] at hprev
    cases hprev
    rw [if_neg hfirst]
    exact enum_widened.mp hv

/-- A region that is nested starts over when it was not active in the cycle before. -/
theorem Evaluates.nestedState {initial next activeVar n : String} {history is was : Bool}
    (h : c.Evaluates m p (nestedStateRhs initial next activeVar history) v)
    (hinitial : c.env initial = none) (hactive : c.env activeVar = some (.bool is))
    (hwas : c.sim.state.cycle ≠ 0 → c.sim.state.prev activeVar = some (.bool was))
    (hnext : c.sim.state.cycle ≠ 0 → c.sim.state.prev next = some (.enum n)) :
    v = .enum (if c.sim.state.cycle = 0 ∨ (history = false ∧ is = true ∧ was = false) then initial
      else n) := by
  unfold nestedStateRhs at h
  cases history with
  | true =>
    rw [h.resume hinitial hnext]
    simp
  | false =>
    obtain ⟨entered, w, hentered, hw, hv⟩ := Evaluates.ite h
    obtain ⟨l, r, hl, hr, hlr⟩ := hentered.and
    cases hl.value hactive
    -- `entered` is `active and (true -> not pre active)`
    obtain ⟨w', hw', hr⟩ := hr.arrow
    cases widened_bool.mp hr
    have hr : r = decide (c.sim.state.cycle = 0 ∨ was = false) := by
      split at hw'
      next hfirst =>
        cases hw'.const
        simp [hfirst]
      next hfirst =>
        obtain ⟨b, hb, hb'⟩ := hw'.not
        have hprev := hb.pre
        rw [hwas hfirst] at hprev
        cases hprev
        cases hb'
        simp [hfirst]
    have hentered : entered = decide (is = true ∧ (c.sim.state.cycle = 0 ∨ was = false)) := by
      cases hlr
      rw [hr]
      cases is <;> simp
    cases entered with
    | true =>
      cases hw.variant hinitial
      rw [enum_widened.mp hv]
      obtain ⟨his, hwas⟩ := of_decide_eq_true hentered.symm
      rw [if_pos (hwas.imp_right fun hwas => ⟨rfl, his, hwas⟩)]
    | false =>
      cases Evaluates.resume hw hinitial hnext
      have hnot := of_decide_eq_false hentered.symm
      rw [enum_widened.mp hv]
      by_cases hfirst : c.sim.state.cycle = 0
      · rw [if_pos hfirst, if_pos (.inl hfirst)]
      · rw [if_neg hfirst, if_neg]
        rintro (hzero | ⟨-, his, hwas⟩)
        · exact hfirst hzero
        · exact hnot ⟨his, .inr hwas⟩

end Cycle

theorem activeIn_nil (c : Cycle) : c.ActiveIn [] := List.forall_mem_nil _

/-- The cycles of a run, each of which satisfies the equations `eqs`, and none of which gives a
value to a name in `bound`. -/
structure Obeys (m : Machine) (p : Project) (cycles : List Cycle) (bound : List String)
    (eqs : List Equation) : Prop where
  equation : ∀ c ∈ cycles, ∀ x rhs, ⟨[x], rhs⟩ ∈ eqs →
    ∃ v, c.Evaluates m p rhs v ∧ c.Stores m p x v
  free : ∀ c ∈ cycles, ∀ x ∈ bound, c.env x = none
  first : ∀ t c, cycles[t]? = some c → (c.sim.state.cycle = 0 ↔ t = 0)
  prev : ∀ t c c', cycles[t]? = some c → cycles[t + 1]? = some c' → ∀ x v, c.env x = some v →
    c'.sim.state.prev x = some v

section Run

variable {cycles : List Cycle} {bound : List String} {eqs : List Equation}

/-- The guards that hold in a cycle of a run, and whether it is in all states of a path. -/
def holdsAt (m : Machine) (p : Project) (cycles : List Cycle) (t : Nat) (g : Expr) (b : Bool) : Prop :=
  ∃ c, cycles[t]? = some c ∧ c.Holds m p g b

def activeAt (cycles : List Cycle) (path : List (String × String)) (t : Nat) : Prop :=
  ∃ c, cycles[t]? = some c ∧ c.ActiveIn path

/-- The state that a variable holds in a cycle. -/
def stateAt (cycles : List Cycle) (x : String) (t : Nat) : String :=
  match (cycles[t]?).bind (·.env x) with
  | some (.enum s) => s
  | _ => ""

theorem holdsAt_eq {t : Nat} {c : Cycle} (hc : cycles[t]? = some c) :
    holdsAt m p cycles t = c.Holds m p := by
  funext g b
  simp [holdsAt, hc]

theorem activeAt_eq {t : Nat} {c : Cycle} (hc : cycles[t]? = some c)
    (path : List (String × String)) : activeAt cycles path t = c.ActiveIn path := by
  simp [activeAt, hc]

theorem stateAt_eq {t : Nat} {c : Cycle} {x s : String} (hc : cycles[t]? = some c)
    (hs : c.env x = some (.enum s)) : stateAt cycles x t = s := by
  simp [stateAt, hc, hs]

/-- The variable that says when a region is active, where it has one, tells whether the cycle is in
the states the region is inside of. -/
def Tracks (cycles : List Cycle) (path : List (String × String)) (active : Option Expr)
    (activeVar : String) : Prop :=
  match active with
  | none => path = []
  | some _ => ∀ c ∈ cycles, ∃ a : Bool, c.env activeVar = some (.bool a) ∧ (a = true ↔ c.ActiveIn path)

variable {active : Option Expr} {names : RegionNames} {r : Ir.Region}
  {path : List (String × String)}

/-- A region whose equations the cycles of a run satisfy. -/
structure Placed (m : Machine) (p : Project) (cycles : List Cycle) (bound : List String)
    (eqs : List Equation) (active : Option Expr) (names : RegionNames) (r : Ir.Region)
    (path : List (String × String)) : Prop where
  obeys : Obeys m p cycles bound eqs
  equations : ∀ eq ∈ regionEquations names active r, eq ∈ eqs
  initial : r.initialState ∈ r.states.map (·.name)
  states : ∀ st ∈ r.states, st.name ∈ bound ∧
    ∀ t ∈ st.transitions, t.target ∈ r.states.map (·.name)
  tracks : Tracks cycles path active names.activeVar

namespace Placed

variable (h : Placed m p cycles bound eqs active names r path)

include h

theorem closed : r.chart.Closed where
  initial := h.initial
  target s _ x hx := by
    simp only [Ir.Region.chart] at hx ⊢
    cases hfind : r.states.find? (·.name = s) with
    | none => simp [hfind] at hx
    | some st =>
      rw [hfind, Option.map_some, Option.getD_some] at hx
      obtain ⟨t, ht, rfl⟩ := List.mem_map.mp hx
      exact (h.states st (List.mem_of_find?_eq_some hfind)).2 t ht

theorem free {c : Cycle} (hc : c ∈ cycles) {s : String} (hs : s ∈ r.states.map (·.name)) :
    c.env s = none := by
  obtain ⟨st, hst, rfl⟩ := List.mem_map.mp hs
  exact h.obeys.free c hc _ (h.states st hst).1

/-- What a state leads to in a cycle. -/
theorem next {c : Cycle} (hc : c ∈ cycles) {s : String}
    (hs : c.env names.stateVar = some (.enum s)) (hmem : s ∈ r.states.map (·.name)) :
    ∃ n, c.env names.nextVar = some (.enum n) ∧
      (c.ActiveIn path → Moves (c.Holds m p) s (r.chart.transitions s) n) ∧
      (¬ c.ActiveIn path → n = s) := by
  obtain ⟨initial, states, history⟩ := r
  have hchain {v : Value} (hv : c.Evaluates m p (buildNextStateChain names.stateVar states) v) :
      ∃ n, v = .enum n ∧ Moves (c.Holds m p) s
        ((Ir.Region.chart ⟨initial, states, history⟩).transitions s) n :=
    hv.nextState hs hmem (fun st hst => h.obeys.free c hc _ (h.states st hst).1)
      fun st hst t ht => h.free hc ((h.states st hst).2 t ht)
  have htracks := h.tracks
  cases active with
  | none =>
    obtain ⟨v, hv, hstores⟩ := h.obeys.equation c hc names.nextVar
      (buildNextStateChain names.stateVar states) (h.equations _ (by simp [regionEquations]))
    obtain ⟨n, rfl, hmoves⟩ := hchain hv
    refine ⟨n, hstores.enum, fun _ => hmoves, fun hnot => absurd ?_ hnot⟩
    obtain rfl : path = [] := htracks
    exact activeIn_nil c
  | some active =>
    obtain ⟨a, ha, hactive⟩ := htracks c hc
    obtain ⟨v, hv, hstores⟩ := h.obeys.equation c hc names.nextVar
      (.ifThenElse (.var names.activeVar) (buildNextStateChain names.stateVar states)
        (.var names.stateVar)) (h.equations _ (by simp [regionEquations]))
    obtain ⟨taken, w, hcond, hw, hwide⟩ := hv.ite
    cases hcond.value ha
    cases a with
    | true =>
      obtain ⟨n, rfl, hmoves⟩ := hchain hw
      cases enum_widened.mp hwide
      exact ⟨n, hstores.enum, fun _ => hmoves, fun hnot => absurd (hactive.mp rfl) hnot⟩
    | false =>
      cases hw.value hs
      cases enum_widened.mp hwide
      exact ⟨s, hstores.enum, fun hin => absurd (hactive.mpr hin) (by simp), fun _ => rfl⟩

/-- At the start a region is in its initial state. -/
theorem start {c : Cycle} (hc : cycles[0]? = some c) :
    c.env names.stateVar = some (.enum r.initialState) := by
  obtain ⟨initial, states, history⟩ := r
  have hmem : c ∈ cycles := List.mem_of_getElem? hc
  have hinitial : c.env initial = none := h.free hmem h.initial
  have hfirst : c.sim.state.cycle = 0 := (h.obeys.first 0 c hc).mpr rfl
  cases active with
  | none =>
    obtain ⟨v, hv, hstores⟩ := h.obeys.equation c hmem names.stateVar
      (.arrow (.var initial) (.pre (.var names.nextVar)))
      (h.equations _ (by simp [regionEquations]))
    have hvalue := hv.resume (n := initial) hinitial fun hne => absurd hfirst hne
    rw [if_pos hfirst] at hvalue
    cases hvalue
    exact hstores.enum
  | some active =>
    obtain ⟨a, ha, -⟩ := h.tracks c hmem
    obtain ⟨v, hv, hstores⟩ := h.obeys.equation c hmem names.stateVar
      (nestedStateRhs initial names.nextVar names.activeVar history)
      (h.equations _ (by simp [regionEquations]))
    have hwas : c.sim.state.cycle ≠ 0 → c.sim.state.prev names.activeVar = some (.bool a) :=
      fun hne => absurd hfirst hne
    have hvalue := hv.nestedState (n := initial) hinitial ha hwas fun hne => absurd hfirst hne
    rw [if_pos (.inl hfirst)] at hvalue
    cases hvalue
    exact hstores.enum

/-- Later it is where it was led, unless it is entered without history. -/
theorem later {t : Nat} {c c' : Cycle} {n : String} (hc : cycles[t]? = some c)
    (hc' : cycles[t + 1]? = some c') (hn : c.env names.nextVar = some (.enum n)) :
    ∃ s, c'.env names.stateVar = some (.enum s) ∧
      ((r.history = false ∧ c'.ActiveIn path ∧ ¬ c.ActiveIn path ∧ s = r.initialState) ∨
        (¬ (r.history = false ∧ c'.ActiveIn path ∧ ¬ c.ActiveIn path) ∧ s = n)) := by
  obtain ⟨initial, states, history⟩ := r
  have hmem : c' ∈ cycles := List.mem_of_getElem? hc'
  have hinitial : c'.env initial = none := h.free hmem h.initial
  have hlater : c'.sim.state.cycle ≠ 0 := fun hzero =>
    Nat.succ_ne_zero t ((h.obeys.first (t + 1) c' hc').mp hzero)
  have hnext := h.obeys.prev t c c' hc hc' _ _ hn
  cases active with
  | none =>
    obtain ⟨v, hv, hstores⟩ := h.obeys.equation c' hmem names.stateVar
      (.arrow (.var initial) (.pre (.var names.nextVar)))
      (h.equations _ (by simp [regionEquations]))
    have hvalue := hv.resume hinitial fun _ => hnext
    rw [if_neg hlater] at hvalue
    cases hvalue
    refine ⟨n, hstores.enum, .inr ⟨fun hentered => hentered.2.2 ?_, rfl⟩⟩
    obtain rfl : path = [] := h.tracks
    exact activeIn_nil c
  | some active =>
    obtain ⟨is, his, hactive⟩ := h.tracks c' hmem
    obtain ⟨was, hwas, hactive'⟩ := h.tracks c (List.mem_of_getElem? hc)
    obtain ⟨v, hv, hstores⟩ := h.obeys.equation c' hmem names.stateVar
      (nestedStateRhs initial names.nextVar names.activeVar history)
      (h.equations _ (by simp [regionEquations]))
    have hvalue := hv.nestedState hinitial his
      (fun _ => h.obeys.prev t c c' hc hc' _ _ hwas) fun _ => hnext
    cases hvalue
    refine ⟨_, hstores.enum, ?_⟩
    rw [← hactive, ← hactive']
    by_cases hentered : history = false ∧ is = true ∧ was = false
    · rw [if_pos (.inr hentered)]
      exact .inl ⟨hentered.1, hentered.2.1, by simp [hentered.2.2], rfl⟩
    · rw [if_neg (not_or.mpr ⟨hlater, hentered⟩)]
      exact .inr ⟨by simpa using hentered, rfl⟩

/-- From one cycle to the next a region makes a step. -/
theorem step {t : Nat} {c c' : Cycle} {s : String} (hc : cycles[t]? = some c)
    (hc' : cycles[t + 1]? = some c') (hs : c.env names.stateVar = some (.enum s))
    (hmem : s ∈ r.states.map (·.name)) :
    ∃ s', c'.env names.stateVar = some (.enum s') ∧
      r.chart.Step (c.Holds m p) (c.ActiveIn path) (c'.ActiveIn path) s s' := by
  obtain ⟨n, hn, hmoves, hstays⟩ := h.next (List.mem_of_getElem? hc) hs hmem
  obtain ⟨s', hs', hentered | ⟨hnot, rfl⟩⟩ := h.later hc hc' hn
  · obtain ⟨hhistory, his, hwas, rfl⟩ := hentered
    exact ⟨_, hs', .enter his hwas hhistory⟩
  · refine ⟨s', hs', ?_⟩
    by_cases hwas : c.ActiveIn path
    · exact .move hwas (hmoves hwas)
    · obtain rfl := hstays hwas
      refine .rest hwas fun his => ?_
      cases hhistory : r.history with
      | true => exact hhistory
      | false => exact absurd ⟨hhistory, his, hwas⟩ hnot

/-- In every cycle a region is in one of its states. -/
theorem inState {t : Nat} {c : Cycle} (hc : cycles[t]? = some c) :
    ∃ s ∈ r.states.map (·.name), c.env names.stateVar = some (.enum s) := by
  induction t generalizing c with
  | zero => exact ⟨_, h.initial, h.start hc⟩
  | succ t ih =>
    have hlt : t < cycles.length := Nat.lt_of_succ_lt (List.getElem?_eq_some_iff.mp hc).1
    have hc₀ : cycles[t]? = some cycles[t] := List.getElem?_eq_getElem hlt
    obtain ⟨s, hmem, hs⟩ := ih hc₀
    obtain ⟨s', hs', hstep⟩ := h.step hc₀ hc hs hmem
    exact ⟨s', hstep.mem h.closed hmem, hs'⟩

theorem stateVar {t : Nat} {c : Cycle} (hc : cycles[t]? = some c) :
    c.env names.stateVar = some (.enum (stateAt cycles names.stateVar t)) := by
  obtain ⟨s, -, hs⟩ := h.inState hc
  rw [stateAt_eq hc hs, hs]

theorem run : r.chart.Run (holdsAt m p cycles) (activeAt cycles path) cycles.length
    (stateAt cycles names.stateVar) where
  start hlen := stateAt_eq (List.getElem?_eq_getElem hlen)
    (h.start (List.getElem?_eq_getElem hlen))
  step t hlt := by
    have hc : cycles[t]? = some cycles[t] := List.getElem?_eq_getElem (Nat.lt_of_succ_lt hlt)
    have hc' : cycles[t + 1]? = some cycles[t + 1] := List.getElem?_eq_getElem hlt
    obtain ⟨s, hmem, hs⟩ := h.inState hc
    obtain ⟨s', hs', hstep⟩ := h.step hc hc' hs hmem
    rw [holdsAt_eq hc, activeAt_eq hc, activeAt_eq hc', stateAt_eq hc hs, stateAt_eq hc' hs']
    exact hstep

/-- The variable of a region inside a state says when the cycle is in that state. -/
theorem tracks_inner {name : String} {names' : RegionNames} (hname : name ∈ r.states.map (·.name))
    (heq : ⟨[names'.activeVar],
      nestedActive names.stateVar (active.map fun _ => names.activeVar) name⟩ ∈ eqs)
    {active' : Expr} :
    Tracks cycles (path ++ [(names.stateVar, name)]) (some active') names'.activeVar := by
  intro c hc
  obtain ⟨t, ht⟩ := List.mem_iff_getElem?.mp hc
  obtain ⟨s, -, hs⟩ := h.inState ht
  have hin : c.ActiveIn (path ++ [(names.stateVar, name)]) ↔ c.ActiveIn path ∧ s = name := by
    rw [Cycle.ActiveIn, List.forall_mem_append, List.forall_mem_singleton, hs, Option.some_inj,
      Value.enum.injEq]
    rfl
  have hfree := h.free hc hname
  obtain ⟨v, hv, hstores⟩ := h.obeys.equation c hc _ _ heq
  have htracks := h.tracks
  cases active with
  | none =>
    obtain rfl : path = [] := htracks
    cases Cycle.Evaluates.inState hv hs hfree
    refine ⟨_, hstores.bool, ?_⟩
    rw [hin]
    simp [activeIn_nil]
  | some active =>
    obtain ⟨a, ha, hactive⟩ := htracks c hc
    obtain ⟨l, b, hl, hb, rfl⟩ := Cycle.Evaluates.and hv
    cases hl.value ha
    cases hb.inState hs hfree
    refine ⟨_, hstores.bool, ?_⟩
    rw [hin, ← hactive]
    simp

end Placed

theorem mem_regionEquations (names : RegionNames) (active : Expr) (r : Ir.Region) :
    ⟨[names.activeVar], active⟩ ∈ regionEquations names (some active) r := by
  cases r
  exact List.mem_cons_self

/-- All regions of a machine that is emitted are placed. -/
theorem Obeys.placed (hobeys : Obeys m p cycles bound eqs) {info info' : RegionInfo}
    {inside : List (String × String)} (hnested : Nested info inside info')
    (hemitted : Emitted bound eqs active info)
    (htracks : ∀ names : RegionNames, (∀ eq ∈ regionEquations names active info.region, eq ∈ eqs) →
      Tracks cycles path active names.activeVar) :
    ∃ active' names', info'.stateVar = names'.stateVar ∧
      Placed m p cycles bound eqs active' names' info'.region (path ++ inside) ∧
      Emitted bound eqs active' info' := by
  induction hnested generalizing active path with
  | self info =>
    have hemitted' := hemitted
    obtain ⟨names, hvar, heqs, hstates, hinitial, hbound, hregions, hsubs⟩ := hemitted
    exact ⟨active, names, hvar, ⟨hobeys, heqs, hinitial, hbound, by simpa using htracks names heqs⟩,
      hemitted'⟩
  | @inner info sub info' node inside hnode hsub _ ih =>
    obtain ⟨names, hvar, heqs, hstates, hinitial, hbound, hregions, hsubs⟩ := hemitted
    have hplaced : Placed m p cycles bound eqs active names info.region path :=
      ⟨hobeys, heqs, hinitial, hbound, htracks names heqs⟩
    have hname : node.state.name ∈ info.region.states.map (·.name) := by
      rw [← hstates, List.map_map]
      exact List.mem_map_of_mem hnode
    have hinner := ih (hsubs node hnode sub hsub) fun names' heqs' =>
      hplaced.tracks_inner hname (heqs' _ (mem_regionEquations _ _ sub.region))
    rwa [List.append_assoc, List.singleton_append, ← hvar] at hinner

end Run

section Outputs

/-- The expression that gives an output its value in the states a cycle is in: a region inside the
state of a region gives it, the first one that assigns it in all its states, and else an equation of
the state itself. -/
inductive Selected (env : Env) (o : String) : RegionInfo → Expr → Prop
  | own {info : RegionInfo} {node : StateNode} {eq : Equation} :
    node ∈ info.states → env info.stateVar = some (.enum node.state.name) →
    (∀ sub ∈ node.nested, regionCovers o sub.region = false) →
    node.state.equationOf o = some eq → Selected env o info eq.rhs
  | inner {info sub : RegionInfo} {node : StateNode} {before after : List RegionInfo} {rhs : Expr} :
    node ∈ info.states → env info.stateVar = some (.enum node.state.name) →
    node.nested = before ++ sub :: after →
    (∀ sub' ∈ before, regionCovers o sub'.region = false) → regionCovers o sub.region = true →
    Selected env o sub rhs → Selected env o info rhs

variable {c : Cycle} {bound : List String} {eqs : List Equation} {active : Option Expr}
  {o : String} {ty : Ty}

theorem valueInRegions_cases (o : String) (ty : Ty) (infos : List RegionInfo) :
    (∃ before sub after, infos = before ++ sub :: after ∧
      (∀ sub' ∈ before, regionCovers o sub'.region = false) ∧ regionCovers o sub.region = true ∧
      valueInRegions o ty infos = some (valueOf o ty sub)) ∨
    ((∀ sub ∈ infos, regionCovers o sub.region = false) ∧ valueInRegions o ty infos = none) := by
  induction infos with
  | nil => exact .inr ⟨by simp, rfl⟩
  | cons info infos ih =>
    rw [valueInRegions]
    cases hcover : regionCovers o info.region with
    | true => exact .inl ⟨[], info, infos, rfl, by simp, hcover, rfl⟩
    | false =>
      rw [if_neg (by simp)]
      obtain ⟨before, sub, after, rfl, hbefore, hsub, hvalue⟩ | ⟨hnone, hvalue⟩ := ih
      · exact .inl ⟨info :: before, sub, after, rfl, List.forall_mem_cons.mpr ⟨hcover, hbefore⟩,
          hsub, hvalue⟩
      · exact .inr ⟨List.forall_mem_cons.mpr ⟨hcover, hnone⟩, hvalue⟩

/-- The chain over the states of a region has the value of the state it is in. -/
theorem Cycle.Evaluates.valueChain {x s : String} {nodes : List StateNode} {v : Value}
    (h : c.Evaluates m p (valueChain o ty x nodes) v) (hx : c.env x = some (.enum s))
    (hs : s ∈ nodes.map (·.state.name)) (hnames : ∀ node ∈ nodes, c.env node.state.name = none) :
    ∃ node ∈ nodes, node.state.name = s ∧
      ∃ u, c.Evaluates m p (valueInState o ty node) u ∧ Widened u v := by
  induction nodes generalizing v with
  | nil => cases hs
  | cons node nodes ih =>
    cases nodes with
    | nil => exact ⟨node, List.mem_cons_self, by simpa [eq_comm] using hs, v, h, .refl v⟩
    | cons node' nodes =>
      obtain ⟨taken, w, hcond, hw, hwide⟩ := Cycle.Evaluates.ite h
      have htaken : Value.bool taken = .bool (decide (s = node.state.name)) :=
        hcond.inState hx (hnames node List.mem_cons_self)
      cases taken with
      | true =>
        have heq : s = node.state.name := by simpa using htaken
        exact ⟨node, List.mem_cons_self, heq.symm, w, hw, hwide⟩
      | false =>
        have hne : s ≠ node.state.name := by simpa using htaken
        have hs' : s ∈ (node' :: nodes).map (·.state.name) := by simpa [hne] using hs
        obtain ⟨found, hfound, hname, u, hu, huw⟩ := ih hw hs' fun node hnode =>
          hnames node (List.mem_cons_of_mem _ hnode)
        exact ⟨found, List.mem_cons_of_mem _ hfound, hname, u, hu, huw.trans hwide⟩

/-- The selection over a region and those inside it has the value of the expression selected. -/
theorem Emitted.selected {info : RegionInfo} {v : Value} (hemitted : Emitted bound eqs active info)
    (hfree : ∀ x ∈ bound, c.env x = none)
    (hstate : ∀ inside info', Nested info inside info' →
      ∃ s ∈ info'.region.states.map (·.name), c.env info'.stateVar = some (.enum s))
    (hcovers : regionCovers o info.region = true)
    (h : c.Evaluates m p (valueOf o ty info) v) :
    ∃ rhs u, Selected c.env o info rhs ∧ c.Evaluates m p rhs u ∧ Widened u v := by
  induction hemitted generalizing v with
  | @intro active info names hvar heqs hstates hinitial hbound hregions hsubs ih =>
    obtain ⟨s, hs, henv⟩ := hstate [] info (.self info)
    have hnames : ∀ node ∈ info.states, c.env node.state.name = none := fun node hnode =>
      hfree _ (hbound _ (hstates ▸ List.mem_map_of_mem hnode)).1
    rw [← hstates, List.map_map] at hs
    rw [valueOf_eq] at h
    obtain ⟨node, hnode, rfl, w, hw, hwide⟩ := h.valueChain henv hs hnames
    have hcover : stateCovers o node.state = true := by
      rw [regionCovers_eq, ← hstates] at hcovers
      exact allStatesCover_iff.mp hcovers _ (List.mem_map_of_mem hnode)
    rw [valueInState_eq] at hw
    obtain ⟨before, sub, after, hnested, hbefore, hsub, hregion⟩ | ⟨hnone, hregion⟩ :=
      valueInRegions_cases o ty node.nested
    · have hmem : sub ∈ node.nested := hnested ▸ List.mem_append_right _ List.mem_cons_self
      rw [hregion, Option.getD_some] at hw
      obtain ⟨rhs, u, hselected, hu, huw⟩ := ih node hnode sub hmem
        (fun inside info' hinside => hstate _ info' (.inner hnode hmem hinside)) hsub hw
      exact ⟨rhs, u, .inner hnode henv hnested hbefore hsub hselected, hu, huw.trans hwide⟩
    · have hregions : ∀ r ∈ node.state.regions, regionCovers o r = false := by
        rw [← hregions node hnode]
        exact List.forall_mem_map.mpr hnone
      obtain ⟨eq, heq⟩ := exists_equationOf hcover hregions
      rw [hregion, Option.getD_none, heq, Option.map_some, Option.getD_some] at hw
      exact ⟨eq.rhs, w, .own hnode henv hnone heq, hw, hwide⟩

end Outputs

/-- The name `x` is left to the states: no signal and no constant of the node has it. -/
structure Unused (sim : Sim) (rows : List Env) (x : String) : Prop where
  signal : ∀ port ∈ sim.node.inputs ++ (sim.node.outputs ++ sim.node.locals), port.name ≠ x
  defined : ∀ eq ∈ sim.node.equations, x ∉ eq.lhs
  constant : sim.consts x = none
  input : ∀ row ∈ rows, row x = none

/-- The node that is simulated has the equations of a lowered machine in its body, on the base
clock, and leaves the names of the states to it. -/
structure Hosts (sim : Sim) (rows : List Env) (sm : StateMachineDef) (lowered : LoweredMachine) :
    Prop where
  lowers : lower sm = .ok lowered
  equations : ∀ eq ∈ lowered.node.equations, ∃ i, sim.node.equations[i]? = some eq ∧
    OnBase sim.clockInfo sim.node.name i
  unused : ∀ x ∈ collectStateNames sm.states, Unused sim rows x

section Hosts

variable {sim : Sim} {rows : List Env} {sm : StateMachineDef} {lowered : LoweredMachine}
  {name : String} {cycles : List Cycle}

theorem Hosts.obeys (host : Hosts sim rows sm lowered) (hp : Typecheck.Accepted p)
    (hsim : Sim.new m p name = .ok sim) (hrun : sim.cycles m p rows = .ok cycles) :
    Obeys m p cycles (collectStateNames sm.states) lowered.node.equations := by
  obtain ⟨hnode, -, horder, -, hstate, -⟩ := Sim.new_eq_ok hsim
  have hsingle := hp.singleAssignment (Project.mem_of_findNode hnode)
  have hcycle {t : Nat} {c : Cycle} (hc : cycles[t]? = some c) :
      Sim.SameNode sim c.sim ∧ ∃ next, c.Runs m p next := by
    obtain ⟨hsame, -, -, ⟨next, hstep⟩, -⟩ := Sim.cycles_getElem? hrun hc
    refine ⟨hsame, next, hstep, ?_, ?_⟩
    · rw [hsame.node, hsame.eqOrder, horder]
    · rw [hsame.node]
      exact hsingle
  constructor
  · intro c hc x rhs heq
    obtain ⟨t, ht⟩ := List.mem_iff_getElem?.mp hc
    obtain ⟨hsame, next, hruns⟩ := hcycle ht
    obtain ⟨i, hi, hbase⟩ := host.equations _ heq
    rw [← hsame.node] at hi hbase
    rw [← hsame.clockInfo] at hbase
    exact hruns.equation hi hbase
  · intro c hc x hx
    obtain ⟨t, ht⟩ := List.mem_iff_getElem?.mp hc
    obtain ⟨hsame, next, hruns⟩ := hcycle ht
    have hunused := host.unused x hx
    obtain ⟨-, hrow, -⟩ := Sim.cycles_getElem? hrun ht
    refine hruns.unbound ?_ ?_ (hunused.input _ (List.mem_of_getElem? hrow)) ?_
    · rw [hsame.node]
      exact fun port hport => hunused.signal port (List.mem_append_right _ hport)
    · rw [hsame.node]
      exact hunused.defined
    · rw [hsame.consts]
      exact hunused.constant
  · intro t c hc
    obtain ⟨-, -, hcycle, -⟩ := Sim.cycles_getElem? hrun hc
    rw [hcycle, hstate, State.initial]
    simp
  · intro t c c' hc hc'
    obtain ⟨-, -, -, -, hprev⟩ := Sim.cycles_getElem? hrun hc
    exact hprev c' hc'

theorem Hosts.placed (host : Hosts sim rows sm lowered) (hp : Typecheck.Accepted p)
    (hsim : Sim.new m p name = .ok sim) (hrun : sim.cycles m p rows = .ok cycles)
    {inside : List (String × String)} {info : RegionInfo} (hnested : Nested sm.emit.1 inside info) :
    ∃ active names, info.stateVar = names.stateVar ∧
      Placed m p cycles (collectStateNames sm.states) lowered.node.equations active names info.region
        inside := by
  obtain ⟨active, names, hvar, hplaced, -⟩ :=
    (host.obeys hp hsim hrun).placed hnested (lower_emitted host.lowers)
      fun _ _ => rfl
  exact ⟨active, names, hvar, hplaced⟩

end Hosts

section Lamp

/-- A lamp that is off or on, and while it is on dim or bright. -/
def lamp : StateMachineDef :=
  ⟨"Lamp", [⟨"push", .bool⟩], [⟨"bright", .bool⟩], [], "Off",
    [⟨"Off", [⟨["bright"], .const (.bool false)⟩], [⟨.var "push", "On"⟩], [], none⟩,
      ⟨"On", [], [⟨.var "push", "Off"⟩],
        [⟨"Dim", [⟨"Dim", [⟨["bright"], .const (.bool false)⟩],
            [⟨.const (.bool true), "Bright"⟩], [], none⟩,
          ⟨"Bright", [⟨["bright"], .const (.bool true)⟩], [], [], none⟩], false⟩], none⟩], none⟩

def lampLowered : LoweredMachine where
  stateTypes := lamp.emit.2.enums
  node := {
    name := "Lamp"
    kind := .operator
    inputs := lamp.inputs
    outputs := lamp.outputs
    locals := lamp.emit.2.locals
    equations := lamp.emit.2.equations ++
      lamp.outputs.map fun out => ⟨[out.name], valueOf out.name out.ty lamp.emit.1⟩ }
  stateLocal := stateLocal

def lampProject : Project where
  packages := [{ name := "main", types := lampLowered.stateTypes, nodes := [lampLowered.node] }]

def lampRows : List Env :=
  [Env.set (fun _ => none) "push" (.bool true), Env.set (fun _ => none) "push" (.bool false),
    Env.set (fun _ => none) "push" (.bool false)]

def lampSim : Sim :=
  ⟨lampLowered.node, .initial, Calls.empty, fun _ => none, [0, 1, 2, 3, 4, 5], {}⟩

theorem lampSim_new : Sim.new ⟨true, 8⟩ lampProject "Lamp" = .ok lampSim := by
  have horder : evaluationOrder lampLowered.node = .ok [0, 1, 2, 3, 4, 5] := by decide +kernel
  have hclocks : clocksOf lampLowered.node = {} := if_neg (by decide +kernel)
  have hnode : lampProject.findNode "Lamp" = some lampLowered.node := rfl
  have hconsts : evalConstants ⟨true, 8⟩ lampProject = .ok fun _ => none := rfl
  simp only [Sim.new, hnode, hconsts, horder, hclocks]
  rfl

theorem lamp_cycles :
    ∃ cycles, Sim.cycles ⟨true, 8⟩ lampProject lampSim lampRows = .ok cycles ∧ cycles.length = 3 := by
  have hok : ((Sim.cycles ⟨true, 8⟩ lampProject lampSim lampRows).map (·.length)).toOption = some 3 := by
    decide +kernel
  cases h : Sim.cycles ⟨true, 8⟩ lampProject lampSim lampRows with
  | error e => rw [h] at hok; cases hok
  | ok cycles =>
    rw [h] at hok
    exact ⟨cycles, rfl, Option.some.inj hok⟩

theorem lamp_hosts : Hosts lampSim lampRows lamp lampLowered where
  lowers := rfl
  equations eq heq := by
    obtain ⟨i, hi⟩ := List.mem_iff_getElem?.mp heq
    exact ⟨i, hi, by simp [lampSim], by simp [lampSim]⟩
  unused x hx := by
    have hx : x ∈ ["Off", "On", "Dim", "Bright"] := hx
    refine ⟨?_, ?_, rfl, ?_⟩
    · revert x
      decide +kernel
    · revert x
      decide +kernel
    · have hpush : x ≠ "push" := by
        rintro rfl
        simp at hx
      simp [lampRows, Env.set, hpush]

end Lamp

end OpenLustre.Simulator
