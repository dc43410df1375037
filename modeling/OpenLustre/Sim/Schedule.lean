import OpenLustre.Sim.Run

/-! Freshness of the schedule: which values a cycle reads before it has computed
them.  The scheduler orders an equation after what its right-hand side reads; the
simulator reads the variables of its clock chain too. -/

namespace OpenLustre.Ir.NodeDef

open OpenLustre.Ir

variable (n : NodeDef)

/-- The names equation `i` defines. -/
def defines (i : Nat) : List String := (n.equations[i]?.map (·.lhs)).getD []

/-- The variables the right-hand side of equation `i` reads in the same cycle. -/
def dataReads (i : Nat) : List String := (n.equations[i]?.map fun eq => sameCycleReads eq.rhs).getD []

/-- The variables of the inferred clock chain of equation `i`. -/
def clockReads (i : Nat) : List String :=
  (((inferClocks n).equationClocks[i]?).map fun ck => ck.conditions.map (·.1)).getD []

/-- Every equation comes after those that define what it reads, on its right-hand
side or in its clock chain. -/
def Fresh (order : List Nat) : Prop :=
  ∀ i j x, x ∈ n.dataReads i ++ n.clockReads i → x ∈ n.defines j → Dependency.Before order j i

/-- Whatever defines a variable of an equation's clock chain (or one of several
definitions of a variable it reads) is a dependency of the equation, or has fewer
references to later equations along its dependency paths, or as many and an
earlier position. -/
def ClocksPrecede : Prop :=
  ∀ i j x, x ∈ n.dataReads i ++ n.clockReads i → x ∈ n.defines j →
    j ∈ n.deps i ∨ Dependency.Precedes (Dependency.backRefs n.deps n.equations.length) j i

end OpenLustre.Ir.NodeDef

namespace OpenLustre.Simulator

open OpenLustre.Ir

section Static

variable {n : NodeDef} {order : List Nat} {i j : Nat} {x : String}

theorem lt_of_mem_defines (h : x ∈ n.defines j) : j < n.equations.length := by
  by_contra hj
  have hnone : n.equations[j]? = none := List.getElem?_eq_none (by omega)
  simp [NodeDef.defines, hnone] at h

theorem lt_of_mem_reads (h : x ∈ n.dataReads i ++ n.clockReads i) : i < n.equations.length := by
  by_contra hi
  have hnone : n.equations[i]? = none := List.getElem?_eq_none (by omega)
  simp [NodeDef.dataReads, NodeDef.clockReads, inferClocks, hnone] at h

theorem before_of_mem_deps (h : evaluationOrder n = .ok order) (hj : j ∈ n.deps i) :
    Dependency.Before order j i := by
  obtain ⟨hplaced, hlen⟩ := evaluationOrder_placed h
  have hi : i ∈ order := (hplaced.perm hlen).mem_iff.mpr (List.mem_range.mpr (deps_lt n i j hj).1)
  exact hplaced.before hi hj

theorem fresh_iff (h : evaluationOrder n = .ok order) : n.Fresh order ↔ n.ClocksPrecede := by
  have hdom := fun i j hj => (deps_lt n i j hj).2
  have hrun := evaluationOrder_eq_ok.mp h
  constructor
  · intro hfresh i j x hx hj
    right
    rw [← Dependency.before_iff_precedes hdom hrun (lt_of_mem_reads hx) (lt_of_mem_defines hj)]
    exact hfresh i j x hx hj
  · intro hprecede i j x hx hj
    rcases hprecede i j x hx hj with hdep | hlt
    · exact before_of_mem_deps h hdep
    · rwa [Dependency.before_iff_precedes hdom hrun (lt_of_mem_reads hx) (lt_of_mem_defines hj)]

end Static

section Frame

variable {m : Machine} {p : Project} {cs : Callees} {n : NodeDef} {info : ClockInfo} {state : State}
  {x : String}

theorem Env.set_of_ne {env : Env} {y : String} {v : Value} (h : x ≠ y) : env.set y v x = env x :=
  if_neg h

theorem store_frame {env env' : Env} {y : String} {v : Value} (h : store m p n env y v = .ok env')
    (hx : x ≠ y) : env' x = env x := by
  simp only [store] at h
  split at h
  · obtain ⟨w, -, rfl⟩ := Except.map_eq_ok.mp h
    exact Env.set_of_ne hx
  · cases h
    exact Env.set_of_ne hx

theorem foldlM_store_frame {pairs : List (String × Value)} {env env' : Env}
    (h : pairs.foldlM (fun env (y, v) => store m p n env y v) env = .ok env')
    (hx : ∀ pair ∈ pairs, x ≠ pair.1) : env' x = env x := by
  induction pairs generalizing env with
  | nil =>
    cases h
    rfl
  | cons pair pairs ih =>
    rw [List.foldlM_cons] at h
    obtain ⟨env₁, hstore, hrest⟩ := Except.bind_eq_ok.mp h
    rw [ih hrest fun pair hp => hx pair (List.mem_cons_of_mem _ hp),
      store_frame hstore (hx pair List.mem_cons_self)]

/-- Binding an equation changes only its left-hand side. -/
theorem bindLhs_frame {eq : Equation} {env env' : Env} {v : Value}
    (h : bindLhs m p n eq env v = .ok env') (hx : x ∉ eq.lhs) : env' x = env x := by
  simp only [bindLhs] at h
  split at h
  case h_1 y heq => exact store_frame h fun hxy => hx (by simp [heq, hxy])
  case h_2 =>
    split at h
    · refine foldlM_store_frame h fun pair hp hxy => hx ?_
      exact hxy ▸ (List.of_mem_zip (a := pair.1) (b := pair.2) hp).1
    · simp at h

/-- Running an equation changes only what it defines. -/
theorem equationStep_frame {env env' : Env} {i : Nat} {calls calls' : Calls}
    (h : equationStep m p cs n info state env i calls = (.ok env', calls'))
    (hx : x ∉ n.defines i) : env' x = env x := by
  unfold equationStep at h
  cases heq : n.equations[i]? with
  | none =>
    rw [heq] at h
    cases h
    rfl
  | some eq =>
    rw [heq] at h
    obtain ⟨active, s₁, -, h⟩ := Stateful.bind_eq_ok.mp h
    split at h
    · obtain ⟨v, s₂, -, h⟩ := Stateful.bind_eq_ok.mp h
      refine bindLhs_frame (Stateful.lift_eq_ok.mp h).1 ?_
      simpa [NodeDef.defines, heq] using hx
    · cases h
      rfl

theorem equationSteps_frame {order : List Nat} {env env' : Env} {calls calls' : Calls}
    (h : equationSteps m p cs n info state order env calls = (.ok env', calls'))
    (hx : ∀ i ∈ order, x ∉ n.defines i) : env' x = env x := by
  induction order generalizing env calls with
  | nil =>
    cases h
    rfl
  | cons i order ih =>
    obtain ⟨env₁, calls₁, hstep, hrest⟩ := Stateful.bind_eq_ok.mp h
    rw [ih hrest fun j hj => hx j (List.mem_cons_of_mem _ hj),
      equationStep_frame hstep (hx i List.mem_cons_self)]

theorem equationSteps_append {before after : List Nat} {env env' : Env} {calls calls' : Calls} :
    equationSteps m p cs n info state (before ++ after) env calls = (.ok env', calls') ↔
      ∃ env₁ calls₁, equationSteps m p cs n info state before env calls = (.ok env₁, calls₁) ∧
        equationSteps m p cs n info state after env₁ calls₁ = (.ok env', calls') := by
  induction before generalizing env calls with
  | nil => simp [equationSteps]
  | cons i before ih =>
    simp only [List.cons_append, equationSteps, Stateful.bind_eq_ok, ih]
    constructor
    · rintro ⟨env₁, calls₁, hstep, env₂, calls₂, hbefore, hafter⟩
      exact ⟨env₂, calls₂, ⟨env₁, calls₁, hstep, hbefore⟩, hafter⟩
    · rintro ⟨env₂, calls₂, ⟨env₁, calls₁, hstep, hbefore⟩, hafter⟩
      exact ⟨env₁, calls₁, hstep, env₂, calls₂, hbefore, hafter⟩

end Frame

/-- No variable that equation `i` reads, in whichever place of the order, still
changes in the cycle. -/
def ReadsThisCycle (m : Machine) (p : Project) (sim : Sim) (inputs : Env) : Prop :=
  ∀ env₀, sim.seed m p inputs = .ok env₀ →
    ∀ before i mid after, sim.eqOrder = before ++ i :: (mid ++ after) →
    ∀ env env' calls calls',
      equationSteps m p (callees m p m.stack) sim.node sim.clockInfo sim.state before env₀
        sim.callStates = (.ok env, calls) →
      equationSteps m p (callees m p m.stack) sim.node sim.clockInfo sim.state (before ++ i :: mid)
        env₀ sim.callStates = (.ok env', calls') →
      ∀ x ∈ sim.node.dataReads i ++ sim.node.clockReads i, env' x = env x

theorem Fresh.readsThisCycle {m : Machine} {p : Project} {sim : Sim} {inputs : Env}
    (hnodup : sim.eqOrder.Nodup) (hfresh : sim.node.Fresh sim.eqOrder) :
    ReadsThisCycle m p sim inputs := by
  intro env₀ _ before i mid after horder env env' calls calls' hbefore hmid x hx
  obtain ⟨env₁, calls₁, hbefore', hrest⟩ := equationSteps_append.mp hmid
  obtain ⟨rfl, rfl⟩ : env = env₁ ∧ calls = calls₁ := by simpa [hbefore] using hbefore'
  refine equationSteps_frame hrest fun j hj hdef => ?_
  rw [horder] at hnodup
  have hj' : j ∈ before := (horder ▸ hfresh i j x hx hdef).mem_left hnodup
  have hdisjoint := (List.nodup_append.mp hnodup).2.2 j hj'
  rcases List.mem_cons.mp hj with rfl | hj
  · exact hdisjoint j List.mem_cons_self rfl
  · exact hdisjoint j (List.mem_cons_of_mem _ (List.mem_append_left _ hj)) rfl

/-- The order of a node is a permutation of its equations that respects what every
right-hand side reads; it respects the clock chains too exactly when the clocks
precede, and then no cycle of any run reads a value of an earlier one. -/
theorem evaluationOrder_fresh (n : NodeDef) (order : List Nat) (h : evaluationOrder n = .ok order) :
    order.Perm (List.range n.equations.length) ∧
    (∀ i, ∀ j ∈ n.deps i, Dependency.Before order j i) ∧
    (n.Fresh order ↔ n.ClocksPrecede) ∧
    (n.ClocksPrecede → ∀ m p name sim rows, Sim.new m p name = .ok sim → sim.node = n →
      ∀ reached ∈ sim.reached m p rows, ∀ inputs, ReadsThisCycle m p reached inputs) := by
  obtain ⟨hplaced, hlen⟩ := evaluationOrder_placed h
  refine ⟨hplaced.perm hlen, fun i j hj => before_of_mem_deps h hj, fresh_iff h, ?_⟩
  rintro hprecede m p name sim rows hnew rfl reached hreached inputs
  have hsame := Sim.sameNode_of_mem_reached hreached
  have horder : sim.eqOrder = order := by
    have := (Sim.new_eq_ok hnew).2.2.1
    rw [h] at this
    cases this
    rfl
  refine Fresh.readsThisCycle ?_ ?_
  · rw [hsame.eqOrder, horder]
    exact hplaced.nodup
  · rw [hsame.node, hsame.eqOrder, horder]
    exact (fresh_iff h).mpr hprecede

/-- `y` is held on `c`, which its right-hand side reads under `pre` only. -/
def heldOnClock : NodeDef where
  name := "N"
  kind := .operator
  inputs := [⟨"c0", .bool⟩, ⟨"i", .int32⟩]
  outputs := [⟨"o", .int32⟩]
  locals := [⟨"c", .bool⟩, ⟨"x", .int32⟩, ⟨"y", .int32⟩]
  equations := [
    ⟨["y"], .arrow (.const (.int 0)) (.pre (.var "x"))⟩,
    ⟨["x"], .when (.var "i") "c" true⟩,
    ⟨["o"], .merge "c" (.var "y") (.when (.var "i") "c" false)⟩,
    ⟨["c"], .unary .not (.var "c0")⟩]

theorem evaluationOrder_fresh_heldOnClock :
    Dependency.Before [0, 3, 1, 2] 3 1 :=
  (evaluationOrder_fresh heldOnClock [0, 3, 1, 2] (by decide)).2.1 1 3 (by decide)

/-- The equation of `y` is on `c` and comes before the equation of `c`. -/
theorem exists_stale_clock :
    ¬ ∀ n order, (inferClocks n).errors = [] → evaluationOrder n = .ok order →
      ∀ i, ∀ x ∈ n.clockReads i, ∀ j, x ∈ n.defines j → Dependency.Before order j i := by
  intro h
  have hbefore := h heldOnClock [0, 3, 1, 2] (by decide) (by decide) 0 "c" (by decide) 3 (by decide)
  replace hbefore : Dependency.Before ([] ++ 0 :: [3, 1, 2]) 3 0 := hbefore
  have hmem : 3 ∈ [] := hbefore.mem_left (by decide)
  simp at hmem

end OpenLustre.Simulator
