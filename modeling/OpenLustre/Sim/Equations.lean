import OpenLustre.Sim.Schedule

/-! The equations of a node as facts about the cycles of a run: in a cycle that
succeeds, an equation on the base clock gives its variable the value that its
right-hand side has with this cycle's values of all it reads. -/

namespace OpenLustre.Simulator

open OpenLustre.Ir

/-- A cycle: the simulator it starts from, its inputs and the environment it ends
in. -/
structure Cycle where
  sim : Sim
  inputs : Env
  env : Env

/-- The cycles of a run, none of which fails. -/
def Sim.cycles (m : Machine) (p : Project) (sim : Sim) : List Env → Except Fault (List Cycle)
  | [] => .ok []
  | inputs :: rows =>
    match sim.stepEnv m p inputs with
    | (.error e, _) => .error e
    | (.ok env, sim') => (cycles m p sim' rows).map (⟨sim, inputs, env⟩ :: ·)

/-- Everything in equation `i` of `node` is on the base clock. -/
structure OnBase (info : ClockInfo) (node : String) (i : Nat) : Prop where
  equation : ∀ ck ∈ info.equationClocks[i]?, ck = .base
  sites : ∀ path, ∀ ck ∈ info.siteClocks.lookup ⟨node, i, path⟩, ck = .base

section

variable (m : Machine) (p : Project)

namespace Cycle

variable (c : Cycle)

def frame (env : Env) : Frame := ⟨env, c.sim.state, c.sim.clockInfo.siteClocks⟩

/-- The environments that the cycle goes through. -/
def Passes (env : Env) : Prop :=
  ∃ before after env₀ calls, c.sim.eqOrder = before ++ after ∧ c.sim.seed m p c.inputs = .ok env₀ ∧
    equationSteps m p (callees m p m.stack) c.sim.node c.sim.clockInfo c.sim.state before env₀
      c.sim.callStates = (.ok env, calls)

/-- On the base clock, with this cycle's values of all that `e` reads now, `e` has
the value `v`. -/
def Evaluates (e : Expr) (v : Value) : Prop :=
  ∃ env site calls calls', c.Passes m p env ∧ OnBase c.sim.clockInfo site.node site.eq ∧
    (∀ x ∈ sameCycleReads e, env x = c.env x) ∧
    eval m p (callees m p m.stack) (c.frame env) site e calls = (.ok v, calls')

/-- A variable holds `v` as an assignment converts it. -/
def Stores (x : String) (v : Value) : Prop :=
  ∃ w, c.env x = some w ∧
    match declaredType c.sim.node x with
    | some t => fitTo p m.stack t v = .ok w
    | none => w = v

end Cycle

end

/-- `w` is `v` as a conditional passes it on, in the C type of its branches. -/
def Widened (v w : Value) : Prop := w = v ∨ ∃ x : F32, v = .float32 x ∧ w = .float (x.convert _)

section

variable {m : Machine} {p : Project}

theorem Widened.refl (v : Value) : Widened v v := .inl rfl

theorem widened_commonReal (env : Env) (v : Value) (other : Expr) :
    Widened v (commonReal p env v other) := by
  unfold commonReal
  split
  · split
    · exact .inr ⟨_, rfl, rfl⟩
    · exact .inl rfl
  · exact .inl rfl

theorem Widened.trans {u v w : Value} (h : Widened u v) (h' : Widened v w) : Widened u w := by
  rcases h with rfl | ⟨x, rfl, rfl⟩
  · exact h'
  · rcases h' with rfl | ⟨y, hy, -⟩
    · exact .inr ⟨x, rfl, rfl⟩
    · cases hy

@[simp] theorem widened_bool {v : Value} {b : Bool} : Widened v (.bool b) ↔ v = .bool b := by
  simp [Widened, eq_comm]

@[simp] theorem widened_enum {v : Value} {s : String} : Widened v (.enum s) ↔ v = .enum s := by
  simp [Widened, eq_comm]

@[simp] theorem bool_widened {w : Value} {b : Bool} : Widened (.bool b) w ↔ w = .bool b := by
  simp [Widened]

@[simp] theorem enum_widened {w : Value} {s : String} : Widened (.enum s) w ↔ w = .enum s := by
  simp [Widened]

theorem fitTo_bool {fuel : Nat} {ty : Ty} {b : Bool} {w : Value}
    (h : fitTo p fuel ty (.bool b) = .ok w) : w = .bool b := by
  induction fuel generalizing ty with
  | zero => cases h
  | succ fuel ih =>
    cases ty with
    | named name =>
      simp only [fitTo] at h
      split at h
      · contradiction
      · exact ih h
      · cases h
        rfl
    | _ =>
      cases h
      rfl

theorem fitTo_enum {fuel : Nat} {ty : Ty} {s : String} {w : Value}
    (h : fitTo p fuel ty (.enum s) = .ok w) : w = .enum s := by
  induction fuel generalizing ty with
  | zero => cases h
  | succ fuel ih =>
    cases ty with
    | named name =>
      simp only [fitTo] at h
      split at h
      · contradiction
      · exact ih h
      · cases h
        rfl
    | _ =>
      cases h
      rfl

end

namespace Cycle

variable {m : Machine} {p : Project} {c : Cycle} {e a b : Expr} {x : String} {v : Value}

theorem Stores.bool {v : Bool} (h : c.Stores m p x (.bool v)) : c.env x = some (.bool v) := by
  obtain ⟨w, hw, h⟩ := h
  split at h
  · rw [hw, fitTo_bool h]
  · rw [hw, h]

theorem Stores.enum {s : String} (h : c.Stores m p x (.enum s)) : c.env x = some (.enum s) := by
  obtain ⟨w, hw, h⟩ := h
  split at h
  · rw [hw, fitTo_enum h]
  · rw [hw, h]

theorem Evaluates.const {lit : Literal} (h : c.Evaluates m p (.const lit) v) : v = literal lit := by
  obtain ⟨env, site, calls, calls', -, -, -, h⟩ := h
  cases h
  rfl

theorem Evaluates.var (h : c.Evaluates m p (.var x) v) :
    c.env x = some v ∨ c.env x = none ∧ v = .enum x := by
  obtain ⟨env, site, calls, calls', -, -, hreads, h⟩ := h
  have hx : env x = c.env x := hreads x (by simp [sameCycleReads])
  simp only [eval, Stateful.lift_eq_ok, variableValue, frame, hx] at h
  replace h := h.1
  cases henv : c.env x with
  | some w =>
    simp only [henv] at h
    cases h
    exact .inl rfl
  | none =>
    simp only [henv] at h
    refine .inr ⟨rfl, ?_⟩
    unfold enumVariantValue at h
    split at h
    · next hvariant =>
      split at hvariant <;> simp_all
    · cases h

theorem Evaluates.not (h : c.Evaluates m p (.unary .not e) v) :
    ∃ b, c.Evaluates m p e (.bool b) ∧ v = .bool !b := by
  obtain ⟨env, site, calls, calls', hpass, hbase, hreads, h⟩ := h
  obtain ⟨w, calls₁, hw, h⟩ := Stateful.bind_eq_ok.mp h
  have hv := (Stateful.lift_eq_ok.mp h).1
  cases w with
  | bool b =>
    cases hv
    exact ⟨b, ⟨env, site.child 0, calls, calls₁, hpass, hbase, hreads, hw⟩, rfl⟩
  | _ => cases hv

theorem Evaluates.binary {op : BinOp} (h : c.Evaluates m p (.binary op a b) v) :
    ∃ l r, c.Evaluates m p a l ∧ c.Evaluates m p b r ∧ evalBinary m op l r = .ok v := by
  obtain ⟨env, site, calls, calls', hpass, hbase, hreads, h⟩ := h
  obtain ⟨l, calls₁, hl, h⟩ := Stateful.bind_eq_ok.mp h
  obtain ⟨r, calls₂, hr, h⟩ := Stateful.bind_eq_ok.mp h
  have hv := (Stateful.lift_eq_ok.mp h).1
  refine ⟨l, r, ⟨env, site.child 0, calls, calls₁, hpass, hbase, ?_, hl⟩,
    ⟨env, site.child 1, calls₁, calls₂, hpass, hbase, ?_, hr⟩, hv⟩
  · exact fun y hy => hreads y (List.mem_append_left _ hy)
  · exact fun y hy => hreads y (List.mem_append_right _ hy)

theorem Evaluates.and (h : c.Evaluates m p (.binary .and a b) v) :
    ∃ l r, c.Evaluates m p a (.bool l) ∧ c.Evaluates m p b (.bool r) ∧ v = .bool (l && r) := by
  obtain ⟨l, r, hl, hr, hv⟩ := h.binary
  have hbools : ∃ l' r', l = .bool l' ∧ r = .bool r' := by
    cases l <;> cases r <;> first | exact ⟨_, _, rfl, rfl⟩ | cases hv
  obtain ⟨l', r', rfl, rfl⟩ := hbools
  cases hv
  exact ⟨l', r', hl, hr, rfl⟩

theorem Evaluates.ite {cond : Expr} (h : c.Evaluates m p (.ifThenElse cond a b) v) :
    ∃ taken w, c.Evaluates m p cond (.bool taken) ∧
      c.Evaluates m p (if taken then a else b) w ∧ Widened w v := by
  obtain ⟨env, site, calls, calls', hpass, hbase, hreads, h⟩ := h
  obtain ⟨cv, calls₁, hc, h⟩ := Stateful.bind_eq_ok.mp h
  obtain ⟨taken, calls₂, htaken, h⟩ := Stateful.bind_eq_ok.mp h
  obtain ⟨htaken, rfl⟩ := Stateful.lift_eq_ok.mp htaken
  have hcond : c.Evaluates m p cond (.bool taken) := by
    refine ⟨env, site.child 0, calls, calls₁, hpass, hbase, ?_, ?_⟩
    · exact fun y hy => hreads y (List.mem_append_left _ hy)
    · cases cv <;> cases htaken
      exact hc
  refine ⟨taken, ?_⟩
  cases taken with
  | true =>
    obtain ⟨w, calls₂, hw, h⟩ := Stateful.bind_eq_ok.mp h
    obtain ⟨-, calls₃, -, h⟩ := Stateful.bind_eq_ok.mp h
    cases h
    refine ⟨w, hcond, ⟨env, site.child 1, calls₁, calls₂, hpass, hbase, ?_, hw⟩,
      widened_commonReal _ _ _⟩
    exact fun y hy => hreads y (List.mem_append_right _ (List.mem_append_left _ hy))
  | false =>
    obtain ⟨w, calls₂, hw, h⟩ := Stateful.bind_eq_ok.mp h
    obtain ⟨-, calls₃, -, h⟩ := Stateful.bind_eq_ok.mp h
    cases h
    refine ⟨w, hcond, ⟨env, site.child 2, calls₁, calls₂, hpass, hbase, ?_, hw⟩,
      widened_commonReal _ _ _⟩
    exact fun y hy => hreads y (List.mem_append_right _ (List.mem_append_right _ hy))

theorem firstTick_of_onBase {env : Env} {site : Site}
    (h : OnBase c.sim.clockInfo site.node site.eq) :
    firstTick (c.frame env) site = decide (c.sim.state.cycle = 0) := by
  unfold firstTick
  have hsite := h.sites site.path
  split
  · rfl
  · rfl
  · next ck hne hlookup =>
    exact absurd (hsite ck hlookup) hne

theorem Evaluates.arrow (h : c.Evaluates m p (.arrow a b) v) :
    ∃ w, c.Evaluates m p (if c.sim.state.cycle = 0 then a else b) w ∧ Widened w v := by
  obtain ⟨env, site, calls, calls', hpass, hbase, hreads, h⟩ := h
  simp only [eval, firstTick_of_onBase hbase, decide_eq_true_eq] at h
  split at h
  · next hfirst =>
    obtain ⟨w, calls₁, hw, h⟩ := Stateful.bind_eq_ok.mp h
    obtain ⟨-, calls₂, -, h⟩ := Stateful.bind_eq_ok.mp h
    cases h
    rw [if_pos hfirst]
    refine ⟨w, ⟨env, site.child 0, calls, calls₁, hpass, hbase, ?_, hw⟩, widened_commonReal _ _ _⟩
    exact fun y hy => hreads y (List.mem_append_left _ hy)
  · next hfirst =>
    obtain ⟨w, calls₁, hw, h⟩ := Stateful.bind_eq_ok.mp h
    obtain ⟨-, calls₂, -, h⟩ := Stateful.bind_eq_ok.mp h
    cases h
    rw [if_neg hfirst]
    refine ⟨w, ⟨env, site.child 1, calls, calls₁, hpass, hbase, ?_, hw⟩, widened_commonReal _ _ _⟩
    exact fun y hy => hreads y (List.mem_append_right _ hy)

theorem Evaluates.pre (h : c.Evaluates m p (.pre (.var x)) v) : c.sim.state.prev x = some v := by
  obtain ⟨env, site, calls, calls', -, -, -, h⟩ := h
  replace h := (Stateful.lift_eq_ok.mp h).1
  unfold preValue at h
  split at h
  · cases h
  · simp only [frame] at h
    split at h
    · next hv =>
      cases h
      exact hv
    · cases h

end Cycle

section Equation

variable {m : Machine} {p : Project} {sim : Sim} {inputs : Env}

theorem Sim.stepEnv_eq_ok {sim' : Sim} {env : Env}
    (h : sim.stepEnv m p inputs = (.ok env, sim')) :
    ∃ env₀ calls ticks, sim.seed m p inputs = .ok env₀ ∧
      equationSteps m p (callees m p m.stack) sim.node sim.clockInfo sim.state sim.eqOrder env₀
        sim.callStates = (.ok env, calls) ∧
      sim' = { sim with
        callStates := calls
        state := sim.state.next env ticks sim.state.childCalls } := by
  unfold Sim.stepEnv at h
  split at h
  · cases h
  · next env₀ hseed =>
    split at h
    · cases h
    · next env' calls hsteps =>
      split at h
      · cases h
      · next ticks _ =>
        cases h
        exact ⟨env₀, calls, ticks, hseed, hsteps, rfl⟩

theorem mem_defines {n : NodeDef} {j : Nat} {x : String} :
    x ∈ n.defines j ↔ ∃ eq, n.equations[j]? = some eq ∧ x ∈ eq.lhs := by
  cases h : n.equations[j]? <;> simp [NodeDef.defines, h]

theorem defBy_of_mem_defines {n : NodeDef} {j : Nat} {x : String} (h : n.SingleAssignment)
    (hx : x ∈ n.defines j) : n.defBy x = some j := by
  obtain ⟨eq, heq, hmem⟩ := mem_defines.mp hx
  exact h.defBy heq hmem

/-- A cycle of a node whose equations run in their evaluation order. -/
structure Cycle.Runs (m : Machine) (p : Project) (c : Cycle) (next : Sim) : Prop where
  step : c.sim.stepEnv m p c.inputs = (.ok c.env, next)
  order : evaluationOrder c.sim.node = .ok c.sim.eqOrder
  single : c.sim.node.SingleAssignment

variable {c : Cycle} {next : Sim}

/-- The equations that run between an equation and the end of the cycle define
nothing that it reads. -/
theorem Cycle.Runs.frame {before after : List Nat} {i : Nat} {eq : Equation} {x : String}
    (h : c.Runs m p next) (horder : c.sim.eqOrder = before ++ i :: after)
    (heq : c.sim.node.equations[i]? = some eq) (hx : x ∈ sameCycleReads eq.rhs) :
    ∀ j ∈ i :: after, x ∉ c.sim.node.defines j := by
  intro j hj hdef
  have hnodup : c.sim.eqOrder.Nodup := (evaluationOrder_placed h.order).1.nodup
  have hdefBy := defBy_of_mem_defines h.single hdef
  have hbefore := before_of_mem_deps h.order (mem_deps.mpr ⟨eq, heq, x, hx, hdefBy⟩)
  rw [horder] at hbefore hnodup
  exact (List.nodup_append.mp hnodup).2.2 j (hbefore.mem_left hnodup) j hj rfl

/-- An equation on the base clock gives its variable the value of its right-hand
side. -/
theorem Cycle.Runs.equation {i : Nat} {x : String} {rhs : Expr} (h : c.Runs m p next)
    (heq : c.sim.node.equations[i]? = some ⟨[x], rhs⟩)
    (hbase : OnBase c.sim.clockInfo c.sim.node.name i) :
    ∃ v, c.Evaluates m p rhs v ∧ c.Stores m p x v := by
  obtain ⟨env₀, calls, ticks, hseed, hsteps, -⟩ := Sim.stepEnv_eq_ok h.step
  obtain ⟨hplaced, hlen⟩ := evaluationOrder_placed h.order
  have hmem : i ∈ c.sim.eqOrder :=
    (hplaced.perm hlen).mem_iff.mpr (List.mem_range.mpr (lt_of_getElem? heq))
  obtain ⟨before, after, horder⟩ := List.append_of_mem hmem
  rw [horder] at hsteps
  obtain ⟨env, calls₁, hbefore, hrest⟩ := equationSteps_append.mp hsteps
  have hreads : ∀ y ∈ sameCycleReads rhs, env y = c.env y := fun y hy =>
    (equationSteps_frame hrest (h.frame horder heq hy)).symm
  obtain ⟨env₁, calls₂, hstep, hafter⟩ := Stateful.bind_eq_ok.mp hrest
  unfold equationStep at hstep
  rw [heq] at hstep
  obtain ⟨active, calls₃, hactive, hstep⟩ := Stateful.bind_eq_ok.mp hstep
  obtain ⟨hactive, rfl⟩ := Stateful.lift_eq_ok.mp hactive
  have hon : active = true := by
    unfold isActive at hactive
    split at hactive
    · next ck hck =>
      rw [hbase.equation ck hck] at hactive
      cases hactive
      rfl
    · cases hactive
      rfl
  rw [hon, if_pos rfl] at hstep
  obtain ⟨v, calls₄, heval, hstep⟩ := Stateful.bind_eq_ok.mp hstep
  have hbind := (Stateful.lift_eq_ok.mp hstep).1
  refine ⟨v, ⟨env, ⟨c.sim.node.name, i, []⟩, calls₁, calls₄, ?_, hbase, hreads, heval⟩, ?_⟩
  · exact ⟨before, i :: after, env₀, calls₁, horder, hseed, hbefore⟩
  · -- no equation after this one defines the variable again
    have hnodup : c.sim.eqOrder.Nodup := hplaced.nodup
    have hkeep : c.env x = env₁ x := by
      refine equationSteps_frame hafter fun j hj hdef => ?_
      have hi := h.single.defBy heq (a := x) (by simp)
      obtain rfl : i = j := by simpa [hi] using defBy_of_mem_defines h.single hdef
      rw [horder] at hnodup
      exact (List.nodup_cons.mp (List.nodup_append.mp hnodup).2.1).1 hj
    simp only [bindLhs, store] at hbind
    unfold Cycle.Stores
    rw [hkeep]
    split at hbind
    · next t ht =>
      obtain ⟨w, hw, rfl⟩ := Except.map_eq_ok.mp hbind
      exact ⟨w, by simp [Env.set], by simpa [ht] using hw⟩
    · next ht =>
      cases hbind
      exact ⟨v, by simp [Env.set], by simp [ht]⟩

/-- What is neither seeded nor defined stays unbound. -/
theorem Cycle.Runs.unbound {x : String} (h : c.Runs m p next)
    (hports : ∀ port ∈ c.sim.node.outputs ++ c.sim.node.locals, port.name ≠ x)
    (hdef : ∀ eq ∈ c.sim.node.equations, x ∉ eq.lhs) (hinputs : c.inputs x = none)
    (hconsts : c.sim.consts x = none) : c.env x = none := by
  obtain ⟨env₀, calls, ticks, hseed, hsteps, -⟩ := Sim.stepEnv_eq_ok h.step
  rw [equationSteps_frame (x := x) hsteps]
  · have hfold : ∀ ports : List Port, (∀ port ∈ ports, port.name ≠ x) → ∀ env env' : Env,
        ports.foldlM (Sim.seedPort m p c.sim.state.prev) env = .ok env' → env' x = env x := by
      intro ports
      induction ports with
      | nil =>
        intro _ env env' hseed
        cases hseed
        rfl
      | cons port ports ih =>
        intro hne env env' hseed
        rw [List.forall_mem_cons] at hne
        rw [List.foldlM_cons] at hseed
        obtain ⟨env₁, hport, hseed⟩ := Except.bind_eq_ok.mp hseed
        rw [ih hne.2 env₁ env' hseed]
        unfold Sim.seedPort at hport
        split at hport
        · cases hport
          rfl
        · split at hport
          · cases hport
            exact Env.set_of_ne hne.1.symm
          · obtain ⟨v, -, rfl⟩ := Except.map_eq_ok.mp hport
            exact Env.set_of_ne hne.1.symm
    rw [hfold _ hports _ _ hseed]
    simp [Env.extend, hinputs, hconsts]
  · intro i _ hmem
    simp only [NodeDef.defines] at hmem
    cases heq : c.sim.node.equations[i]? with
    | none => simp [heq] at hmem
    | some eq =>
      rw [heq] at hmem
      exact hdef eq (List.mem_of_getElem? heq) hmem

end Equation

section Cycles

variable {m : Machine} {p : Project} {sim : Sim} {rows : List Env} {cycles : List Cycle}

/-- What is known of the cycle at position `t` of a run. -/
theorem Sim.cycles_getElem? (h : sim.cycles m p rows = .ok cycles) {t : Nat} {c : Cycle}
    (hc : cycles[t]? = some c) :
    SameNode sim c.sim ∧ rows[t]? = some c.inputs ∧ c.sim.state.cycle = sim.state.cycle + t ∧
      (∃ next, c.sim.stepEnv m p c.inputs = (.ok c.env, next)) ∧
      ∀ c', cycles[t + 1]? = some c' → ∀ x v, c.env x = some v → c'.sim.state.prev x = some v := by
  induction rows generalizing sim cycles t with
  | nil =>
    cases h
    simp at hc
  | cons inputs rows ih =>
    simp only [Sim.cycles] at h
    split at h
    · cases h
    · next env sim' hstep =>
      obtain ⟨rest, hrest, rfl⟩ := Except.map_eq_ok.mp h
      obtain ⟨env₀, calls, ticks, -, -, hnext⟩ := Sim.stepEnv_eq_ok hstep
      have hsame : SameNode sim sim' := by
        have hsame : SameNode sim (Sim.stepEnv m p inputs sim).2 := stepEnv_sameNode inputs
        rwa [hstep] at hsame
      cases t with
      | zero =>
        obtain rfl : (⟨sim, inputs, env⟩ : Cycle) = c := by simpa using hc
        refine ⟨.refl sim, rfl, rfl, ⟨sim', hstep⟩, ?_⟩
        intro c' hc' x v hx
        have hc' : rest[0]? = some c' := hc'
        cases rows with
        | nil =>
          cases hrest
          simp at hc'
        | cons inputs' rows =>
          simp only [Sim.cycles] at hrest
          split at hrest
          · cases hrest
          · next env' sim'' _ =>
            obtain ⟨rest', -, rfl⟩ := Except.map_eq_ok.mp hrest
            obtain rfl : (⟨sim', inputs', env'⟩ : Cycle) = c' := by simpa using hc'
            simp only at hx
            simp [hnext, State.next, Env.extend, hx]
      | succ t =>
        obtain ⟨hs, hr, hcycle, hst, hprev⟩ := ih hrest hc
        refine ⟨hsame.trans hs, hr, ?_, hst, hprev⟩
        rw [hcycle, hnext, State.next]
        simp only
        omega

end Cycles

end OpenLustre.Simulator
