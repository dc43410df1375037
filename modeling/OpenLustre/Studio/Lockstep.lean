import OpenLustre.Lib.Transition
import OpenLustre.Studio.Session

/-! The invariant of a simulation session: the simulator, the session's history and
the C in the loop have seen the same rows. -/

namespace OpenLustre.Studio

open OpenLustre.Ir OpenLustre.Simulator Transition

/-- The rows a session has run: the C driver's input line and the simulator's values
for the C's columns. -/
abbrev Rows := List (String × List String)

/-- What the program has read once it has been given the rows. -/
def Rows.sent (rows : Rows) (n : NodeDef) : List String := Runner.header n :: rows.map (·.1)

/-- The simulator, the history and the C in the loop are where the rows lead. -/
structure Runner.Synced (rows : Rows) (r : Runner) : Prop where
  cycle : r.cycle = rows.length
  steps : r.sim.sim.state.cycle = rows.length
  history : r.history = rows.take historyMax
  full : r.historyFull = true ↔ historyMax < rows.length
  sent : ∀ c ∈ r.c, c.sent = rows.sent r.node

/-- The C in the loop, if there is one. -/
def SimSession.attached (s : SimSession) : Option CLoop := s.runner.bind (·.c)

structure SimSession.Synced (rows : Rows) (s : SimSession) : Prop where
  cycle : ∀ r ∈ s.runner, s.cycle = r.cycle
  runner : ∀ r ∈ s.runner, r.Synced rows
  columns : s.cColumns.isSome = s.attached.isSome

section

variable {ρ : Type} (io : ValueIo ρ) (m : Machine) (p : Project)

/-- A comparison at cycle `k` is between the simulator's values of that cycle and what
the program answers to its inputs. -/
def Compared (n : NodeDef) (c : CLoop) (rows : Rows) (k : Nat)
    (found : List String × List String) : Prop :=
  ∃ line cells answer, rows[k]? = some (line, cells) ∧
    c.process (Rows.sent (rows.take (k + 1)) n) = some answer ∧
    CLoop.compare io c.columns answer cells = .ok found

/-- A planned cycle as the C driver reads it. -/
def Planned.line (n : NodeDef) : Planned → Option String
  | .refused _ _ _ => none
  | .inputs env _ => some (Runner.cInputLine io p n env)

/-- The rows a run adds to those before it are of the inputs it was asked for, in their
order; each cycle it reports has the simulator's values of its row, and a comparison is
with the C's values of the same row. -/
structure Ran (r : Runner) (rows more : Rows) (planned : List Planned) (out : RunOut) : Prop where
  lines : more.map (·.1) <+: planned.filterMap (Planned.line io p r.node)
  cycles : more.length = out.cyclesRun
  observed : ∀ k obs found accepted, .stepped k obs found accepted ∈ out.rows →
    (∃ line, (rows ++ more)[k]? = some (line, Runner.comparedCells io r.node obs)) ∧
      ∀ f ∈ found, ∃ c ∈ r.c, Compared io r.node c (rows ++ more) k f

/-- What a command adds to the rows before it, and what its reply says of them. -/
def Reports (before after : SimSession) (rows more : Rows) : Cmd → Reply → Prop
  | .run req, .ran _ out => ∃ r ∈ before.runner, ∃ brk planned,
    r.prepare io m req = .ok (brk, planned) ∧ Ran io p r rows more planned out
  | .attachC _, .attached out => more = [] ∧ ∀ row ∈ out.rows,
    ∃ r ∈ after.runner, ∃ c ∈ r.c, Compared io r.node c rows row.cycle row.found
  | _, _ => more = []

/-- Where the node steps, its observation goes through. -/
def Observes (sim : MonitoredSim) (env : Env) : Prop :=
  (Sim.stepEnv m p env sim.sim).1.isOk → (MonitoredSim.stepObserved m p env sim).1.isOk

namespace Runner

/-- The states in which a run takes its steps, with their inputs. -/
def attempts (req : RunReq) (brk : Option Sim) :
    Runner → RunOut → List Planned → List (MonitoredSim × Env)
  | _, _, [] => []
  | r, out, planned :: rest =>
    let here := match planned with
      | .refused _ _ _ => []
      | .inputs env _ => [(r.sim, env)]
    match cycleStep io m p req brk r out planned with
    | .ok (r, out, true) => here ++ attempts req brk r out rest
    | _ => here

/-- The program starts, names the expected columns and answers every row of the
history with a cell for each. -/
def Replays (r : Runner) (exe : Option Process) : Prop :=
  ∃ process ∈ exe,
    (∃ got, process [header r.node] = some got ∧
      lineCells got = "cycle" :: (columns p r).map (·.1)) ∧
    ∀ k < r.history.length, ∃ got, process (Rows.sent (r.history.take (k + 1)) r.node) = some got ∧
      (lineCells got).length = (columns p r).length + 1

end Runner

/-- A run every step of which is observed, and that does not end the thread of a
session with the C in the loop; an attach that succeeds when it replaces one. -/
def Cmd.Safe (s : SimSession) : Cmd → Prop
  | .run req => ∀ r ∈ s.runner, ∀ brk planned, r.prepare io m req = .ok (brk, planned) →
    (∀ a ∈ Runner.attempts io m p req brk r {} planned, Observes m p a.1 a.2) ∧
      (s.cColumns.isSome → (Runner.runCycles io m p req brk r {} planned).isOk)
  | .attachC exe => ∀ r ∈ s.runner, s.cColumns.isSome → r.historyFull = false → r.Replays p exe
  | .detachC => True

end

section

variable {ρ : Type} {io : ValueIo ρ} {m : Machine} {p : Project}

theorem stepEnv_cycle (env : Env) (sim : Sim) :
    (Sim.stepEnv m p env sim).2.state.cycle =
      if (Sim.stepEnv m p env sim).1.isOk then sim.state.cycle + 1 else sim.state.cycle := by
  unfold Sim.stepEnv
  cases sim.seed m p env with
  | error => rfl
  | ok env =>
    obtain ⟨r, calls, hsteps⟩ : ∃ r calls, equationSteps m p (callees m p m.stack) sim.node
        sim.clockInfo sim.state sim.eqOrder env sim.callStates = (r, calls) := ⟨_, _, rfl⟩
    simp only [hsteps]
    rcases r with _ | env'
    · rfl
    · obtain ⟨r, ticks, hticks⟩ : ∃ r ticks,
          tickChains env' sim.clockInfo.chains sim.state.clockTicks = (r, ticks) := ⟨_, _, rfl⟩
      simp only [hticks]
      rcases r with _ | _ <;> rfl

theorem Sim.new_cycle {name : String} {sim : Sim} (h : Sim.new m p name = .ok sim) :
    sim.state.cycle = 0 := by
  unfold Sim.new at h
  cases hnode : p.findNode name with
  | none =>
    rw [hnode] at h
    cases h
  | some node =>
    rw [hnode] at h
    obtain ⟨consts, -, h⟩ := Except.bind_eq_ok.mp h
    obtain ⟨order, -, h⟩ := Except.bind_eq_ok.mp h
    cases h
    rfl

theorem stepEnv_isOk_of_observed {env : Env} {sim : MonitoredSim}
    (h : (MonitoredSim.stepObserved m p env sim).1.isOk) :
    (Sim.stepEnv m p env sim.sim).1.isOk := by
  obtain ⟨r, sim', hstep⟩ : ∃ r sim', Sim.stepEnv m p env sim.sim = (r, sim') := ⟨_, _, rfl⟩
  rw [hstep]
  cases r with
  | ok env' => rfl
  | error e =>
    simp only [MonitoredSim.stepObserved, hstep] at h
    exact h

/-- What a step does to the count of cycles, where its observation goes through. -/
theorem stepObserved_cycle {env : Env} {sim : MonitoredSim} (h : Observes m p sim env) :
    (MonitoredSim.stepObserved m p env sim).2.sim.state.cycle =
      if (MonitoredSim.stepObserved m p env sim).1.isOk then sim.sim.state.cycle + 1
      else sim.sim.state.cycle := by
  rw [MonitoredSim.stepObserved_sim, stepEnv_cycle]
  have hiff : (Sim.stepEnv m p env sim.sim).1.isOk =
      (MonitoredSim.stepObserved m p env sim).1.isOk :=
    Bool.eq_iff_iff.mpr ⟨h, stepEnv_isOk_of_observed⟩
  rw [hiff]

theorem stepObserved_node (env : Env) (sim : MonitoredSim) :
    (MonitoredSim.stepObserved m p env sim).2.sim.node = sim.sim.node := by
  rw [MonitoredSim.stepObserved_sim]
  exact (Sim.stepEnv_sameNode env).node

theorem Rows.sent_append (rows : Rows) (row : String × List String) (n : NodeDef) :
    Rows.sent (rows ++ [row]) n = rows.sent n ++ [row.1] := by
  simp [Rows.sent]

theorem Compared.mono {n : NodeDef} {c : CLoop} {rows : Rows} {k : Nat}
    {found : List String × List String} (h : Compared io n c rows k found) (more : Rows) :
    Compared io n c (rows ++ more) k found := by
  obtain ⟨line, cells, answer, hrow, hanswer, hfound⟩ := h
  have hk : k < rows.length := (List.getElem?_eq_some_iff.mp hrow).1
  refine ⟨line, cells, answer, ?_, ?_, hfound⟩
  · rw [List.getElem?_append_left hk, hrow]
  · rw [List.take_append_of_le_length hk, hanswer]

theorem Compared.congr {n : NodeDef} {c c' : CLoop} {rows : Rows} {k : Nat}
    {found : List String × List String} (h : Compared io n c rows k found)
    (hprocess : c.process = c'.process) (hcolumns : c.columns = c'.columns) :
    Compared io n c' rows k found := by
  unfold Compared at *
  rwa [← hprocess, ← hcolumns]

theorem CLoop.step_eq_ok {c c' : CLoop} {line : String} {cells : List String}
    {found : List String × List String} :
    c.step io line cells = .ok (found, c') ↔ ∃ answer, c.process (c.sent ++ [line]) = some answer ∧
      CLoop.compare io c.columns answer cells = .ok found ∧
      c' = { c with sent := c.sent ++ [line] } := by
  unfold CLoop.step CLoop.exchange
  cases hprocess : c.process (c.sent ++ [line]) with
  | none => simp [hprocess, bind, Except.bind]
  | some answer =>
    simp only [hprocess, bind, Except.bind, Option.some.injEq, exists_eq_left']
    cases CLoop.compare io c.columns answer cells with
    | error e => simp
    | ok found' => simp [pure, Except.pure, eq_comm]

/-- A comparison made where the rows so far have led is one of the next row. -/
theorem CLoop.step_compared {rows : Rows} {n : NodeDef} {c c' : CLoop} {line : String}
    {cells : List String} {found : List String × List String} (hsent : c.sent = rows.sent n)
    (h : c.step io line cells = .ok (found, c')) :
    c'.sent = Rows.sent (rows ++ [(line, cells)]) n ∧ c'.process = c.process ∧
      c'.columns = c.columns ∧ Compared io n c (rows ++ [(line, cells)]) rows.length found := by
  obtain ⟨answer, hanswer, hfound, rfl⟩ := CLoop.step_eq_ok.mp h
  refine ⟨?_, rfl, rfl, line, cells, answer, by simp, ?_, hfound⟩
  · rw [Rows.sent_append, hsent]
  · rw [List.take_of_length_le (by simp), Rows.sent_append, ← hsent]
    exact hanswer

namespace Runner

/-- What one more row makes of a runner that the rows so far have led to. -/
theorem record_synced {rows : Rows} {r : Runner} (h : r.Synced rows) {sim : MonitoredSim}
    (hsteps : sim.sim.state.cycle = r.sim.sim.state.cycle + 1) (hnode : sim.sim.node = r.node)
    {c : Option CLoop} (row : String × List String)
    (hc : ∀ x ∈ c, x.sent = Rows.sent (rows ++ [row]) r.node) :
    Synced (rows ++ [row])
      { record { r with sim := sim, c := c } row with cycle := r.cycle + 1 } := by
  have hlen : r.history.length = min historyMax rows.length := by rw [h.history, List.length_take]
  unfold record
  split
  case isTrue hroom =>
    replace hroom : r.history.length < historyMax := hroom
    constructor
    case cycle => simp [h.cycle]
    case steps => simp [hsteps, h.steps]
    case history =>
      rw [h.history, List.take_of_length_le (by omega), List.take_of_length_le]
      simp only [List.length_append, List.length_singleton]
      omega
    case full =>
      simp only [List.length_append, List.length_singleton]
      exact h.full.trans (by omega)
    case sent => rwa [Runner.node, hnode]
  case isFalse hroom =>
    replace hroom : ¬ r.history.length < historyMax := hroom
    constructor
    case cycle => simp [h.cycle]
    case steps => simp [hsteps, h.steps]
    case history => rw [List.take_append_of_le_length (by omega), h.history]
    case full =>
      simp only [List.length_append, List.length_singleton]
      exact iff_of_true trivial (by omega)
    case sent => rwa [Runner.node, hnode]

/-- A run so far, from the runner `r₀` on: where its rows have led, and what it has
reported of them. -/
structure Going (io : ValueIo ρ) (r₀ : Runner) (rows : Rows) (r : Runner) (out : RunOut) :
    Prop where
  synced : r.Synced rows
  node : r.node = r₀.node
  cycles : r.cycle = r₀.cycle + out.cyclesRun
  loop : ∀ c ∈ r.c, ∃ c₀ ∈ r₀.c, c.process = c₀.process ∧ c.columns = c₀.columns
  lost : r.c.isSome = (r₀.c.isSome && out.cError.isNone)
  observed : ∀ k obs found accepted, .stepped k obs found accepted ∈ out.rows →
    (∃ line, rows[k]? = some (line, comparedCells io r₀.node obs)) ∧
      ∀ f ∈ found, ∃ c₀ ∈ r₀.c, Compared io r₀.node c₀ rows k f

theorem compareC_going {r₀ r : Runner} {rows : Rows} {out : RunOut} (h : Going io r₀ rows r out)
    (line : String) (cells : List String) :
    (∀ c ∈ (compareC io r line cells).2.1, c.sent = Rows.sent (rows ++ [(line, cells)]) r.node ∧
      ∃ c₀ ∈ r₀.c, c.process = c₀.process ∧ c.columns = c₀.columns) ∧
    (compareC io r line cells).2.1.isSome = (r.c.isSome && (compareC io r line cells).2.2.isNone) ∧
    ∀ found ∈ (compareC io r line cells).1, ∃ c₀ ∈ r₀.c,
      Compared io r₀.node c₀ (rows ++ [(line, cells)]) r.cycle found := by
  unfold compareC
  cases hc : r.c with
  | none => simp
  | some c =>
    obtain ⟨c₀, hc₀, hprocess, hcolumns⟩ := h.loop c hc
    cases hstep : c.step io line cells with
    | error e => simp [hstep]
    | ok result =>
      obtain ⟨found, c'⟩ := result
      obtain ⟨hsent, hprocess', hcolumns', hcompared⟩ :=
        CLoop.step_compared (h.synced.sent c hc) hstep
      simp only [hstep, Option.mem_def, Option.some.injEq, forall_eq', Option.isSome_some,
        Option.isNone_none, Bool.and_self, true_and]
      refine ⟨⟨hsent, c₀, hc₀, hprocess'.trans hprocess, hcolumns'.trans hcolumns⟩, c₀, hc₀, ?_⟩
      rw [h.synced.cycle, ← h.node]
      exact hcompared.congr hprocess hcolumns

theorem advance_going {r₀ r : Runner} {rows : Rows} {out : RunOut} {env : Env}
    {accepted : Option (String × String)} {obs : Observed} {sim : MonitoredSim}
    (h : Going io r₀ rows r out) (hsteps : sim.sim.state.cycle = r.sim.sim.state.cycle + 1)
    (hnode : sim.sim.node = r.node) :
    Going io r₀ (rows ++ [(cInputLine io p r₀.node env, comparedCells io r₀.node obs)])
      (advance io p r out env accepted obs sim).1 (advance io p r out env accepted obs sim).2.1 := by
  rw [← h.node]
  obtain ⟨hc, hlost, hfound⟩ :=
    compareC_going h (cInputLine io p r.node env) (comparedCells io r.node obs)
  constructor
  case synced => exact record_synced h.synced hsteps hnode _ fun c hmem => (hc c hmem).1
  case node =>
    rw [← h.node, ← hnode]
    exact congrArg (·.sim.node) (record_sim _ _)
  case cycles =>
    change r.cycle + 1 = r₀.cycle + (out.cyclesRun + 1)
    rw [h.cycles]
    omega
  case loop =>
    intro c hmem
    exact (hc c ((record_c _ _).symm.trans hmem)).2
  case lost =>
    simp only [advance, record_c, Option.isNone_or]
    rw [hlost, h.lost, Bool.and_assoc]
  case observed =>
    intro k obs' found accepted' hmem
    rcases List.mem_append.mp hmem with hmem | hmem
    · obtain ⟨⟨line, hrow⟩, hcompared⟩ := h.observed k obs' found accepted' hmem
      refine ⟨⟨line, ?_⟩, fun f hf => ?_⟩
      · rwa [List.getElem?_append_left (List.getElem?_eq_some_iff.mp hrow).1]
      · obtain ⟨c₀, hc₀, hf⟩ := hcompared f hf
        exact ⟨c₀, hc₀, hf.mono _⟩
    · obtain ⟨rfl, rfl, rfl, -⟩ := Row.stepped.inj (List.mem_singleton.mp hmem)
      refine ⟨⟨cInputLine io p r.node env, ?_⟩, hfound⟩
      rw [h.synced.cycle, ← h.node]
      simp

theorem cycleStep_going {req : RunReq} {brk : Option Sim} {r₀ r r' : Runner} {rows : Rows}
    {out out' : RunOut} {planned : Planned} {goesOn : Bool} (h : Going io r₀ rows r out)
    (hobserves : ∀ env accepted, planned = .inputs env accepted → Observes m p r.sim env)
    (hstep : cycleStep io m p req brk r out planned = .ok (r', out', goesOn)) :
    ∃ more, Going io r₀ (rows ++ more) r' out' ∧
      more.map (·.1) <+: (Planned.line io p r₀.node planned).toList ∧
      (goesOn → more.map (·.1) = (Planned.line io p r₀.node planned).toList) := by
  cases planned with
  | refused name text message =>
    cases hstep
    refine ⟨[], ?_, List.prefix_rfl, fun _ => rfl⟩
    rw [List.append_nil]
    exact { h with
      observed := fun k obs found accepted hmem =>
        h.observed k obs found accepted (by simpa using hmem) }
  | inputs env accepted =>
    have hcycle := stepObserved_cycle (hobserves env accepted rfl)
    have hnode := stepObserved_node (m := m) (p := p) env r.sim
    obtain ⟨res, sim, hobs⟩ : ∃ res sim, MonitoredSim.stepObserved m p env r.sim = (res, sim) :=
      ⟨_, _, rfl⟩
    rw [hobs] at hcycle hnode
    simp only [cycleStep, hobs] at hstep
    rcases res with (e | e) | obs
    · -- a failed step leaves the rows as they were
      cases hstep
      refine ⟨[], ?_, List.nil_prefix, fun h => by cases h⟩
      rw [List.append_nil]
      exact { h with
        synced := { h.synced with
          steps := hcycle.trans h.synced.steps
          sent := fun c hc => (h.synced.sent c hc).trans (congrArg _ hnode.symm) }
        node := hnode.trans h.node }
    · cases hstep
    · have hgoing : Going io r₀ (rows ++ [(cInputLine io p r₀.node env, comparedCells io r₀.node obs)])
          (advance io p r out env accepted obs sim).1
          (advance io p r out env accepted obs sim).2.1 := advance_going h hcycle hnode
      refine ⟨[(cInputLine io p r₀.node env, comparedCells io r₀.node obs)], ?_, List.prefix_rfl,
        fun _ => rfl⟩
      dsimp only at hstep
      split at hstep
      · cases hstep
      · cases hstep
        exact { hgoing with }
      · cases hstep
        exact hgoing

theorem runCycles_going {req : RunReq} {brk : Option Sim} {r₀ r r' : Runner} {rows : Rows}
    {out out' : RunOut} {planned : List Planned} (h : Going io r₀ rows r out)
    (hobserves : ∀ a ∈ attempts io m p req brk r out planned, Observes m p a.1 a.2)
    (hrun : runCycles io m p req brk r out planned = .ok (r', out')) :
    ∃ more, Going io r₀ (rows ++ more) r' out' ∧
      more.map (·.1) <+: planned.filterMap (Planned.line io p r₀.node) := by
  induction planned generalizing r out rows with
  | nil =>
    cases hrun
    exact ⟨[], by rwa [List.append_nil], List.nil_prefix⟩
  | cons next rest ih =>
    obtain ⟨⟨r₁, out₁, goesOn⟩, hstep, hrest⟩ := Except.bind_eq_ok.mp hrun
    have hfirst : ∀ env accepted, next = .inputs env accepted → Observes m p r.sim env := by
      rintro env accepted rfl
      apply hobserves (r.sim, env)
      simp only [attempts, hstep]
      cases goesOn <;> simp
    obtain ⟨more₁, h₁, hlines, hall⟩ := cycleStep_going h hfirst hstep
    have hcons : (next :: rest).filterMap (Planned.line io p r₀.node) =
        (Planned.line io p r₀.node next).toList ++ rest.filterMap (Planned.line io p r₀.node) := by
      rw [List.filterMap_cons]
      cases Planned.line io p r₀.node next <;> rfl
    rw [hcons]
    cases goesOn with
    | false =>
      cases hrest
      exact ⟨more₁, h₁, hlines.trans (List.prefix_append _ _)⟩
    | true =>
      have hobserves₁ : ∀ a ∈ attempts io m p req brk r₁ out₁ rest, Observes m p a.1 a.2 := by
        intro a ha
        apply hobserves a
        simp only [attempts, hstep]
        exact List.mem_append_right _ ha
      obtain ⟨more₂, h₂, hlines₂⟩ := ih h₁ hobserves₁ hrest
      refine ⟨more₁ ++ more₂, ?_, ?_⟩
      · rwa [← List.append_assoc]
      · rw [List.map_append, hall rfl]
        exact (List.prefix_append_right_inj _).mpr hlines₂

/-- A run from a runner in step is one from where it is. -/
theorem Synced.going {rows : Rows} {r : Runner} (h : r.Synced rows) : Going io r rows r {} where
  synced := h
  node := rfl
  cycles := rfl
  loop c hc := ⟨c, hc, rfl, rfl⟩
  lost := by simp
  observed := by simp

theorem replay_synced {rows done : Rows} {n : NodeDef} {rest : Rows} {c c' : CLoop}
    {replayed : List ReplayRow} (hrows : rows = done ++ rest) (hsent : c.sent = done.sent n)
    (h : replay io c done.length rest = .ok (replayed, c')) :
    c'.sent = rows.sent n ∧ c'.process = c.process ∧ c'.columns = c.columns ∧
      ∀ row ∈ replayed, Compared io n c rows row.cycle row.found := by
  induction rest generalizing done c replayed with
  | nil =>
    cases h
    simp [hrows, hsent]
  | cons entry rest ih =>
    obtain ⟨line, cells⟩ := entry
    obtain ⟨⟨found, c₁⟩, hstep, h⟩ := Except.bind_eq_ok.mp h
    obtain ⟨⟨replayed', c₂⟩, hreplay, h⟩ := Except.bind_eq_ok.mp h
    cases h
    obtain ⟨hsent₁, hprocess₁, hcolumns₁, hcompared⟩ :=
      CLoop.step_compared hsent (Except.mapError_eq_ok.mp hstep)
    have hrows' : rows = (done ++ [(line, cells)]) ++ rest := by simp [hrows]
    obtain ⟨hsent', hprocess', hcolumns', hrest⟩ := ih hrows' hsent₁ (by simpa using hreplay)
    refine ⟨hsent', hprocess'.trans hprocess₁, hcolumns'.trans hcolumns₁, ?_⟩
    intro row hmem
    rcases List.mem_cons.mp hmem with rfl | hmem
    · rw [hrows']
      exact hcompared.mono rest
    · exact (hrest row hmem).congr hprocess₁ hcolumns₁

theorem spawn_eq_ok {exe : Option Process} {header : String} {columns : List (String × Cmp)}
    {c : CLoop} :
    CLoop.spawn exe header columns = .ok c ↔ ∃ process ∈ exe, c = ⟨process, [header], columns⟩ ∧
      ∃ got, process [header] = some got ∧ lineCells got = "cycle" :: columns.map (·.1) := by
  cases exe with
  | none => simp [CLoop.spawn, bind, Except.bind]
  | some process =>
    cases hanswer : process [header] with
    | none => simp [CLoop.spawn, CLoop.exchange, bind, Except.bind, pure, Except.pure, hanswer]
    | some got =>
      by_cases hwant : lineCells got = "cycle" :: columns.map (·.1)
      · simp [CLoop.spawn, CLoop.exchange, bind, Except.bind, pure, Except.pure, hanswer, hwant,
          eq_comm]
      · simp [CLoop.spawn, CLoop.exchange, bind, Except.bind, pure, Except.pure, hanswer, hwant]

variable (io p) in
/-- What an attach does that reaches the replay. -/
theorem attach_eq {r : Runner} (exe : Option Process) (hfull : r.historyFull = false) :
    ∃ shown : Nat, r.attach io p exe =
      match startReplay io p r exe with
      | .error e => (.error e, { r with c := none })
      | .ok (rows, c) =>
        (.ok ⟨c.columns.map (·.1), rows.drop shown,
          (rows.find? fun row => !row.found.2.isEmpty).map (·.cycle)⟩, { r with c := some c }) := by
  refine ⟨r.history.length - attachRowsMax, ?_⟩
  unfold attach
  rw [hfull]
  rfl

theorem startReplay_synced {rows : Rows} {r : Runner} (h : r.Synced rows)
    (hfull : r.historyFull = false) {exe : Option Process} {replayed : List ReplayRow} {c : CLoop}
    (hreplayed : startReplay io p r exe = .ok (replayed, c)) :
    c.sent = rows.sent r.node ∧
      ∀ row ∈ replayed, Compared io r.node c rows row.cycle row.found := by
  have hrows : r.history = rows := by
    rw [h.history, List.take_of_length_le]
    exact Nat.le_of_not_lt (mt h.full.mpr (by simp [hfull]))
  obtain ⟨c₀, hspawn, hreplay⟩ := Except.bind_eq_ok.mp hreplayed
  obtain ⟨process, -, rfl, -⟩ := spawn_eq_ok.mp hspawn
  obtain ⟨hsent, hprocess, hcolumns, hcompared⟩ :=
    replay_synced (show rows = [] ++ r.history from hrows.symm)
      (show _ = Rows.sent [] r.node from rfl) hreplay
  exact ⟨hsent, fun row hrow => (hcompared row hrow).congr hprocess.symm hcolumns.symm⟩

variable (io p) in
theorem attach_synced {rows : Rows} {r : Runner} (h : r.Synced rows) (exe : Option Process) :
    (r.attach io p exe).2.Synced rows ∧ (r.attach io p exe).2.cycle = r.cycle ∧
      ∀ out, (r.attach io p exe).1 = .ok out → (r.attach io p exe).2.c.isSome ∧
        ∀ row ∈ out.rows, ∃ c ∈ (r.attach io p exe).2.c,
          Compared io (r.attach io p exe).2.node c rows row.cycle row.found := by
  cases hfull : r.historyFull with
  | true =>
    have hattach : r.attach io p exe = (.error .historyFull, r) := by
      unfold attach
      rw [hfull]
      rfl
    rw [hattach]
    exact ⟨h, rfl, fun _ hout => by cases hout⟩
  | false =>
    obtain ⟨shown, hattach⟩ := attach_eq io p exe hfull
    rw [hattach]
    cases hreplayed : startReplay io p r exe with
    | error e =>
      exact ⟨{ h with sent := fun _ hc => by cases hc }, rfl, fun _ hout => by cases hout⟩
    | ok result =>
      obtain ⟨replayed, c⟩ := result
      obtain ⟨hsent, hcompared⟩ := startReplay_synced h hfull hreplayed
      refine ⟨{ h with sent := ?_ }, rfl, ?_⟩
      · rintro _ ⟨⟩
        exact hsent
      · rintro out ⟨⟩
        exact ⟨rfl, fun row hrow => ⟨c, rfl, hcompared row (List.mem_of_mem_drop hrow)⟩⟩

/-- The runner an attach that fails leaves: without a C in the loop, unless the
history was full. -/
theorem attach_eq_error {r r' : Runner} {exe : Option Process} {e : SessionError}
    (h : r.attach io p exe = (.error e, r')) : r'.c = if r.historyFull then r.c else none := by
  cases hfull : r.historyFull with
  | true =>
    unfold attach at h
    rw [hfull] at h
    cases h
    rfl
  | false =>
    obtain ⟨shown, hattach⟩ := attach_eq io p exe hfull
    rw [hattach] at h
    cases hreplayed : startReplay io p r exe with
    | error e =>
      rw [hreplayed] at h
      cases h
      rfl
    | ok result =>
      rw [hreplayed] at h
      cases h

variable (io) in
/-- A line with a cell for every column can be compared. -/
theorem compare_isOk {columns : List (String × Cmp)} {got : String}
    (h : (lineCells got).length = columns.length + 1) (cells : List String) :
    ∃ found, CLoop.compare io columns got cells = .ok found := by
  unfold CLoop.compare
  rw [if_neg (not_not_intro h)]
  exact ⟨_, rfl⟩

theorem replay_isOk {rest done : Rows} {n : NodeDef} {c : CLoop} (hsent : c.sent = done.sent n)
    (h : ∀ k < rest.length, ∃ got,
      c.process (Rows.sent (done ++ rest.take (k + 1)) n) = some got ∧
        (lineCells got).length = c.columns.length + 1) (k : Nat) :
    (replay io c k rest).isOk := by
  induction rest generalizing done c k with
  | nil => rfl
  | cons entry rest ih =>
    obtain ⟨line, cells⟩ := entry
    obtain ⟨got, hgot, hlen⟩ := h 0 (Nat.succ_pos _)
    obtain ⟨found, hfound⟩ := compare_isOk io hlen cells
    have hstep : c.step io line cells = .ok (found, { c with sent := c.sent ++ [line] }) := by
      apply CLoop.step_eq_ok.mpr
      refine ⟨got, ?_, hfound, rfl⟩
      rw [hsent, ← Rows.sent_append done (line, cells)]
      exact hgot
    have hsent' : c.sent ++ [line] = Rows.sent (done ++ [(line, cells)]) n := by
      rw [Rows.sent_append, hsent]
    have hrest : (replay io { c with sent := c.sent ++ [line] } (k + 1) rest).isOk :=
      ih hsent' (fun j hj => by simpa using h (j + 1) (Nat.succ_lt_succ hj)) (k + 1)
    cases hreplay : replay io { c with sent := c.sent ++ [line] } (k + 1) rest with
    | error e =>
      rw [hreplay] at hrest
      cases hrest
    | ok result =>
      simp only [replay, hstep, Except.mapError, bind, Except.bind, hreplay]
      rfl

/-- An attach that can replay the history succeeds. -/
theorem attach_of_replays {r : Runner} {exe : Option Process} (hfull : r.historyFull = false)
    (h : r.Replays p exe) : (r.attach io p exe).1.isOk := by
  obtain ⟨process, hexe, hheader, hanswers⟩ := h
  have hspawn : CLoop.spawn exe (header r.node) (columns p r) =
      .ok ⟨process, [header r.node], columns p r⟩ := spawn_eq_ok.mpr ⟨process, hexe, rfl, hheader⟩
  have hreplay : (replay io ⟨process, [header r.node], columns p r⟩ 0 r.history).isOk :=
    replay_isOk (show _ = Rows.sent [] r.node from rfl) hanswers 0
  unfold attach startReplay
  rw [hspawn, hfull]
  simp only [bind, Except.bind, Bool.false_eq_true, if_false]
  revert hreplay
  cases replay io ⟨process, [header r.node], columns p r⟩ 0 r.history with
  | error e => exact id
  | ok result => exact fun _ => rfl

end Runner

namespace SimSession

theorem run_synced {rows : Rows} {s : SimSession} (h : s.Synced rows) {req : RunReq}
    (hsafe : Cmd.Safe io m p s (.run req)) :
    ∃ more, (s.run io m p req).2.Synced (rows ++ more) ∧
      Reports io m p s (s.run io m p req).2 rows more (.run req) (s.run io m p req).1 := by
  have hkeep : s.Synced (rows ++ []) := by rwa [List.append_nil]
  unfold SimSession.run
  cases hrunner : s.runner with
  | none => exact ⟨[], hkeep, rfl⟩
  | some r =>
    cases hprepare : r.prepare io m req with
    | error e => exact ⟨[], by simpa only [hprepare] using hkeep, by simp only [hprepare]; rfl⟩
    | ok prepared =>
      obtain ⟨brk, planned⟩ := prepared
      obtain ⟨hobserves, hends⟩ := hsafe r hrunner brk planned hprepare
      have hsynced := h.runner r hrunner
      have hattached : s.attached = r.c := by rw [attached, hrunner]; rfl
      cases hrun : Runner.runCycles io m p req brk r {} planned with
      | error e =>
        -- the thread has ended, with no C in the loop
        refine ⟨[], ?_, by simp only [hprepare, hrun]; rfl⟩
        have hcolumns : s.cColumns.isSome = false := by
          cases hsome : s.cColumns.isSome with
          | false => rfl
          | true => simpa [hrun, Except.isOk, Except.toBool] using hends hsome
        simp only [hprepare, hrun]
        exact ⟨fun _ hr => (by cases hr), fun _ hr => (by cases hr), hcolumns⟩
      | ok result =>
        obtain ⟨r', out⟩ := result
        obtain ⟨more, hgoing, hlines⟩ := Runner.runCycles_going hsynced.going hobserves hrun
        have hcycles := hgoing.cycles
        simp only [hprepare, hrun]
        refine ⟨more, ?_, r, hrunner, brk, planned, hprepare, ?_⟩
        · constructor
          case cycle =>
            rintro _ ⟨⟩
            rw [hcycles, h.cycle r hrunner]
          case runner =>
            rintro _ ⟨⟩
            exact hgoing.synced
          case columns =>
            change _ = r'.c.isSome
            rw [hgoing.lost, ← hattached, ← h.columns]
            cases out.cError <;> simp
        · constructor
          case lines => exact hlines
          case cycles =>
            rw [hgoing.synced.cycle, hsynced.cycle, List.length_append] at hcycles
            omega
          case observed => exact hgoing.observed

theorem attachC_synced {rows : Rows} {s : SimSession} (h : s.Synced rows) {exe : Option Process}
    (hsafe : Cmd.Safe io m p s (.attachC exe)) :
    (s.attachC io p exe).2.Synced rows ∧
      Reports io m p s (s.attachC io p exe).2 rows [] (.attachC exe) (s.attachC io p exe).1 := by
  unfold SimSession.attachC
  cases hrunner : s.runner with
  | none => exact ⟨h, rfl⟩
  | some r =>
    obtain ⟨hsynced, hcycle, hattached⟩ :=
      Runner.attach_synced io p (h.runner r hrunner) exe
    obtain ⟨res, r', hres⟩ : ∃ res r', r.attach io p exe = (res, r') := ⟨_, _, rfl⟩
    rw [hres] at hsynced hcycle hattached
    cases res with
    | ok out =>
      obtain ⟨hsome, hcompared⟩ := hattached out rfl
      simp only [hres]
      refine ⟨?_, rfl, fun row hrow => ⟨r', rfl, hcompared row hrow⟩⟩
      constructor
      case cycle =>
        rintro _ ⟨⟩
        rw [hcycle, h.cycle r hrunner]
      case runner =>
        rintro _ ⟨⟩
        exact hsynced
      case columns => exact hsome.symm
    | error e =>
      simp only [hres]
      refine ⟨?_, rfl⟩
      constructor
      case cycle =>
        rintro _ ⟨⟩
        rw [hcycle, h.cycle r hrunner]
      case runner =>
        rintro _ ⟨⟩
        exact hsynced
      case columns =>
        have hlost := Runner.attach_eq_error hres
        change _ = r'.c.isSome
        cases hfull : r.historyFull with
        | true =>
          rw [hlost, hfull, if_pos rfl, h.columns, attached, hrunner]
          rfl
        | false =>
          rw [hlost, hfull, if_neg Bool.false_ne_true]
          cases hsome : s.cColumns.isSome with
          | false => rfl
          | true =>
            -- an attach in place of another replays the history
            have hok : (r.attach io p exe).1.isOk :=
              Runner.attach_of_replays hfull (hsafe r hrunner hsome hfull)
            rw [hres] at hok
            cases hok

theorem detachC_synced {rows : Rows} {s : SimSession} (h : s.Synced rows) :
    s.detachC.2.Synced rows := by
  constructor
  case cycle =>
    intro r hr
    obtain ⟨r₀, hr₀, rfl⟩ := Option.map_eq_some_iff.mp hr
    exact h.cycle r₀ hr₀
  case runner =>
    intro r hr
    obtain ⟨r₀, hr₀, rfl⟩ := Option.map_eq_some_iff.mp hr
    exact { h.runner r₀ hr₀ with sent := fun _ hc => by cases hc }
  case columns =>
    change false = ((s.runner.map fun r => { r with c := none }).bind (·.c)).isSome
    cases s.runner <;> rfl

theorem start_synced {root : String} {s : SimSession} (h : SimSession.start m p root = .ok s) :
    s.Synced [] := by
  obtain ⟨monitored, hnew, h⟩ := Except.bind_eq_ok.mp h
  cases h
  have hcycle : monitored.sim.state.cycle = 0 := by
    obtain ⟨sim, hsim, h⟩ := Except.bind_eq_ok.mp hnew
    cases h
    exact Sim.new_cycle hsim
  constructor
  case cycle =>
    rintro _ ⟨⟩
    rfl
  case runner =>
    rintro _ ⟨⟩
    exact {
      cycle := rfl
      steps := hcycle
      history := (List.take_nil).symm
      full := iff_of_false Bool.false_ne_true (Nat.not_lt_zero _)
      sent := fun _ hc => by cases hc }
  case columns => rfl

theorem step_synced {rows : Rows} {s : SimSession} (h : s.Synced rows) (cmd : Cmd)
    (hsafe : cmd.Safe io m p s) :
    ∃ more, (s.step io m p cmd).2.Synced (rows ++ more) ∧
      Reports io m p s (s.step io m p cmd).2 rows more cmd (s.step io m p cmd).1 := by
  cases cmd with
  | run req => exact run_synced h hsafe
  | attachC exe =>
    have hattach := attachC_synced h hsafe
    exact ⟨[], by rw [List.append_nil]; exact hattach.1, hattach.2⟩
  | detachC => exact ⟨[], by rw [List.append_nil]; exact detachC_synced h, rfl⟩

end SimSession

end

/-- `y = x`. -/
def wire : NodeDef where
  name := "Wire"
  kind := .operator
  inputs := [⟨"x", .bool⟩]
  outputs := [⟨"y", .bool⟩]
  locals := []
  equations := [⟨["y"], .var "x"⟩]

def wireProject : Project := { packages := [{ name := "main", nodes := [wire] }] }

/-- Values that are all booleans. -/
def boolIo : ValueIo Unit where
  parse text _ :=
    if text = "true" then .ok (.bool true)
    else if text = "false" then .ok (.bool false)
    else .error text
  toCsv v := if v.asBool = some true then "true" else "false"
  parseReal _ := none
  seed _ := ()
  fuzzValue _ _ := .ok (.bool false, ())
  badText _ _ := ("bad", ())

/-- The compiled wire. -/
def wireProcess : Process := fun lines =>
  match lines.reverse with
  | [] => none
  | [_] => some "cycle,y"
  | line :: rest => some (toString (rest.length - 1) ++ "," ++ line)

/-- One cycle of the wire. -/
def wireCycle (x : String) : Cmd := .run ⟨[("x", x)], [], 1, none, false, false, none⟩

end OpenLustre.Studio
