import OpenLustre.CliteEmit.Monitor

/-! The cells of the generated monitor against those of the simulator. -/

namespace OpenLustre.CliteEmit

open OpenLustre.Ir OpenLustre.ContractIr OpenLustre.Simulator

/-- The labels as the helper would join them in a buffer without end: none that is empty
and comes first is followed by a separator. -/
def joined (labels : List CString) : CString :=
  labels.foldl (fun buf s => if buf = [] then s else buf ++ utf8 "|" ++ s) []

theorem length_bar : (utf8 "|").length = 1 := rfl

/-- Appending to a buffer of a size keeps what fits of the whole. -/
theorem olAppend_take {size : Nat} (hsize : 0 < size) (whole s : CString) :
    olAppend size (whole.take (size - 1)) (utf8 "|") s =
      (if whole = [] then s else whole ++ utf8 "|" ++ s).take (size - 1) := by
  have hpos : size ≠ 0 := Nat.pos_iff_ne_zero.mp hsize
  unfold olAppend
  rw [if_neg hpos]
  by_cases hfull : size ≤ (whole.take (size - 1)).length + 1
  · rw [if_pos hfull]
    rw [List.length_take] at hfull
    split
    · next hempty =>
      obtain rfl : size = 1 := by simp [hempty] at hfull; omega
      simp
    · rw [List.append_assoc, List.take_append_of_le_length (by omega)]
  · rw [if_neg hfull]
    rw [List.length_take] at hfull
    have hwhole : whole.take (size - 1) = whole := List.take_of_length_le (by omega)
    rw [hwhole]
    by_cases hempty : whole = []
    · have hroom : ¬ size ≤ 1 := by simpa [hempty] using hfull
      simp [hempty, snprintfEnd, hroom]
    · have hlen : 0 < whole.length := List.length_pos_iff.mpr hempty
      have hbar : snprintfEnd size whole (utf8 "|") = whole ++ utf8 "|" := by
        rw [snprintfEnd, List.take_of_length_le (by rw [length_bar]; omega)]
      rw [if_pos hlen, if_neg hempty, hbar]
      have hbarlen : (whole ++ utf8 "|").length = whole.length + 1 := by
        rw [List.length_append, length_bar]
      dsimp only
      split
      · next hfull' =>
        rw [hbarlen] at hfull'
        rw [List.take_append_of_le_length (by omega), List.take_of_length_le (by omega)]
      · next hroom =>
        rw [hbarlen] at hroom
        have hkeep : (whole ++ utf8 "|").take (size - 1) = whole ++ utf8 "|" :=
          List.take_of_length_le (by rw [hbarlen]; omega)
        rw [snprintfEnd, List.take_append, hkeep]
        congr 2
        omega

theorem foldl_olAppend {size : Nat} (hsize : 0 < size) (labels : List String) (whole : CString) :
    labels.foldl (fun buf l => olAppend size buf (utf8 "|") (utf8 l)) (whole.take (size - 1)) =
      ((labels.map utf8).foldl (fun buf s => if buf = [] then s else buf ++ utf8 "|" ++ s) whole).take
        (size - 1) := by
  induction labels generalizing whole with
  | nil => rfl
  | cons l labels ih =>
    simp only [List.foldl_cons, List.map_cons]
    rw [olAppend_take hsize, ih]

theorem foldl_joined {first : CString} (hfirst : first ≠ []) (labels : List CString) :
    labels.foldl (fun buf s => if buf = [] then s else buf ++ utf8 "|" ++ s) first =
      List.intercalate (utf8 "|") (first :: labels) := by
  induction labels generalizing first with
  | nil => simp
  | cons l labels ih =>
    have hne : first ++ utf8 "|" ++ l ≠ [] := by simp [hfirst]
    rw [List.foldl_cons, if_neg hfirst, ih hne, List.intercalate_cons_cons]
    cases labels with
    | nil => simp
    | cons second rest => simp [List.intercalate_cons_cons]

theorem joined_cons {first : CString} (hfirst : first ≠ []) (labels : List CString) :
    joined (first :: labels) = List.intercalate (utf8 "|") (first :: labels) := by
  rw [joined, List.foldl_cons, if_pos rfl, foldl_joined hfirst]

theorem joined_cons_nil (labels : List CString) : joined ([] :: labels) = joined labels := rfl

/-- Empty labels that come first leave no trace. -/
theorem length_joined_le (labels : List CString) :
    (joined labels).length ≤ (List.intercalate (utf8 "|") labels).length := by
  induction labels with
  | nil => exact le_refl _
  | cons first labels ih =>
    by_cases hfirst : first = []
    · rw [hfirst, joined_cons_nil]
      cases labels with
      | nil => exact ih
      | cons second rest =>
        rw [List.intercalate_cons_cons, List.length_append]
        omega
    · rw [joined_cons hfirst]

/-- What the driver's cell for a list of labels holds. -/
def cell (size : Nat) (labels : List String) : CString :=
  finishBuf size (labels.foldl (fun buf l => olAppend size buf (utf8 "|") (utf8 l)) [])

theorem cell_eq {size : Nat} (hsize : 7 ≤ size) (labels : List String) :
    cell size labels =
      if joined (labels.map utf8) = [] then utf8 "<none>"
      else (joined (labels.map utf8)).take (size - 1) := by
  have hfold := foldl_olAppend (by omega : 0 < size) labels []
  rw [List.take_nil] at hfold
  rw [cell, hfold]
  change finishBuf size ((joined (labels.map utf8)).take (size - 1)) = _
  have hnone : (utf8 "<none>").length = 6 := rfl
  by_cases hempty : joined (labels.map utf8) = []
  · rw [hempty, List.take_nil, if_pos rfl, finishBuf, if_pos rfl, snprintfEnd, List.nil_append,
      List.take_of_length_le]
    simp only [hnone, List.length_nil]
    omega
  · have hsome : (joined (labels.map utf8)).take (size - 1) ≠ [] := by
      rw [Ne, List.take_eq_nil_iff, not_or]
      exact ⟨by omega, hempty⟩
    rw [finishBuf, if_neg hsome, if_neg hempty]

/-- A list of labels that a buffer holds as the simulator writes it: not begun by an empty
one, without commas, and no longer than the buffer. -/
def Fits (size : Nat) (labels : List String) : Prop :=
  labels = [] ∨ labels.head? ≠ some "" ∧ (∀ l ∈ labels, ',' ∉ l.toList) ∧
    (utf8 (String.intercalate "|" labels)).length < size

theorem mem_intercalate {c : Char} (hc : c ≠ '|') (labels : List String) :
    c ∈ (String.intercalate "|" labels).toList ↔ ∃ l ∈ labels, c ∈ l.toList := by
  induction labels with
  | nil => simp
  | cons first rest ih =>
    cases rest with
    | nil => simp
    | cons second rest =>
      rw [String.intercalate_cons_cons, String.toList_append, String.toList_append,
        List.mem_append, List.mem_append, ih]
      simp [hc]

theorem map_comma_eq_self {cs : List Char} :
    cs.map (fun c => if c = ',' then ';' else c) = cs ↔ ',' ∉ cs := by
  induction cs with
  | nil => simp
  | cons c cs ih =>
    rw [List.map_cons, List.cons.injEq, ih, List.mem_cons, not_or]
    apply and_congr_left
    intro _
    by_cases hc : c = ','
    · simp [hc]
    · simp [hc, Ne.symm hc]

theorem labelList_cons (first : String) (rest : List String) :
    labelList (first :: rest) = String.ofList
      ((String.intercalate "|" (first :: rest)).toList.map fun c => if c = ',' then ';' else c) := rfl

theorem length_labelList_cons (first : String) (rest : List String) :
    (utf8 (labelList (first :: rest))).length =
      (utf8 (String.intercalate "|" (first :: rest))).length := by
  have hsize (c : Char) : (if c = ',' then ';' else c).utf8Size = c.utf8Size := by
    split
    · next hc => rw [hc]; rfl
    · rfl
  rw [labelList_cons, length_utf8_map hsize, String.ofList_toList]

/-- A list of labels begun by an empty one is not printed as the simulator writes it. -/
theorem cell_ne_of_empty {size : Nat} (hsize : 7 ≤ size) (rest : List String) :
    cell size ("" :: rest) ≠ utf8 (labelList ("" :: rest)) := by
  have hjoined : joined (("" :: rest).map utf8) = joined (rest.map utf8) := rfl
  have hle := length_joined_le (rest.map utf8)
  rw [← utf8_intercalate] at hle
  rw [cell_eq hsize, hjoined]
  intro h
  cases rest with
  | nil =>
    have hempty := congrArg String.toList (utf8_injective h)
    simp [labelList_cons] at hempty
  | cons second rest =>
    split at h
    · -- the simulator's cell begins with a separator
      have hhead := congrArg (fun s : String => s.toList.head?) (utf8_injective h)
      simp [labelList_cons, String.intercalate_cons_cons] at hhead
    · have hlen := congrArg List.length h
      rw [length_labelList_cons, String.intercalate_cons_cons, utf8_append, List.length_append,
        String.empty_append, length_bar, List.length_take] at hlen
      omega

theorem cell_eq_labelList_iff {size : Nat} (hsize : 7 ≤ size) (labels : List String) :
    cell size labels = utf8 (labelList labels) ↔ Fits size labels := by
  cases labels with
  | nil => exact iff_of_true (by rw [cell_eq hsize]; rfl) (.inl rfl)
  | cons first rest =>
    by_cases hfirst : first = ""
    · subst hfirst
      apply iff_of_false (cell_ne_of_empty hsize rest)
      simp [Fits]
    · have hbytes : utf8 first ≠ [] := by simpa using hfirst
      have hjoined : joined ((first :: rest).map utf8) =
          utf8 (String.intercalate "|" (first :: rest)) := by
        rw [utf8_intercalate, List.map_cons, joined_cons hbytes]
      have hnonempty : joined ((first :: rest).map utf8) ≠ [] := by
        rw [List.map_cons, joined_cons hbytes]
        cases rest <;> simp [hbytes, List.intercalate_cons_cons]
      have hcommas : (∀ l ∈ first :: rest, ',' ∉ l.toList) ↔
          labelList (first :: rest) = String.intercalate "|" (first :: rest) := by
        rw [labelList_cons, ← String.toList_inj, String.toList_ofList, map_comma_eq_self,
          mem_intercalate (by decide)]
        simp
      rw [cell_eq hsize, if_neg hnonempty, hjoined]
      constructor
      · intro h
        have hlen := congrArg List.length h
        rw [length_labelList_cons, List.length_take] at hlen
        rw [List.take_of_length_le (by omega)] at h
        refine .inr ⟨by simpa using hfirst, hcommas.mpr (utf8_injective h).symm, by omega⟩
      · rintro (hnil | ⟨-, hnone, hlen⟩)
        · cases hnil
        · rw [hcommas.mp hnone, List.take_of_length_le (by omega)]

section

variable (oo : List Bool)

/-- The labels of the checks that fail. -/
def failing (checks : List ClauseCheck) : List String :=
  checks.filterMap fun check => if oo.getD check.field false then none else some check.label

def ModeCheck.active (mode : ModeCheck) : Bool := mode.requires.all fun i => oo.getD i false

def appendAll (size : Nat) (buf : CString) (labels : List String) : CString :=
  labels.foldl (fun buf l => olAppend size buf (utf8 "|") (utf8 l)) buf

theorem appendAll_append (size : Nat) (buf : CString) (labels more : List String) :
    appendAll size buf (labels ++ more) = appendAll size (appendAll size buf labels) more :=
  List.foldl_append

/-- What checking clauses does to the buffers. -/
theorem foldl_clause (checks : List ClauseCheck) (r : Reported) :
    (checks.foldl (ClauseCheck.exec oo) r).activeMode = r.activeMode ∧
      (checks.foldl (ClauseCheck.exec oo) r).violations =
        appendAll violBuf r.violations (failing oo checks) := by
  induction checks generalizing r with
  | nil => exact ⟨rfl, rfl⟩
  | cons check checks ih =>
    obtain ⟨hmode, hviolations⟩ := ih (check.exec oo r)
    rw [List.foldl_cons, hmode, hviolations]
    cases hfield : oo.getD check.field false with
    | true =>
      have hexec : check.exec oo r = r := if_pos hfield
      have hfailing : failing oo (check :: checks) = failing oo checks :=
        List.filterMap_cons_none (by rw [hfield]; rfl)
      rw [hexec, hfailing]
      exact ⟨rfl, rfl⟩
    | false =>
      have hfailing : failing oo (check :: checks) = check.label :: failing oo checks :=
        List.filterMap_cons_some (by rw [hfield]; rfl)
      rw [ClauseCheck.exec, hfield, hfailing]
      exact ⟨rfl, rfl⟩

/-- What checking modes does to the buffers. -/
theorem foldl_mode (modes : List ModeCheck) (r : Reported) :
    (modes.foldl (ModeCheck.exec oo) r).activeMode =
        appendAll modeBuf r.activeMode ((modes.filter (·.active oo)).map (·.name)) ∧
      (modes.foldl (ModeCheck.exec oo) r).violations =
        appendAll violBuf r.violations
          ((modes.filter (·.active oo)).flatMap fun mode => failing oo mode.ensures) := by
  induction modes generalizing r with
  | nil => exact ⟨rfl, rfl⟩
  | cons mode modes ih =>
    obtain ⟨hmode, hviolations⟩ := ih (mode.exec oo r)
    rw [List.foldl_cons, hmode, hviolations]
    cases hactive : mode.active oo with
    | false =>
      have hexec : mode.exec oo r = r := if_neg (by rw [← ModeCheck.active, hactive]; simp)
      rw [hexec, List.filter_cons_of_neg (by simp [hactive])]
      exact ⟨rfl, rfl⟩
    | true =>
      rw [List.filter_cons_of_pos hactive, List.flatMap_cons, appendAll_append]
      have hexec : mode.exec oo r = mode.ensures.foldl (ClauseCheck.exec oo) _ := if_pos hactive
      obtain ⟨hname, hensures⟩ := foldl_clause oo mode.ensures
        { r with
          state := { r.state with activeMode := mode.index }
          activeMode := olAppend modeBuf r.activeMode (utf8 "|") (utf8 mode.name) }
      rw [hexec, hname, hensures]
      exact ⟨rfl, rfl⟩

end

theorem zip_eq_zipIdx_map {α : Type} (signals : List α) (oo : List Bool)
    (hlen : oo.length = signals.length) :
    signals.zip oo = signals.zipIdx.map fun (sig, i) => (sig, oo.getD i false) := by
  apply List.ext_getElem
  · simp [hlen]
  · intro i h₁ h₂
    simp at h₁ h₂
    simp [List.getElem?_eq_getElem h₁.2]

section

variable {obs : Observer} {oo : List Bool} (hlen : oo.length = obs.signals.length)
include hlen

theorem failing_clauses (c : ContractDef) : failing oo (monitorText c obs).clauses =
    Signals.violatedClauses (obs.signals.zip oo) := by
  rw [zip_eq_zipIdx_map _ _ hlen, Signals.violatedClauses, List.filterMap_map, failing, monitorText,
    List.filterMap_filterMap]
  apply List.filterMap_congr
  rintro ⟨sig, i⟩ _
  cases sig <;> rfl

theorem failing_ensures (mode : Mode) (m : Nat) : failing oo (emitMode obs mode m).ensures =
    Signals.violatedEnsures (obs.signals.zip oo) mode m := by
  rw [zip_eq_zipIdx_map _ _ hlen, Signals.violatedEnsures, List.filterMap_map, failing, emitMode,
    List.filterMap_filterMap]
  apply List.filterMap_congr
  rintro ⟨sig, i⟩ _
  cases sig with
  | ensure em index =>
    by_cases hem : em = m <;> cases hoo : oo.getD i false <;>
      simp [hem, hoo, -List.getD_eq_getElem?_getD]
  | _ => rfl

theorem emitMode_active (mode : Mode) (m : Nat) : (emitMode obs mode m).active oo =
    Signals.modeActive (obs.signals.zip oo) m := by
  rw [zip_eq_zipIdx_map _ _ hlen, Signals.modeActive, List.all_map, ModeCheck.active, emitMode,
    List.all_filterMap]
  apply List.all_congr rfl
  rintro ⟨sig, i⟩
  cases sig with
  | require em index =>
    by_cases hem : em = m <;> simp [hem]
  | _ => rfl

theorem filter_active (c : ContractDef) : (monitorText c obs).modes.filter (·.active oo) =
    (c.modes.zipIdx.filter fun x => Signals.modeActive (obs.signals.zip oo) x.2).map
      fun x => emitMode obs x.1 x.2 := by
  rw [monitorText, List.filter_map]
  congr 1
  apply List.filter_congr
  intro x _
  exact emitMode_active hlen x.1 x.2

/-- The buffers after a check are those of the observer's verdict. -/
theorem check_cells (c : ContractDef) (state : MonitorState) :
    ((monitorText c obs).check oo state).activeMode = cell modeBuf (obs.verdict c oo).1 ∧
      ((monitorText c obs).check oo state).violations = cell violBuf (obs.verdict c oo).2 := by
  obtain ⟨hclauseMode, hclauses⟩ := foldl_clause oo (monitorText c obs).clauses ⟨state, [], []⟩
  obtain ⟨hmode, hviolations⟩ := foldl_mode oo (monitorText c obs).modes
    ((monitorText c obs).clauses.foldl (ClauseCheck.exec oo) ⟨state, [], []⟩)
  have hactive := filter_active hlen c
  rw [hclauseMode, hactive, List.map_map] at hmode
  rw [hclauses, hactive, failing_clauses hlen, ← appendAll_append, List.flatMap_map] at hviolations
  constructor
  · rw [MonitorCode.check, hmode]
    rfl
  · rw [MonitorCode.check, hviolations]
    simp only [failing_ensures hlen]
    rfl

end

section

variable (m : Machine) (p : Project) (c : ContractDef) (obs : Observer) (consts : Env)

/-- The simulator's verdict of each cycle. -/
def observed (rows : List IoRow) : List (Except Fault (List String × List String) × Calls) :=
  Transition.trace (fun row => MonitoredSim.observe m p c obs consts row.1 row.2) rows Calls.empty

/-- Where the simulator has values of the clauses, the compiled observer has the same. -/
def CompiledObserver.Agrees (compiled : CompiledObserver obs) (rows : List IoRow) : Prop :=
  ∀ (k : Nat) values calls,
    (Transition.trace (fun row => MonitoredSim.clauseValues m p c obs consts row.1 row.2) rows
      Calls.empty)[k]? = some (.ok values, calls) →
    compiled.outputs (rows.take (k + 1)) = values

end

theorem driverCells_getElem? (code : MonitorCode) (outputs : List IoRow → List Bool)
    (done : List IoRow) (state : MonitorState) {rows : List IoRow} {k : Nat} (hk : k < rows.length) :
    ∃ state', (driverCells code outputs done state rows)[k]? =
      some ((code.check (outputs (done ++ rows.take (k + 1))) state').activeMode,
        (code.check (outputs (done ++ rows.take (k + 1))) state').violations) := by
  induction rows generalizing done state k with
  | nil => cases hk
  | cons row rows ih =>
    cases k with
    | zero => exact ⟨state, rfl⟩
    | succ k =>
      obtain ⟨state', h⟩ := ih (done ++ [row])
        (code.check (outputs (done ++ [row])) state).state (Nat.lt_of_succ_lt_succ hk)
      refine ⟨state', h.trans ?_⟩
      rw [List.append_assoc]
      rfl

variable {m : Machine} {p : Project} {c : ContractDef} {obs : Observer} {consts : Env}

theorem observe_eq (row : IoRow) (calls : Calls) :
    MonitoredSim.observe m p c obs consts row.1 row.2 calls =
      ((MonitoredSim.clauseValues m p c obs consts row.1 row.2 calls).1.map (obs.verdict c),
        (MonitoredSim.clauseValues m p c obs consts row.1 row.2 calls).2) := by
  obtain ⟨r, calls', hrun⟩ : ∃ r calls',
    MonitoredSim.clauseValues m p c obs consts row.1 row.2 calls = (r, calls') := ⟨_, _, rfl⟩
  rw [hrun]
  cases r with
  | ok values =>
    change Stateful.bind (MonitoredSim.clauseValues m p c obs consts row.1 row.2) _ calls = _
    rw [Stateful.bind, hrun]
    rfl
  | error e =>
    change Stateful.bind (MonitoredSim.clauseValues m p c obs consts row.1 row.2) _ calls = _
    rw [Stateful.bind, hrun]
    rfl

theorem observed_eq (rows : List IoRow) : observed m p c obs consts rows =
    (Transition.trace (fun row => MonitoredSim.clauseValues m p c obs consts row.1 row.2) rows
      Calls.empty).map fun (r, calls) => (r.map (obs.verdict c), calls) := by
  rw [observed, ← Transition.trace_map fun row calls => observe_eq row calls]

/-- The driver's cells of a cycle that the simulator has a verdict of. -/
theorem driverCells_of_observed {compiled : CompiledObserver obs} {rows : List IoRow}
    (hagrees : compiled.Agrees m p c obs consts rows) {k : Nat} {verdict : List String × List String}
    {calls : Calls} (h : (observed m p c obs consts rows)[k]? = some (.ok verdict, calls)) :
    (driverCells (monitorText c obs) compiled.outputs [] .reset rows)[k]? =
      some (cell modeBuf verdict.1, cell violBuf verdict.2) := by
  rw [observed_eq, List.getElem?_map, Option.map_eq_some_iff] at h
  obtain ⟨⟨r, calls'⟩, hvalues, hverdict⟩ := h
  rw [Prod.mk.injEq, Except.map_eq_ok] at hverdict
  obtain ⟨⟨values, rfl, rfl⟩, rfl⟩ := hverdict
  have hk : k < rows.length :=
    (List.getElem?_eq_some_iff.mp hvalues).1.trans_eq (Transition.length_trace _ _ _)
  obtain ⟨state, hcells⟩ :=
    driverCells_getElem? (monitorText c obs) compiled.outputs [] .reset hk
  rw [List.nil_append, hagrees k values calls' hvalues] at hcells
  have hlen : values.length = obs.signals.length := by
    rw [← hagrees k values calls' hvalues, compiled.length]
  obtain ⟨hmode, hviolations⟩ := check_cells hlen c state
  rw [hcells, hmode, hviolations]

theorem emitMonitor_eq_some {code : MonitorCode} : emitMonitor c obs = some code ↔
    (∀ label ∈ (monitorText c obs).labels, isPlain label) ∧ monitorText c obs = code := by
  simp only [emitMonitor, Option.ite_none_right_eq_some, List.all_eq_true, Option.some.injEq]

/-- The contract that guarantees, under a label, that the output holds. -/
def guaranteed (label : String) : ContractDef where
  name := "Safe"
  inputs := [⟨"x", .bool⟩]
  outputs := [⟨"y", .bool⟩]
  guarantees := [⟨some label, .var "y"⟩]

def noPackages : Project := { packages := [] }

def noConstants : Env := fun _ => none

def guaranteedObserver (label : String) : CompiledObserver (ContractDef.observer (guaranteed label)) where
  outputs rows := [rows.getLast?.any fun row => ((row.2 "y").bind Value.asBool).getD false]
  length _ := rfl

/-- One cycle with an input and an output. -/
def wireRow (x y : Bool) : IoRow :=
  (Env.set noConstants "x" (.bool x), Env.set noConstants "y" (.bool y))

theorem guaranteedObserver_agrees (label : String) (x y : Bool) :
    (guaranteedObserver label).Agrees ⟨true, 8⟩ noPackages (guaranteed label)
      (ContractDef.observer (guaranteed label)) noConstants [wireRow x y] := by
  intro k values calls h
  match k with
  | 0 =>
    cases h
    rfl
  | k + 1 => cases h

end OpenLustre.CliteEmit
