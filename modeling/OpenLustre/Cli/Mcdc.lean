import OpenLustre.Cli.Scenario

/-! What the MC/DC verdicts say of the evaluations recorded at each decision. -/

namespace OpenLustre.Cli

open OpenLustre.Ir OpenLustre.Simulator Keyed

/-- Evaluations of a decision that differ in one condition only, and in the outcome. -/
structure Flips (n i : Nat) (a b : McdcTrial) : Prop where
  left : a.values.length = n
  right : b.values.length = n
  outcome : a.outcome ≠ b.outcome
  value : a.values[i]? ≠ b.values[i]?
  others : ∀ j, j ≠ i → a.values[j]? = b.values[j]?

/-- Some two of the evaluations show that a condition matters on its own. -/
def Shown (trials : McdcTrial → Prop) (n i : Nat) : Prop :=
  ∃ a b, trials a ∧ trials b ∧ Flips n i a b

theorem Shown.mono {trials trials' : McdcTrial → Prop} {n i : Nat} (h : Shown trials n i)
    (hsub : ∀ t, trials t → trials' t) : Shown trials' n i := by
  obtain ⟨a, b, ha, hb, hflips⟩ := h
  exact ⟨a, b, hsub a ha, hsub b hb, hflips⟩

theorem Flips.symm {n i : Nat} {a b : McdcTrial} (h : Flips n i a b) : Flips n i b a :=
  ⟨h.right, h.left, h.outcome.symm, h.value.symm, fun j hj => (h.others j hj).symm⟩

theorem independent_iff {n i : Nat} {a b : McdcTrial} :
    independent n i a b = true ↔ Flips n i a b := by
  simp only [independent, Bool.and_eq_true, decide_eq_true_eq, List.all_eq_true, List.mem_filter,
    List.mem_range]
  constructor
  · rintro ⟨⟨⟨⟨hleft, hright⟩, houtcome⟩, hvalue⟩, hothers⟩
    refine ⟨hleft, hright, houtcome, hvalue, fun j hj => ?_⟩
    by_cases hn : j < n
    · exact hothers j ⟨hn, hj⟩
    · rw [List.getElem?_eq_none (by omega), List.getElem?_eq_none (by omega)]
  · intro h
    exact ⟨⟨⟨⟨h.left, h.right⟩, h.outcome⟩, h.value⟩, fun j hj => h.others j hj.2⟩

/-- The pairs of trials that are searched, each with its index. -/
theorem mem_pairs {trials : List McdcTrial} {a b : McdcTrial} {k l : Nat} :
    (a, k, b, l) ∈ (trials.zipIdx.flatMap fun (a, k) =>
      (trials.zipIdx.filter fun x => k < x.2).map fun (b, l) => (a, k, b, l)) ↔
      trials[k]? = some a ∧ trials[l]? = some b ∧ k < l := by
  simp only [List.mem_flatMap, List.mem_map, List.mem_filter, decide_eq_true_eq, Prod.exists,
    Prod.mk.injEq, List.mem_zipIdx_iff_getElem?]
  constructor
  · rintro ⟨_, _, ha, _, _, ⟨hb, hkl⟩, rfl, rfl, rfl, rfl⟩
    exact ⟨ha, hb, hkl⟩
  · rintro ⟨ha, hb, hkl⟩
    exact ⟨a, k, ha, b, l, ⟨hb, hkl⟩, rfl, rfl, rfl, rfl⟩

theorem mcdcIndependence_pair {n i : Nat} {trials : List McdcTrial} :
    (∃ pair, (mcdcIndependence n trials)[i]? = some (some pair)) ↔
      i < n ∧ ∃ (k l : Nat) (a b : McdcTrial),
        k < l ∧ trials[k]? = some a ∧ trials[l]? = some b ∧ Flips n i a b := by
  by_cases hi : i < n
  · rw [and_iff_right hi]
    simp only [mcdcIndependence, List.getElem?_map, List.getElem?_range hi, Option.map_some,
      Option.some.injEq, ← Option.isSome_iff_exists, List.findSome?_isSome_iff]
    constructor
    · rintro ⟨⟨a, k, b, l⟩, hmem, hsome⟩
      obtain ⟨ha, hb, hkl⟩ := mem_pairs.mp hmem
      refine ⟨k, l, a, b, hkl, ha, hb, independent_iff.mp ?_⟩
      by_contra hnot
      simp [hnot] at hsome
    · rintro ⟨k, l, a, b, hkl, ha, hb, hflips⟩
      refine ⟨(a, k, b, l), mem_pairs.mpr ⟨ha, hb, hkl⟩, ?_⟩
      simp [independent_iff.mpr hflips]
  · have hnone : (mcdcIndependence n trials)[i]? = none :=
      List.getElem?_eq_none (by simpa [mcdcIndependence] using hi)
    simp [hi, hnone]

/-- A pair is found for a condition just when there is one. -/
theorem mcdcIndependence_shown (n i : Nat) (trials : List McdcTrial) :
    (∃ pair, (mcdcIndependence n trials)[i]? = some (some pair)) ↔ Shown (· ∈ trials) n i := by
  rw [mcdcIndependence_pair]
  constructor
  · rintro ⟨-, k, l, a, b, -, ha, hb, hflips⟩
    exact ⟨a, b, List.mem_of_getElem? ha, List.mem_of_getElem? hb, hflips⟩
  · rintro ⟨a, b, ha, hb, hflips⟩
    have hi : i < n := by
      by_contra hn
      have hleft := hflips.left
      have hright := hflips.right
      exact hflips.value (by rw [List.getElem?_eq_none (by omega), List.getElem?_eq_none (by omega)])
    obtain ⟨k, hk⟩ := List.mem_iff_getElem?.mp ha
    obtain ⟨l, hl⟩ := List.mem_iff_getElem?.mp hb
    rcases Nat.lt_trichotomy k l with hkl | rfl | hkl
    · exact ⟨hi, k, l, a, b, hkl, hk, hl, hflips⟩
    · rw [hk] at hl
      exact absurd (congrArg McdcTrial.outcome (Option.some.inj hl)) hflips.outcome
    · exact ⟨hi, l, k, b, a, hkl, hl, hk, hflips.symm⟩

/-- The evaluations that a collection of runs recorded at some of the decisions. -/
def evaluations (runs : List Coverage) (at_ : DecisionData → Prop) (t : McdcTrial) : Prop :=
  ∃ c ∈ runs, ∃ d ∈ c.decisions, at_ d ∧ t ∈ d.trials

/-- The evaluations of one decision site, over all runs. -/
def own (runs : List Coverage) (d : DecisionData) : McdcTrial → Prop :=
  evaluations runs fun x => x.key = d.key

/-- The evaluations of every decision of one name, over all runs. -/
def lumped (runs : List Coverage) (d : DecisionData) : McdcTrial → Prop :=
  evaluations runs fun x => decisionName x = decisionName d

/-- The decision that was recorded first under the name of a decision. -/
def namesake (runs : List Coverage) (d : DecisionData) : DecisionData :=
  ((runs.flatMap (·.decisions)).find? fun x => decide (decisionName x = decisionName d)).getD d

/-- The summary does not list a condition of a decision as uncovered. -/
def ReportsCovered (s : McdcSummary) (d : DecisionData) (condition : String) : Prop :=
  ∀ u ∈ s.uncovered, ¬ (u.name = decisionName d ∧ u.condition = condition)

/-- What a decision adds to those of its name. -/
def merged (d : DecisionData) (agg : Option McdcDecisionAgg) : McdcDecisionAgg :=
  let agg := agg.getD ⟨d.conditions.map (·.2), []⟩
  { agg with trials := d.trials.foldl (fun trials t => trials.insert t) agg.trials }

theorem mem_foldl_insert {trials ts : List McdcTrial} {t : McdcTrial} :
    t ∈ ts.foldl (fun trials t => trials.insert t) trials ↔ t ∈ trials ∨ t ∈ ts := by
  induction ts generalizing trials with
  | nil => simp
  | cons x ts ih => rw [List.foldl_cons, ih, List.mem_insert_iff, List.mem_cons, or_assoc, or_left_comm]

theorem foldl_merged (ds : List DecisionData) (agg : McdcDecisionAgg) :
    ∃ agg', ds.foldl (fun v d => some (merged d v)) (some agg) = some agg' ∧
      agg'.conditions = agg.conditions ∧
      ∀ t, t ∈ agg'.trials ↔ t ∈ agg.trials ∨ ∃ d ∈ ds, t ∈ d.trials := by
  induction ds generalizing agg with
  | nil => exact ⟨agg, rfl, rfl, by simp⟩
  | cons d ds ih =>
    obtain ⟨agg', hfold, hconditions, htrials⟩ := ih (merged d (some agg))
    refine ⟨agg', hfold, hconditions, fun t => ?_⟩
    rw [htrials, merged, Option.getD_some, mem_foldl_insert]
    simp only [List.mem_cons, exists_eq_or_imp, or_assoc]

theorem distinct_mcdcAcc (runs : List Coverage) : Distinct (mcdcAcc runs) := by
  have hfold (ds : List DecisionData) (acc : McdcAcc) (h : Distinct acc) :
      Distinct (ds.foldl addDecision acc) := by
    induction ds generalizing acc with
    | nil => exact h
    | cons d ds ih => exact ih _ h.update
  exact hfold _ _ List.nodup_nil

/-- Under a name stand the conditions of the first decision and the evaluations of all. -/
theorem lookup_mcdcAcc {runs : List Coverage} {c : Coverage} {d : DecisionData} (hc : c ∈ runs)
    (hd : d ∈ c.decisions) :
    ∃ agg, (mcdcAcc runs).lookup (decisionName d) = some agg ∧
      agg.conditions = (namesake runs d).conditions.map (·.2) ∧
      ∀ t, t ∈ agg.trials ↔ lumped runs d t := by
  have hlookup := @lookup_foldl_update _ _ _ DecisionName.le _ _ _ _ decisionName merged
    (decisionName d) (runs.flatMap (·.decisions)) []
  cases hds : (runs.flatMap (·.decisions)).filter fun x => decide (decisionName x = decisionName d) with
  | nil =>
    have hmem := List.filter_eq_nil_iff.mp hds d (List.mem_flatMap.mpr ⟨c, hc, hd⟩)
    exact absurd (decide_eq_true rfl) hmem
  | cons first ds =>
    obtain ⟨agg, hfold, hconditions, htrials⟩ := foldl_merged ds (merged first none)
    rw [hds] at hlookup
    have hfirst : namesake runs d = first := by
      rw [namesake, ← List.head?_filter, hds]
      rfl
    refine ⟨agg, hlookup.trans hfold, ?_, fun t => ?_⟩
    · rw [hconditions, hfirst]
      rfl
    · have hmem : (∃ x ∈ first :: ds, t ∈ x.trials) ↔ lumped runs d t := by
        rw [← hds]
        simp only [lumped, evaluations, List.mem_filter, List.mem_flatMap, decide_eq_true_eq]
        constructor
        · rintro ⟨x, ⟨⟨c, hc, hx⟩, hname⟩, ht⟩
          exact ⟨c, hc, x, hx, hname, ht⟩
        · rintro ⟨c, hc, x, hx, hname, ht⟩
          exact ⟨x, ⟨⟨c, hc, hx⟩, hname⟩, ht⟩
      rw [htrials, ← hmem, merged, mem_foldl_insert]
      simp

theorem length_mcdcIndependence (n : Nat) (trials : List McdcTrial) :
    (mcdcIndependence n trials).length = n := by simp [mcdcIndependence]

theorem not_shown {agg : McdcDecisionAgg} {condition : String} :
    (condition, false) ∈ agg.shown ↔
      ∃ k : Nat, agg.conditions[k]? = some condition ∧
        ¬ Shown (· ∈ agg.trials) agg.conditions.length k := by
  rw [McdcDecisionAgg.shown, List.mem_iff_getElem?]
  simp only [List.getElem?_zip_eq_some, List.getElem?_map, Option.map_eq_some_iff]
  refine exists_congr fun k => and_congr_right fun hk => ?_
  obtain ⟨hlt, -⟩ := List.getElem?_eq_some_iff.mp hk
  rw [← length_mcdcIndependence agg.conditions.length agg.trials] at hlt
  rw [← mcdcIndependence_shown, List.getElem?_eq_getElem hlt]
  cases (mcdcIndependence agg.conditions.length agg.trials)[k] <;> simp

/-- The conditions of a decision that the summary lists are those without a pair. -/
theorem listed_iff {acc : McdcAcc} (h : Distinct acc) {name : DecisionName} {agg : McdcDecisionAgg}
    (hagg : acc.lookup name = some agg) {condition : String} :
    (∃ u ∈ (summarizeMcdc acc).uncovered, u.name = name ∧ u.condition = condition) ↔
      (condition, false) ∈ agg.shown := by
  have hmem : (name, agg) ∈ acc := h.lookup_eq_some.mp hagg
  simp only [summarizeMcdc, List.mem_map, List.mem_filter, List.mem_flatMap]
  constructor
  · rintro ⟨_, ⟨_, ⟨⟨⟨name', agg'⟩, ⟨hacc, -⟩, ⟨text, shown⟩, hx, rfl⟩, hfalse⟩, rfl⟩, rfl, rfl⟩
    obtain rfl : agg' = agg := by
      have hlookup := h.lookup_eq_some.mpr hacc
      exact Option.some.inj (hlookup.symm.trans hagg)
    obtain rfl : shown = false := by simpa using hfalse
    exact hx
  · intro hx
    have hne : agg.conditions ≠ [] := by
      rintro hnil
      simp [McdcDecisionAgg.shown, hnil] at hx
    exact ⟨_, ⟨(name, condition, false), ⟨⟨(name, agg), ⟨hmem, by simpa using hne⟩, _, hx, rfl⟩, rfl⟩,
      rfl⟩, rfl, rfl⟩

/-- A condition is reported when every condition of its text, under its decision's name, is
shown by the evaluations under that name. -/
theorem reportsCovered_iff {runs : List Coverage} {c : Coverage} {d : DecisionData} (hc : c ∈ runs)
    (hd : d ∈ c.decisions) {condition : String} :
    ReportsCovered (summarizeMcdc (mcdcAcc runs)) d condition ↔
      ∀ k, ((namesake runs d).conditions[k]?.map (·.2)) = some condition →
        Shown (lumped runs d) (namesake runs d).conditions.length k := by
  obtain ⟨agg, hagg, hconditions, htrials⟩ := lookup_mcdcAcc hc hd
  have htrials : (· ∈ agg.trials) = lumped runs d := funext fun t => propext (htrials t)
  have hnot : ReportsCovered (summarizeMcdc (mcdcAcc runs)) d condition ↔
      (condition, false) ∉ agg.shown := by
    rw [← listed_iff (distinct_mcdcAcc runs) hagg, not_exists]
    simp only [ReportsCovered, not_and]
  rw [hnot, not_shown, htrials, hconditions, List.length_map]
  simp only [not_exists, not_and, not_not, List.getElem?_map]

/-- What is recorded under a decision's name agrees with its own evaluations: no pair across
its namesakes shows a condition that its own do not, and no other condition of the same text
lacks a pair when it has one. -/
structure Separate (runs : List Coverage) (d : DecisionData) (i : Nat) (condition : String) :
    Prop where
  borrowed : (∀ k, ((namesake runs d).conditions[k]?.map (·.2)) = some condition →
      Shown (lumped runs d) (namesake runs d).conditions.length k) →
    Shown (own runs d) d.conditions.length i
  repeated : Shown (own runs d) d.conditions.length i →
    ∀ k, ((namesake runs d).conditions[k]?.map (·.2)) = some condition →
      Shown (lumped runs d) (namesake runs d).conditions.length k

/-- The runs of a suite of input vectors that end without an error. -/
def suiteRuns (b : Backends) (p : Project) (node : String) (inputs : List String) :
    List Coverage :=
  inputs.filterMap fun input =>
    match irFullTrace b p node input with
    | .ok (.ok (_, c)) => some c
    | _ => none

def both : Expr := .binary .and (.var "a") (.var "b")

/-- `y = if a and b then 1 else if a and b then 2 else 3`. -/
def twiceProject : Project where
  packages := [{
    name := "main"
    nodes := [{
      name := "N", kind := .operator, inputs := [⟨"a", .bool⟩, ⟨"b", .bool⟩]
      outputs := [⟨"y", .int32⟩], locals := []
      equations := [⟨["y"], .ifThenElse both (.const (.int 1))
        (.ifThenElse both (.const (.int 2)) (.const (.int 3)))⟩] }] }]

/-- Backends that read and write truth values only. -/
def boolBackends : Backends where
  machine := ⟨true, 10⟩
  parseInput _ _ text := .ok (.bool (text = "true"))
  cell _ := ""
  errorText _ := ""
  compileModel _ _ := none

def twiceRuns : List Coverage :=
  suiteRuns boolBackends twiceProject "N" ["a,b\ntrue,true\ntrue,false\nfalse,true\n"]

theorem own_eq (runs : List Coverage) (d : DecisionData) :
    own runs d = (· ∈ ((runs.flatMap (·.decisions)).filter fun x =>
      decide (x.key = d.key)).flatMap (·.trials)) := by
  funext t
  apply propext
  simp only [own, evaluations, List.mem_flatMap, List.mem_filter, decide_eq_true_eq]
  constructor
  · rintro ⟨c, hc, x, hx, hkey, ht⟩
    exact ⟨x, ⟨⟨c, hc, hx⟩, hkey⟩, ht⟩
  · rintro ⟨x, ⟨⟨c, hc, hx⟩, hkey⟩, ht⟩
    exact ⟨c, hc, x, hx, hkey, ht⟩

deriving instance DecidableEq for DecisionData

/-- The inner decision, which is only reached when it is false. -/
def innerDecision : DecisionData where
  key := ⟨"N", 0, [0, 2]⟩
  node := "N"
  context := "y"
  decisionText := "a and b"
  conditions := [(⟨"N", 0, [0, 0, 2]⟩, "a"), (⟨"N", 0, [1, 0, 2]⟩, "b")]
  trials := [⟨[true, false], false⟩, ⟨[false, true], false⟩]

end OpenLustre.Cli
