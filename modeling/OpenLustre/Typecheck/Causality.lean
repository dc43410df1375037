import OpenLustre.Ir.Order
import OpenLustre.Typecheck.Check

/-! The static causality check against the scheduler.  The checker's dependency
map leaves out the body of every `->`, and it is not built for functions; the
scheduler's counts both. -/

namespace OpenLustre.Typecheck

open OpenLustre.Ir
open Relation (ReflTransGen)

mutual

/-- The same-cycle reads that lie in the body of a `->`. -/
def arrowBodyReads : Expr → List String
  | .var _ | .const _ | .pre _ => []
  | .arrow init body => arrowBodyReads init ++ sameCycleReads body
  | .unary _ arg | .cast _ arg | .field arg _ | .when arg _ _ => arrowBodyReads arg
  | .binary _ lhs rhs => arrowBodyReads lhs ++ arrowBodyReads rhs
  | .ifThenElse c t e => arrowBodyReads c ++ (arrowBodyReads t ++ arrowBodyReads e)
  | .call _ args => arrowBodyReadsList args
  | .index base i => arrowBodyReads base ++ arrowBodyReads i
  | .tuple items | .array items => arrowBodyReadsList items
  | .struct _ fields => arrowBodyReadsFields fields
  | .merge _ t f => arrowBodyReads t ++ arrowBodyReads f
  | .iterate _ _ none arrays => arrowBodyReadsList arrays
  | .iterate _ _ (some init) arrays => arrowBodyReads init ++ arrowBodyReadsList arrays

def arrowBodyReadsList : List Expr → List String
  | [] => []
  | e :: es => arrowBodyReads e ++ arrowBodyReadsList es

def arrowBodyReadsFields : List (String × Expr) → List String
  | [] => []
  | (_, e) :: fields => arrowBodyReads e ++ arrowBodyReadsFields fields

end

/-- Defining `a` reads `b` outside every `pre` and every body of a `->`. -/
def ImmediateDep (n : NodeDef) (a b : String) : Prop :=
  ∃ eq ∈ n.equations, a ∈ eq.lhs ∧ b ∈ collectImmediateDeps eq.rhs

/-- Defining `a` reads `b` in the body of a `->`. -/
def ArrowBodyDep (n : NodeDef) (a b : String) : Prop :=
  ∃ eq ∈ n.equations, a ∈ eq.lhs ∧ b ∈ arrowBodyReads eq.rhs

/-- A loop that needs no `->` body. -/
def ImmediateLoop (n : NodeDef) : Prop := Dependency.Cyclic (ImmediateDep n)

/-- A loop through the body of a `->`: what the body reads depends, in the same
cycle, on what the equation defines. -/
def ArrowBodyLoop (n : NodeDef) : Prop :=
  ∃ a b, ArrowBodyDep n a b ∧ ReflTransGen (SameCycleDep n) b a

/-- The order the C emitter writes the equations in. -/
def emissionOrder (n : NodeDef) : List Nat :=
  match evaluationOrder n with
  | .ok order => order
  | .error _ => List.range n.equations.length

section Reads

variable {x : String}

theorem mem_sameCycleReadsList {es : List Expr} :
    x ∈ sameCycleReadsList es ↔ ∃ e ∈ es, x ∈ sameCycleReads e := by
  induction es with
  | nil => simp [sameCycleReadsList]
  | cons e es ih => simp [sameCycleReadsList, ih]

theorem mem_sameCycleReadsFields {fields : List (String × Expr)} :
    x ∈ sameCycleReadsFields fields ↔ ∃ f ∈ fields, x ∈ sameCycleReads f.2 := by
  induction fields with
  | nil => simp [sameCycleReadsFields]
  | cons f fields ih => simp [sameCycleReadsFields, ih]

theorem mem_collectImmediateDepsList {es : List Expr} :
    x ∈ collectImmediateDepsList es ↔ ∃ e ∈ es, x ∈ collectImmediateDeps e := by
  induction es with
  | nil => simp [collectImmediateDepsList]
  | cons e es ih => simp [collectImmediateDepsList, ih]

theorem mem_collectImmediateDepsFields {fields : List (String × Expr)} :
    x ∈ collectImmediateDepsFields fields ↔ ∃ f ∈ fields, x ∈ collectImmediateDeps f.2 := by
  induction fields with
  | nil => simp [collectImmediateDepsFields]
  | cons f fields ih => simp [collectImmediateDepsFields, ih]

theorem mem_arrowBodyReadsList {es : List Expr} :
    x ∈ arrowBodyReadsList es ↔ ∃ e ∈ es, x ∈ arrowBodyReads e := by
  induction es with
  | nil => simp [arrowBodyReadsList]
  | cons e es ih => simp [arrowBodyReadsList, ih]

theorem mem_arrowBodyReadsFields {fields : List (String × Expr)} :
    x ∈ arrowBodyReadsFields fields ↔ ∃ f ∈ fields, x ∈ arrowBodyReads f.2 := by
  induction fields with
  | nil => simp [arrowBodyReadsFields]
  | cons f fields ih => simp [arrowBodyReadsFields, ih]

theorem exists_mem_congr_or {α : Type} {l : List α} {p q r : α → Prop}
    (h : ∀ a ∈ l, p a ↔ q a ∨ r a) : (∃ a ∈ l, p a) ↔ (∃ a ∈ l, q a) ∨ ∃ a ∈ l, r a := by
  constructor
  · rintro ⟨a, ha, hp⟩
    exact ((h a ha).mp hp).imp (⟨a, ha, ·⟩) (⟨a, ha, ·⟩)
  · rintro (⟨a, ha, hq⟩ | ⟨a, ha, hr⟩)
    · exact ⟨a, ha, (h a ha).mpr (.inl hq)⟩
    · exact ⟨a, ha, (h a ha).mpr (.inr hr)⟩

/-- The two dependency analyses differ by the reads in the body of a `->`. -/
theorem mem_sameCycleReads_iff (e : Expr) :
    x ∈ sameCycleReads e ↔ x ∈ collectImmediateDeps e ∨ x ∈ arrowBodyReads e := by
  induction e with
  | const | var | pre => simp [sameCycleReads, collectImmediateDeps, arrowBodyReads]
  | unary _ _ ih | cast _ _ ih | field _ _ ih =>
    simpa [sameCycleReads, collectImmediateDeps, arrowBodyReads] using ih
  | when _ _ _ ih =>
    simp only [sameCycleReads, collectImmediateDeps, arrowBodyReads, List.mem_cons, ih, or_assoc]
  | binary _ _ _ ihl ihr | index _ _ ihl ihr =>
    simp only [sameCycleReads, collectImmediateDeps, arrowBodyReads, List.mem_append, ihl, ihr]
    tauto
  | merge _ _ _ iht ihf =>
    simp only [sameCycleReads, collectImmediateDeps, arrowBodyReads, List.mem_cons,
      List.mem_append, iht, ihf]
    tauto
  | arrow _ _ ihi _ =>
    simp only [sameCycleReads, collectImmediateDeps, arrowBodyReads, List.mem_append, ihi, or_assoc]
  | ifThenElse _ _ _ ihc iht ihe =>
    simp only [sameCycleReads, collectImmediateDeps, arrowBodyReads, List.mem_append, ihc, iht, ihe]
    tauto
  | call _ _ ih | tuple _ ih | array _ ih =>
    simp only [sameCycleReads, collectImmediateDeps, arrowBodyReads, mem_sameCycleReadsList,
      mem_collectImmediateDepsList, mem_arrowBodyReadsList]
    exact exists_mem_congr_or ih
  | struct _ _ ih =>
    simp only [sameCycleReads, collectImmediateDeps, arrowBodyReads, mem_sameCycleReadsFields,
      mem_collectImmediateDepsFields, mem_arrowBodyReadsFields]
    exact exists_mem_congr_or ih
  | iterate _ _ init arrays ihi iha =>
    have harrays := exists_mem_congr_or iha
    cases init with
    | none =>
      simp only [sameCycleReads, collectImmediateDeps, arrowBodyReads, mem_sameCycleReadsList,
        mem_collectImmediateDepsList, mem_arrowBodyReadsList]
      exact harrays
    | some init =>
      simp only [sameCycleReads, collectImmediateDeps, arrowBodyReads, mem_sameCycleReadsList,
        mem_collectImmediateDepsList, mem_arrowBodyReadsList, List.mem_append, harrays,
        ihi init rfl]
      exact or_or_or_comm

end Reads

section Loops

variable {n : NodeDef} {a b : String}

theorem sameCycleDep_iff : SameCycleDep n a b ↔ ImmediateDep n a b ∨ ArrowBodyDep n a b := by
  unfold SameCycleDep ImmediateDep ArrowBodyDep
  simp only [mem_sameCycleReads_iff]
  grind

theorem cyclic_sameCycleDep_iff :
    Dependency.Cyclic (SameCycleDep n) ↔ ImmediateLoop n ∨ ArrowBodyLoop n := by
  have heq : SameCycleDep n = fun a b => ImmediateDep n a b ∨ ArrowBodyDep n a b :=
    funext₂ fun _ _ => propext sameCycleDep_iff
  unfold ImmediateLoop ArrowBodyLoop
  rw [heq]
  exact Dependency.cyclic_or

theorem mem_insertSorted {x y : String} {ys : List String} :
    x ∈ insertSorted y ys ↔ x = y ∨ x ∈ ys := by
  induction ys with
  | nil => simp [insertSorted]
  | cons z zs ih =>
    simp only [insertSorted]
    split
    case isTrue h => simp [h]
    case isFalse =>
      split
      · simp
      · simp only [List.mem_cons, ih]
        tauto

@[simp] theorem mem_sortedSet {x : String} {xs : List String} : x ∈ sortedSet xs ↔ x ∈ xs := by
  have step (xs set : List String) :
      x ∈ xs.foldl (fun set x => insertSorted x set) set ↔ x ∈ set ∨ x ∈ xs := by
    induction xs generalizing set with
    | nil => simp
    | cons y ys ih =>
      rw [List.foldl_cons, ih, mem_insertSorted, List.mem_cons]
      tauto
  simpa [sortedSet] using step xs []

theorem mem_immediateDeps : b ∈ immediateDeps n a ↔ ImmediateDep n a b := by
  simp [immediateDeps, ImmediateDep, and_assoc]

theorem mem_assignedNames (h : immediateDeps n a ≠ []) : a ∈ assignedNames n := by
  obtain ⟨b, hb⟩ := List.exists_mem_of_ne_nil _ h
  obtain ⟨eq, heq, ha, -⟩ := mem_immediateDeps.mp hb
  simpa [assignedNames] using ⟨eq, heq, ha⟩

/-- The checker reports a cycle exactly when there is one that needs no `->`
body. -/
theorem detectCombinationalCycle_isSome_iff :
    (detectCombinationalCycle n).isSome ↔ ImmediateLoop n := by
  have heq : ImmediateDep n = fun a b => b ∈ immediateDeps n a :=
    funext₂ fun _ _ => propext mem_immediateDeps.symm
  unfold ImmediateLoop
  rw [heq]
  exact Dependency.search_isSome_iff (fun _ => mem_assignedNames) (by omega)

/-- The scheduler orders a body exactly when it has no loop of either kind. -/
theorem evaluationOrder_isOk_iff_no_loop (h : n.SingleAssignment) :
    (∃ order, evaluationOrder n = .ok order) ↔ ¬ ImmediateLoop n ∧ ¬ ArrowBodyLoop n := by
  rw [evaluationOrder_isOk_iff, cyclic_deps_iff h, cyclic_sameCycleDep_iff, not_or]

theorem exists_error_iff_not_exists_ok {ε α : Type} {r : Except ε α} :
    (∃ e, r = .error e) ↔ ¬ ∃ a, r = .ok a := by
  cases r <;> simp

/-- The emitted order puts every equation after what it reads exactly when there
is an order that does. -/
theorem emissionOrder_before_iff :
    (∀ i, ∀ j ∈ n.deps i, Dependency.Before (emissionOrder n) j i) ↔
      ∃ order, evaluationOrder n = .ok order := by
  constructor
  · intro hbefore
    cases h : evaluationOrder n with
    | ok order => exact ⟨order, rfl⟩
    | error msg =>
      have hcyclic : Dependency.Cyclic fun i j => j ∈ n.deps i := by
        by_contra acyclic
        obtain ⟨order, horder⟩ := evaluationOrder_isOk_iff.mpr acyclic
        simp [horder] at h
      simp only [emissionOrder, h] at hbefore
      obtain ⟨i, hi⟩ := hcyclic
      have step (i j : Nat) (hij : j ∈ n.deps i) : j < i := by
        obtain ⟨before, after, hrange, hj⟩ := hbefore i j hij
        have hsorted : (before ++ i :: after).Pairwise (· < ·) := hrange ▸ List.pairwise_lt_range
        exact (List.pairwise_append.mp hsorted).2.2 j hj i List.mem_cons_self
      have hlt {i j : Nat} (hij : Relation.TransGen (fun i j => j ∈ n.deps i) i j) : j < i := by
        induction hij with
        | single hij => exact step _ _ hij
        | tail _ hjk ih => exact (step _ _ hjk).trans ih
      exact absurd (hlt hi) (lt_irrefl i)
  · rintro ⟨order, horder⟩ i j hj
    obtain ⟨hplaced, hlen⟩ := evaluationOrder_placed horder
    have hi : i ∈ order :=
      (hplaced.perm hlen).mem_iff.mpr (List.mem_range.mpr (deps_lt n i j hj).1)
    simpa [emissionOrder, horder] using hplaced.before hi hj

end Loops

/-- For the bodies of an accepted project: the scheduler, and with it the emitted
order, succeeds exactly when no loop runs through the body of a `->` and a
function has no loop at all; and the two analyses agree on a body exactly when a
loop through the body of a `->` comes with one that does not. -/
theorem Accepted.causality (p : Project) (h : Accepted p) : ∀ n ∈ p.allNodes,
    ((∃ order, evaluationOrder n = .ok order) ↔
      ¬ ArrowBodyLoop n ∧ (n.isFunction → ¬ ImmediateLoop n)) ∧
    ((∀ i, ∀ j ∈ n.deps i, Dependency.Before (emissionOrder n) j i) ↔
      ¬ ArrowBodyLoop n ∧ (n.isFunction → ¬ ImmediateLoop n)) ∧
    (((detectCombinationalCycle n).isSome ↔ ∃ msg, evaluationOrder n = .error msg) ↔
      (ArrowBodyLoop n → ImmediateLoop n)) := by
  intro n hn
  have hsingle := h.singleAssignment hn
  have hchecked : n.isFunction = false → ¬ ImmediateLoop n := fun hfun => by
    rw [← detectCombinationalCycle_isSome_iff, h.no_cycle hn hfun]
    simp
  have hok : (∃ order, evaluationOrder n = .ok order) ↔
      ¬ ArrowBodyLoop n ∧ (n.isFunction → ¬ ImmediateLoop n) := by
    rw [evaluationOrder_isOk_iff_no_loop hsingle]
    cases hfun : n.isFunction with
    | true => simp [and_comm]
    | false => simp [hchecked hfun]
  refine ⟨hok, emissionOrder_before_iff.trans hok, ?_⟩
  rw [exists_error_iff_not_exists_ok, evaluationOrder_isOk_iff_no_loop hsingle,
    detectCombinationalCycle_isSome_iff]
  tauto

/-- A node with the two equations `x = ...; y = ...`. -/
def twoEquations (x y : Expr) : NodeDef where
  name := "N"
  kind := .operator
  inputs := []
  outputs := [⟨"x", .int32⟩, ⟨"y", .int32⟩]
  locals := []
  equations := [⟨["x"], x⟩, ⟨["y"], y⟩]

def oneNode (n : NodeDef) : Project where
  packages := [{ name := "main", nodes := [n] }]

theorem Accepted.causality_delayed :
    ¬ ArrowBodyLoop (twoEquations (.arrow (.const (.int 0)) (.pre (.var "y"))) (.var "x")) :=
  ((Accepted.causality (oneNode _) (by decide) _ List.mem_cons_self).1.mp
    ⟨[0, 1], by decide⟩).1

/-- The checker accepts `x = 0 -> y; y = x`, which has no order. -/
theorem exists_accepted_unorderable :
    ¬ ∀ p, Accepted p → ∀ n ∈ p.allNodes, ∃ order, evaluationOrder n = .ok order := by
  intro h
  obtain ⟨order, horder⟩ := h (oneNode (twoEquations (.arrow (.const (.int 0)) (.var "y")) (.var "x")))
    (by decide) _ List.mem_cons_self
  have hstuck : sweeps (twoEquations (.arrow (.const (.int 0)) (.var "y")) (.var "x")) 3 [] = none := by
    decide
  have hsome : sweeps _ 3 [] = some order := evaluationOrder_eq_ok.mp horder
  rw [hstuck] at hsome
  simp at hsome

end OpenLustre.Typecheck
