import OpenLustre.Ir.Project
import OpenLustre.Lib.Dependency

/-! Same-cycle evaluation order of a node's equations. -/

namespace OpenLustre.Ir

mutual

/-- Variables an expression reads in the current cycle: every variable not
under a `pre`.  Both arms of `->` count, and so do clock conditions. -/
def sameCycleReads : Expr → List String
  | .var name => [name]
  | .const _ | .pre _ => []
  | .unary _ arg | .cast _ arg | .field arg _ => sameCycleReads arg
  | .binary _ lhs rhs => sameCycleReads lhs ++ sameCycleReads rhs
  | .arrow init body => sameCycleReads init ++ sameCycleReads body
  | .ifThenElse c t e => sameCycleReads c ++ (sameCycleReads t ++ sameCycleReads e)
  | .call _ args => sameCycleReadsList args
  | .index base i => sameCycleReads base ++ sameCycleReads i
  | .tuple items | .array items => sameCycleReadsList items
  | .struct _ fields => sameCycleReadsFields fields
  | .when arg clock _ => clock :: sameCycleReads arg
  | .merge clock t f => clock :: (sameCycleReads t ++ sameCycleReads f)
  | .iterate _ _ none arrays => sameCycleReadsList arrays
  | .iterate _ _ (some init) arrays => sameCycleReads init ++ sameCycleReadsList arrays

def sameCycleReadsList : List Expr → List String
  | [] => []
  | e :: es => sameCycleReads e ++ sameCycleReadsList es

def sameCycleReadsFields : List (String × Expr) → List String
  | [] => []
  | (_, e) :: fields => sameCycleReads e ++ sameCycleReadsFields fields

end

namespace NodeDef

/-- The last equation that defines `name`. -/
def defBy (n : NodeDef) (name : String) : Option Nat :=
  (List.range n.equations.length).reverse.find? fun i =>
    (n.equations[i]?).any (·.lhs.contains name)

/-- The equations defining what the right-hand side of equation `i` reads. -/
def deps (n : NodeDef) (i : Nat) : List Nat :=
  match n.equations[i]? with
  | some eq => (sameCycleReads eq.rhs).filterMap n.defBy
  | none => []

end NodeDef

/-- One pass over the equations, appending each that is ready when its turn
comes.  An equation is done when it is in the order. -/
def sweep (n : NodeDef) (order : List Nat) : List Nat :=
  Dependency.pass n.deps n.equations.length order

/-- Repeat passes until every equation is placed; `none` when a pass places
nothing. -/
def sweeps (n : NodeDef) (fuel : Nat) (order : List Nat) : Option (List Nat) :=
  Dependency.passes n.deps n.equations.length fuel order

def stuckMessage (n : NodeDef) (order : List Nat) : String :=
  let stuck := n.equations.zipIdx.filterMap fun (eq, i) =>
    if order.contains i then none else some (String.intercalate ", " eq.lhs)
  "combinational cycle among the equations defining: " ++ String.intercalate "; " stuck

/-- The order in which a node's equations must execute so that every same-cycle
read of an equation-defined variable sees this cycle's value.  Among
simultaneously ready equations declaration order wins. -/
def evaluationOrder (n : NodeDef) : Except String (List Nat) :=
  let fuel := n.equations.length + 1
  match sweeps n fuel [] with
  | some order => .ok order
  | none => .error (stuckMessage n ((sweep n)^[fuel] []))

/-- No name is on two left-hand sides, or twice on one. -/
def NodeDef.SingleAssignment (n : NodeDef) : Prop := (n.equations.flatMap (·.lhs)).Nodup

instance (n : NodeDef) : Decidable n.SingleAssignment := inferInstanceAs (Decidable (List.Nodup _))

/-- Defining `a` reads `b` in the same cycle. -/
def SameCycleDep (n : NodeDef) (a b : String) : Prop :=
  ∃ eq ∈ n.equations, a ∈ eq.lhs ∧ b ∈ sameCycleReads eq.rhs

section

variable {n : NodeDef} {i j : Nat} {a b : String}

theorem defBy_eq_some (h : n.defBy a = some i) : ∃ eq, n.equations[i]? = some eq ∧ a ∈ eq.lhs := by
  have hi := List.find?_some h
  obtain ⟨eq, heq, hmem⟩ := Option.any_eq_true .. |>.mp hi
  exact ⟨eq, heq, by simpa using hmem⟩

theorem defBy_isSome {eq : Equation} (heq : n.equations[i]? = some eq) (ha : a ∈ eq.lhs) :
    (n.defBy a).isSome := by
  rw [NodeDef.defBy, List.find?_isSome]
  refine ⟨i, ?_, by simpa [heq] using ha⟩
  simpa using (List.getElem?_eq_some_iff.mp heq).1

theorem lt_of_getElem? {eq : Equation} (heq : n.equations[i]? = some eq) :
    i < n.equations.length := (List.getElem?_eq_some_iff.mp heq).1

theorem mem_deps : j ∈ n.deps i ↔
    ∃ eq, n.equations[i]? = some eq ∧ ∃ r ∈ sameCycleReads eq.rhs, n.defBy r = some j := by
  cases h : n.equations[i]? with
  | none => simp [NodeDef.deps, h]
  | some eq => simp [NodeDef.deps, h]

theorem deps_lt (n : NodeDef) (i j : Nat) (h : j ∈ n.deps i) :
    i < n.equations.length ∧ j < n.equations.length := by
  obtain ⟨eq, heq, r, -, hr⟩ := mem_deps.mp h
  obtain ⟨eq', heq', -⟩ := defBy_eq_some hr
  exact ⟨lt_of_getElem? heq, lt_of_getElem? heq'⟩

theorem evaluationOrder_eq_ok {order : List Nat} :
    evaluationOrder n = .ok order ↔ sweeps n (n.equations.length + 1) [] = some order := by
  cases h : sweeps n (n.equations.length + 1) [] with
  | none => simp [evaluationOrder, h]
  | some order' => simp [evaluationOrder, h]

theorem evaluationOrder_placed {order : List Nat} (h : evaluationOrder n = .ok order) :
    Dependency.Placed n.deps n.equations.length order ∧ n.equations.length ≤ order.length :=
  Dependency.Placed.nil.of_passes (evaluationOrder_eq_ok.mp h)

/-- A body can be ordered exactly when no equation depends on itself. -/
theorem evaluationOrder_isOk_iff :
    (∃ order, evaluationOrder n = .ok order) ↔ ¬ Dependency.Cyclic fun i j => j ∈ n.deps i := by
  rw [← Dependency.passes_isSome_iff (deps_lt n), Option.isSome_iff_exists]
  exact exists_congr fun order => evaluationOrder_eq_ok

theorem NodeDef.SingleAssignment.defBy (h : n.SingleAssignment) {eq : Equation}
    (heq : n.equations[i]? = some eq) (ha : a ∈ eq.lhs) : n.defBy a = some i := by
  obtain ⟨k, hk⟩ := Option.isSome_iff_exists.mp (defBy_isSome heq ha)
  obtain ⟨eq', heq', ha'⟩ := defBy_eq_some hk
  have disjoint := (List.nodup_flatMap.mp h).2
  rw [List.pairwise_iff_getElem] at disjoint
  obtain ⟨hi, rfl⟩ := List.getElem?_eq_some_iff.mp heq
  obtain ⟨hk', rfl⟩ := List.getElem?_eq_some_iff.mp heq'
  rcases lt_trichotomy i k with hlt | rfl | hgt
  · exact absurd ha' (disjoint i k hi hk' hlt ha)
  · exact hk
  · exact absurd ha (disjoint k i hk' hi hgt ha')

/-- The dependencies between equations and those between names have the same
cycles. -/
theorem cyclic_deps_iff (h : n.SingleAssignment) :
    Dependency.Cyclic (fun i j => j ∈ n.deps i) ↔ Dependency.Cyclic (SameCycleDep n) := by
  constructor
  · rintro ⟨i, hi⟩
    have lift {i j : Nat} (hij : Relation.TransGen (fun i j => j ∈ n.deps i) i j) :
        ∃ eq, n.equations[j]? = some eq ∧ ∃ b ∈ eq.lhs, ∀ eq', n.equations[i]? = some eq' →
          ∀ a ∈ eq'.lhs, Relation.TransGen (SameCycleDep n) a b := by
      induction hij with
      | single hij =>
        obtain ⟨eqi, hi, r, hr, hdef⟩ := mem_deps.mp hij
        obtain ⟨eqj, hj, hrj⟩ := defBy_eq_some hdef
        refine ⟨eqj, hj, r, hrj, fun eq' heq' a ha => .single ⟨eqi, List.mem_of_getElem? hi, ?_, hr⟩⟩
        obtain rfl : eqi = eq' := by simpa [hi] using heq'
        exact ha
      | tail _ hjk ih =>
        obtain ⟨eqj, hj, b, hb, hpath⟩ := ih
        obtain ⟨eqj', hj', r, hr, hdef⟩ := mem_deps.mp hjk
        obtain ⟨eqk, hk, hrk⟩ := defBy_eq_some hdef
        obtain rfl : eqj = eqj' := by simpa [hj] using hj'
        exact ⟨eqk, hk, r, hrk, fun eq' heq' a ha =>
          (hpath eq' heq' a ha).tail ⟨eqj, List.mem_of_getElem? hj, hb, hr⟩⟩
    obtain ⟨eq, heq, b, hb, hpath⟩ := lift hi
    exact ⟨b, hpath eq heq b hb⟩
  · rintro ⟨a, ha⟩
    have lift {a b : String} (hab : Relation.TransGen (SameCycleDep n) a b) {j : Nat}
        (hb : n.defBy b = some j) :
        ∃ i, n.defBy a = some i ∧ Relation.TransGen (fun i j => j ∈ n.deps i) i j := by
      induction hab using Relation.TransGen.head_induction_on with
      | single hab =>
        obtain ⟨eq, heq, ha, hr⟩ := hab
        obtain ⟨i, hi⟩ := List.mem_iff_getElem?.mp heq
        exact ⟨i, h.defBy hi ha, .single (mem_deps.mpr ⟨eq, hi, _, hr, hb⟩)⟩
      | head hac _ ih =>
        obtain ⟨k, hk, hkj⟩ := ih
        obtain ⟨eq, heq, ha, hr⟩ := hac
        obtain ⟨i, hi⟩ := List.mem_iff_getElem?.mp heq
        exact ⟨i, h.defBy hi ha, .head (mem_deps.mpr ⟨eq, hi, _, hr, hk⟩) hkj⟩
    have assigned : ∃ j, n.defBy a = some j := by
      obtain ⟨_, ⟨eq, heq, hmem, -⟩, -⟩ := Relation.TransGen.head'_iff.mp ha
      obtain ⟨i, hi⟩ := List.mem_iff_getElem?.mp heq
      exact ⟨i, h.defBy hi hmem⟩
    obtain ⟨j, hj⟩ := assigned
    obtain ⟨i, hi, hij⟩ := lift ha hj
    obtain rfl : j = i := by simpa [hj] using hi
    exact ⟨j, hij⟩

end

end OpenLustre.Ir
