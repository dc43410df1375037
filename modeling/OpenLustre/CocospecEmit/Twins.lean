import OpenLustre.CocospecEmit.Propagate
import OpenLustre.Lib.BreadthFirst

/-! Specification twins: a contract that calls a node which gained outputs calls a twin of it
without them. -/

namespace OpenLustre.CocospecEmit

open OpenLustre.Ir BreadthFirst

mutual

/-- Change the nodes that an expression calls. -/
def renameCalls (f : String → String) : Expr → Expr
  | .const lit => .const lit
  | .var name => .var name
  | .unary op arg => .unary op (renameCalls f arg)
  | .binary op lhs rhs => .binary op (renameCalls f lhs) (renameCalls f rhs)
  | .ifThenElse c t e => .ifThenElse (renameCalls f c) (renameCalls f t) (renameCalls f e)
  | .pre arg => .pre (renameCalls f arg)
  | .arrow init body => .arrow (renameCalls f init) (renameCalls f body)
  | .call node args => .call (f node) (renameCallsList f args)
  | .field base field => .field (renameCalls f base) field
  | .index base i => .index (renameCalls f base) (renameCalls f i)
  | .tuple items => .tuple (renameCallsList f items)
  | .array items => .array (renameCallsList f items)
  | .struct ty fields => .struct ty (renameCallsFields f fields)
  | .cast target arg => .cast target (renameCalls f arg)
  | .when arg clock on => .when (renameCalls f arg) clock on
  | .merge clock t e => .merge clock (renameCalls f t) (renameCalls f e)
  | .iterate kind node none arrays => .iterate kind node none (renameCallsList f arrays)
  | .iterate kind node (some init) arrays =>
    .iterate kind node (some (renameCalls f init)) (renameCallsList f arrays)

def renameCallsList (f : String → String) : List Expr → List Expr
  | [] => []
  | e :: es => renameCalls f e :: renameCallsList f es

def renameCallsFields (f : String → String) : List (String × Expr) → List (String × Expr)
  | [] => []
  | (field, e) :: fields => (field, renameCalls f e) :: renameCallsFields f fields

end

/-- The expressions of a contract's clauses, in the order they are gone through. -/
def clauses (c : ContractDef) : List Expr :=
  c.ghostVars.map (·.definition) ++ c.assumptions.map (·.expr) ++ c.guarantees.map (·.expr) ++
    c.modes.flatMap fun m => m.requires ++ m.ensures

/-- The name of a node's twin. -/
def twin (name : String) : String := "__ol_spec_" ++ name

/-- The outputs of each node before checks were passed up; a later node of a name wins. -/
def originalOutputs (p : Project) (name : String) : Option (List Port) :=
  (p.allNodes.reverse.find? (·.name = name)).map (·.outputs)

/-- What the twins are made from: the project with the checks passed up, the outputs its nodes
had, the project before the checks, and the rewriting of its nodes. -/
structure TwinSource where
  semantic : Project
  original : String → Option (List Port)
  beforeChecks : Project
  typer : ExprTyper

namespace TwinSource

variable (s : TwinSource)

/-- The nodes that gained outputs. -/
def grown : List String :=
  (s.semantic.allNodes.filter fun n =>
    (s.original n.name).any fun outputs => outputs.length ≠ n.outputs.length).map (·.name)

def grownCalls (e : Expr) : List String := (calls e).filter (· ∈ s.grown)

def rename (e : Expr) : Expr :=
  renameCalls (fun name => if name ∈ s.grown then twin name else name) e

/-- The twin of a node, of its rewritten definition `t`. -/
def twinOf (name : String) (t : NodeDef) : NodeDef :=
  { t with
    name := twin name
    equations := t.equations.map fun eq => ⟨eq.lhs, s.rename eq.rhs⟩
    contract := none }

/-- The definition a twin is made from. -/
def spec (name : String) : Option NodeDef :=
  (s.beforeChecks.findNode name).map (Rewriter.node s.typer)

/-- Make the twin of each wanted node from the one at `i` on, and note the grown nodes it
calls. -/
def makeTwins : Nat → Nat → List String → List NodeDef → List String × List NodeDef
  | 0, _, wanted, twins => (wanted, twins)
  | fuel + 1, i, wanted, twins =>
    match wanted[i]? with
    | none => (wanted, twins)
    | some name =>
      match s.spec name with
      | none => makeTwins fuel (i + 1) wanted twins
      | some t =>
        makeTwins fuel (i + 1) (note wanted (t.equations.flatMap fun eq => s.grownCalls eq.rhs))
          (twins ++ [s.twinOf name t])

/-- The grown nodes that the clauses of the contracts call. -/
def clauseCalls (contracts : List ContractDef) : List String :=
  contracts.flatMap fun c => (clauses c).flatMap s.grownCalls

end TwinSource

/-- Add nodes to the last package. -/
def extendLast (nodes : List NodeDef) : List Package → List Package
  | [] => []
  | [pkg] => [{ pkg with nodes := pkg.nodes ++ nodes }]
  | pkg :: pkgs => pkg :: extendLast nodes pkgs

/-- Nodes a contract calls keep their own signature there: when checks were passed up through
one, the contract calls a twin without them. -/
def specTwins (s : TwinSource) (contracts : List ContractDef) : Project × List ContractDef :=
  let wanted := note [] (s.clauseCalls contracts)
  if wanted = [] then (s.semantic, contracts)
  else
    let twins := (s.makeTwins s.grown.length 0 wanted []).2
    -- After the nodes they call; each twin after the twins it calls.
    ({ s.semantic with packages := extendLast twins.reverse s.semantic.packages },
      contracts.map (mapContract s.rename))

section

variable (f : String → String)

theorem renameCallsList_eq (es : List Expr) : renameCallsList f es = es.map (renameCalls f) := by
  induction es with
  | nil => rfl
  | cons e es ih => rw [renameCallsList, ih, List.map_cons]

theorem renameCallsFields_eq (fields : List (String × Expr)) :
    renameCallsFields f fields = fields.map fun x => (x.1, renameCalls f x.2) := by
  induction fields with
  | nil => rfl
  | cons x fields ih => rw [renameCallsFields, ih, List.map_cons]

theorem children_renameCalls (e : Expr) :
    (renameCalls f e).children = e.children.map (renameCalls f) := by
  cases e with
  | iterate kind node init arrays =>
    cases init <;> simp [renameCalls, Expr.children, renameCallsList_eq]
  | struct ty fields => simp [renameCalls, Expr.children, renameCallsFields_eq]
  | _ => simp [renameCalls, Expr.children, renameCallsList_eq]

/-- The node that an expression itself calls. -/
def callHead : Expr → List String
  | .call node _ => [node]
  | _ => []

theorem calls_eq (e : Expr) : calls e = callHead e ++ e.children.flatMap calls := by
  unfold calls
  rw [Expr.subterms_eq, List.filterMap_cons, List.filterMap_flatMap]
  cases e <;> rfl

theorem callHead_renameCalls (e : Expr) : callHead (renameCalls f e) = (callHead e).map f := by
  cases e with
  | iterate kind node init arrays => cases init <;> rfl
  | _ => rfl

/-- The renamed expression calls the renamed nodes. -/
theorem calls_renameCalls (e : Expr) : calls (renameCalls f e) = (calls e).map f := by
  induction e using Expr.children_induct with
  | h e ih =>
    rw [calls_eq, calls_eq e, callHead_renameCalls, children_renameCalls, List.map_append,
      List.flatMap_map, List.map_flatMap]
    rw [List.flatMap_congr ih]

end

theorem clauses_mapContract (g : Expr → Expr) (c : ContractDef) :
    clauses (mapContract g c) = (clauses c).map g := by
  simp [clauses, mapContract, List.map_flatMap, List.flatMap_map, Function.comp_def]

theorem twin_injective : Function.Injective twin := fun a b h => by
  simpa [twin] using h

theorem allNodes_extendLast (nodes : List NodeDef) {pkgs : List Package} (h : pkgs ≠ []) :
    (extendLast nodes pkgs).flatMap (·.nodes) = pkgs.flatMap (·.nodes) ++ nodes := by
  induction pkgs with
  | nil => exact absurd rfl h
  | cons pkg pkgs ih =>
    cases pkgs with
    | nil => simp [extendLast]
    | cons pkg' pkgs => simp [extendLast, ih]

namespace TwinSource

variable (s : TwinSource) (contracts : List ContractDef)

/-- The grown nodes that a node's twin is made to call the twins of. -/
def twinCalls (name : String) : List String :=
  match s.spec name with
  | none => []
  | some t => t.equations.flatMap fun eq => s.grownCalls eq.rhs

/-- The grown nodes that the clauses call, and those that the twins of such nodes call. -/
inductive Reached : String → Prop
  | clause {name : String} (h : name ∈ s.clauseCalls contracts) : Reached name
  | call {name callee : String} (h : Reached name) (hc : callee ∈ s.twinCalls name) :
    Reached callee

/-- The twins are closed and ordered in `p`, and the contracts are rewritten to `rewritten`. -/
structure ClosedOrdered (p : Project) (rewritten : List ContractDef) : Prop where
  /-- Every node reached has one twin, with the outputs and the body it had. -/
  twinned : ∀ name, s.Reached contracts name → ∃ n t, s.beforeChecks.findNode name = some n ∧
    p.allNodes.filter (·.name = twin name) = [t] ∧ t.inputs = n.inputs ∧ t.outputs = n.outputs ∧
      t.locals = n.locals ∧ t.equations =
        (Rewriter.node s.typer n).equations.map fun eq => ⟨eq.lhs, s.rename eq.rhs⟩
  /-- Each twin comes after the twins it calls. -/
  ordered : ∀ name callee, s.Reached contracts name → callee ∈ s.twinCalls name →
    [twin callee, twin name].Sublist (p.allNodes.map (·.name))
  /-- No clause and no twin calls a grown node. -/
  clausesRewritten : ∀ c ∈ rewritten, ∀ e ∈ clauses c, ∀ g ∈ calls e, g ∉ s.grown
  twinsRewritten : ∀ name, s.Reached contracts name → ∀ t ∈ p.allNodes, t.name = twin name →
    ∀ eq ∈ t.equations, ∀ g ∈ calls eq.rhs, g ∉ s.grown

/-- Every node reached was a node before the checks. -/
def Known : Prop :=
  ∀ name, s.Reached contracts name → ∃ n, s.beforeChecks.findNode name = some n

/-- No node has the name of the twin of a node reached. -/
def Free : Prop :=
  ∀ name, s.Reached contracts name → ∀ n ∈ s.semantic.allNodes, n.name ≠ twin name

/-- When the twins come out closed and ordered. -/
structure Fits : Prop where
  known : s.Known contracts
  free : s.Free contracts
  sooner : ∀ name callee, s.Reached contracts name → callee ∈ s.twinCalls name →
    Sooner s.twinCalls (s.clauseCalls contracts) name callee

/-- The nodes wanted in the end, in the order they are found in. -/
def wanted : List String := discover s.twinCalls s.grown.length 0 (note [] (s.clauseCalls contracts))

/-- The twin of a node, when it was a node before the checks. -/
def made (name : String) : Option NodeDef := (s.spec name).map (s.twinOf name)

theorem made_none {name : String} (h : s.spec name = none) :
    s.made name = none ∧ s.twinCalls name = [] := by
  simp [made, twinCalls, h]

theorem made_some {name : String} {t : NodeDef} (h : s.spec name = some t) :
    s.made name = some (s.twinOf name t) ∧
      s.twinCalls name = t.equations.flatMap fun eq => s.grownCalls eq.rhs := by
  simp [made, twinCalls, h]

/-- The item at a place is still there when more have been discovered. -/
theorem drop_discover {fuel i j : Nat} {wanted : List String} {name : String}
    (h : wanted[i]? = some name) (xs : List String) :
    (discover s.twinCalls fuel j (note wanted xs)).drop i =
      name :: (discover s.twinCalls fuel j (note wanted xs)).drop (i + 1) := by
  have hextends := (note_extends wanted xs).trans (discover_extends s.twinCalls fuel j _)
  obtain ⟨hi, rfl⟩ := List.getElem?_eq_some_iff.mp h
  rw [List.drop_eq_getElem_cons (hi.trans_le hextends.length_le), hextends.getElem hi]

theorem makeTwins_eq (fuel i : Nat) (wanted : List String) (twins : List NodeDef) :
    s.makeTwins fuel i wanted twins =
      (discover s.twinCalls fuel i wanted,
        twins ++ (((discover s.twinCalls fuel i wanted).drop i).take fuel).filterMap s.made) := by
  induction fuel generalizing i wanted twins with
  | zero => simp [makeTwins, discover]
  | succ fuel ih =>
    rw [makeTwins, discover]
    cases hi : wanted[i]? with
    | none =>
      have hdrop : wanted.drop i = [] := List.drop_eq_nil_iff.mpr (List.getElem?_eq_none_iff.mp hi)
      simp [hdrop]
    | some name =>
      dsimp only
      rw [s.drop_discover hi (s.twinCalls name), List.take_succ_cons, List.filterMap_cons]
      cases hs : s.spec name with
      | none =>
        obtain ⟨hmade, hcalls⟩ := s.made_none hs
        rw [hmade, hcalls]
        exact ih (i + 1) wanted twins
      | some t =>
        obtain ⟨hmade, hcalls⟩ := s.made_some hs
        rw [hmade, hcalls]
        simp only [ih, List.append_assoc, List.singleton_append]

theorem mem_grownCalls {e : Expr} {g : String} :
    g ∈ s.grownCalls e ↔ g ∈ calls e ∧ g ∈ s.grown := by
  simp [grownCalls]

theorem twinCalls_grown (name : String) : ∀ g ∈ s.twinCalls name, g ∈ s.grown := by
  intro g hg
  cases hs : s.spec name with
  | none => simp [(s.made_none hs).2] at hg
  | some t =>
    rw [(s.made_some hs).2, List.mem_flatMap] at hg
    obtain ⟨eq, -, hg⟩ := hg
    exact (s.mem_grownCalls.mp hg).2

theorem clauseCalls_grown : ∀ g ∈ s.clauseCalls contracts, g ∈ s.grown := by
  intro g hg
  obtain ⟨c, -, hg⟩ := List.mem_flatMap.mp hg
  obtain ⟨e, -, hg⟩ := List.mem_flatMap.mp hg
  exact (s.mem_grownCalls.mp hg).2

theorem Reached.grown {s : TwinSource} {contracts : List ContractDef} {name : String}
    (h : s.Reached contracts name) : name ∈ s.grown := by
  cases h with
  | clause h => exact s.clauseCalls_grown contracts name h
  | call _ h => exact s.twinCalls_grown _ name h

theorem reached_iff {name : String} :
    s.Reached contracts name ↔ ∃ π, Path s.twinCalls (s.clauseCalls contracts) π name := by
  constructor
  · intro h
    induction h with
    | clause h =>
      obtain ⟨i, hi⟩ := List.mem_iff_getElem?.mp h
      exact ⟨[i], .root hi⟩
    | call _ hc ih =>
      obtain ⟨π, hπ⟩ := ih
      obtain ⟨i, hi⟩ := List.mem_iff_getElem?.mp hc
      exact ⟨π ++ [i], .step hπ hi⟩
  · rintro ⟨π, h⟩
    induction h with
    | root hi => exact .clause (List.mem_of_getElem? hi)
    | step _ hy ih => exact .call ih (List.mem_of_getElem? hy)

/-- The nodes wanted are those reached, each of them once. -/
theorem mem_wanted {name : String} : name ∈ s.wanted contracts ↔ s.Reached contracts name := by
  rw [reached_iff]
  exact mem_discover (s.clauseCalls_grown contracts) s.twinCalls_grown le_rfl

theorem wanted_nodup : (s.wanted contracts).Nodup :=
  discover_nodup (s.clauseCalls_grown contracts) s.twinCalls_grown le_rfl

/-- The loop makes the twin of every node wanted. -/
theorem makeTwins_wanted :
    (s.makeTwins s.grown.length 0 (note [] (s.clauseCalls contracts)) []).2 =
      (s.wanted contracts).filterMap s.made := by
  have hlen : (s.wanted contracts).length ≤ s.grown.length :=
    discover_length (s.clauseCalls_grown contracts) s.twinCalls_grown le_rfl
  rw [makeTwins_eq, ← wanted, List.drop_zero, List.take_of_length_le hlen]
  rfl

theorem specTwins_none (h : s.clauseCalls contracts = []) :
    specTwins s contracts = (s.semantic, contracts) := by
  simp [specTwins, h, note]

theorem mem_grown {name : String} (h : name ∈ s.grown) :
    ∃ n ∈ s.semantic.allNodes, n.name = name := by
  obtain ⟨n, hn, hname⟩ := List.mem_map.mp h
  exact ⟨n, (List.mem_filter.mp hn).1, hname⟩

/-- The twins come after all other nodes, those made last first. -/
theorem specTwins_some (h : s.clauseCalls contracts ≠ []) :
    (specTwins s contracts).1.allNodes =
        s.semantic.allNodes ++ ((s.wanted contracts).filterMap s.made).reverse ∧
      (specTwins s contracts).2 = contracts.map (mapContract s.rename) := by
  obtain ⟨name, hname⟩ := List.exists_mem_of_ne_nil _ h
  have hnote : note [] (s.clauseCalls contracts) ≠ [] := by
    rw [Ne, note_eq_nil]
    exact h
  have hpackages : s.semantic.packages ≠ [] := by
    intro hnil
    obtain ⟨n, hn, -⟩ := s.mem_grown (s.clauseCalls_grown contracts name hname)
    simp [Project.allNodes, hnil] at hn
  rw [specTwins, if_neg hnote, makeTwins_wanted]
  exact ⟨allNodes_extendLast _ hpackages, rfl⟩

theorem not_reached_of_nil (h : s.clauseCalls contracts = []) (name : String) :
    ¬ s.Reached contracts name := by
  intro hr
  induction hr with
  | clause hc => simp [h] at hc
  | call _ _ ih => exact ih

theorem clauseCalls_ne_nil {name : String} (h : s.Reached contracts name) :
    s.clauseCalls contracts ≠ [] := fun hnil => s.not_reached_of_nil contracts hnil name h

theorem spec_eq {name : String} {n : NodeDef} (h : s.beforeChecks.findNode name = some n) :
    s.spec name = some (Rewriter.node s.typer n) := by
  rw [spec, h]
  rfl

theorem made_name {name : String} {t : NodeDef} (h : s.made name = some t) :
    t.name = twin name := by
  obtain ⟨d, -, rfl⟩ := Option.map_eq_some_iff.mp h
  rfl

/-- The twins of a name are made from that name only. -/
theorem filter_made (name : String) (names : List String) :
    (names.filterMap s.made).filter (·.name = twin name) =
      (names.filter (· = name)).filterMap s.made := by
  induction names with
  | nil => rfl
  | cons a names ih =>
    rw [List.filterMap_cons, List.filter_cons]
    cases ha : s.made a with
    | none =>
      rw [ih]
      split
      · rw [List.filterMap_cons, ha]
      · rfl
    | some t =>
      rw [List.filter_cons, ih]
      by_cases hname : a = name
      · subst hname
        simp [s.made_name ha, ha]
      · have hne : t.name ≠ twin name := by
          rw [s.made_name ha]
          exact twin_injective.ne hname
        simp [hne, hname]

theorem twins_filter {name : String} {t : NodeDef} (h : s.Reached contracts name)
    (ht : s.made name = some t) :
    (((s.wanted contracts).filterMap s.made).reverse.filter (·.name = twin name)) = [t] := by
  have hcount : (s.wanted contracts).count name = 1 :=
    List.count_eq_one_of_mem (s.wanted_nodup contracts) ((s.mem_wanted contracts).mpr h)
  rw [List.filter_reverse, filter_made, List.filter_eq, hcount, List.replicate_one]
  simp [ht]

variable {s contracts}

theorem names_made (h : s.Known contracts) :
    ((s.wanted contracts).filterMap s.made).map (·.name) = (s.wanted contracts).map twin := by
  have hmap {names : List String} (hnames : ∀ name ∈ names, s.Reached contracts name) :
      (names.filterMap s.made).map (·.name) = names.map twin := by
    induction names with
    | nil => rfl
    | cons name names ih =>
      obtain ⟨hname, hnames⟩ := List.forall_mem_cons.mp hnames
      obtain ⟨n, hn⟩ := h name hname
      have hmade := (s.made_some (s.spec_eq hn)).1
      rw [List.filterMap_cons, hmade, List.map_cons, List.map_cons, ih hnames]
      rfl
  exact hmap fun name => (s.mem_wanted contracts).mp

theorem Free.not_grown (h : s.Free contracts) {name : String} (hname : s.Reached contracts name) :
    twin name ∉ s.grown := by
  intro hg
  obtain ⟨n, hn, heq⟩ := s.mem_grown hg
  exact h name hname n hn heq

/-- A renamed expression calls no grown node when the twins of those it called have names of
their own. -/
theorem rename_calls (h : s.Free contracts) {e : Expr}
    (he : ∀ g ∈ s.grownCalls e, s.Reached contracts g) : ∀ g ∈ calls (s.rename e), g ∉ s.grown := by
  intro g hg
  rw [rename, calls_renameCalls, List.mem_map] at hg
  obtain ⟨name, hname, rfl⟩ := hg
  split
  case isTrue hgrown => exact h.not_grown (he name (s.mem_grownCalls.mpr ⟨hname, hgrown⟩))
  case isFalse hnew => exact hnew

/-- The nodes whose names are a twin's are the twin alone. -/
theorem filter_result (h : s.Free contracts) {name : String} {n : NodeDef}
    (hname : s.Reached contracts name) (hn : s.beforeChecks.findNode name = some n) :
    (specTwins s contracts).1.allNodes.filter (·.name = twin name) =
      [s.twinOf name (Rewriter.node s.typer n)] := by
  have hnone : s.semantic.allNodes.filter (·.name = twin name) = [] := by
    rw [List.filter_eq_nil_iff]
    intro m hm
    simpa using h name hname m hm
  rw [(s.specTwins_some contracts (s.clauseCalls_ne_nil contracts hname)).1, List.filter_append,
    hnone, s.twins_filter contracts hname (s.made_some (s.spec_eq hn)).1, List.nil_append]

/-- The twins of two nodes reached stand in the order opposite to that of their discovery. -/
theorem twins_order (hknown : s.Known contracts) (hfree : s.Free contracts) {name callee : String}
    (hname : s.Reached contracts name) (hcallee : s.Reached contracts callee) :
    [twin callee, twin name].Sublist ((specTwins s contracts).1.allNodes.map (·.name)) ↔
      Sooner s.twinCalls (s.clauseCalls contracts) name callee := by
  have hbefore : [name, callee].Sublist (s.wanted contracts) ↔
      Sooner s.twinCalls (s.clauseCalls contracts) name callee :=
    discovered_before_iff (s.clauseCalls_grown contracts) s.twinCalls_grown le_rfl
      ((s.mem_wanted contracts).mpr hname) ((s.mem_wanted contracts).mpr hcallee)
  have hnew {x : String} (hx : s.Reached contracts x) :
      twin x ∉ s.semantic.allNodes.map (·.name) := by
    intro hmem
    obtain ⟨n, hn, heq⟩ := List.mem_map.mp hmem
    exact hfree x hx n hn heq
  rw [(s.specTwins_some contracts (s.clauseCalls_ne_nil contracts hname)).1, List.map_append,
    List.map_reverse, names_made hknown, ← hbefore]
  constructor
  · intro h
    obtain ⟨l, l', heq, hl, hl'⟩ := List.sublist_append_iff.mp h
    cases l with
    | nil =>
      rw [List.nil_append] at heq
      rw [← heq, ← List.reverse_sublist, List.reverse_reverse] at hl'
      obtain ⟨l, hsub, heq⟩ := List.sublist_map_iff.mp hl'
      have hl : [name, callee] = l := List.map_injective_iff.mpr twin_injective heq
      rwa [hl]
    | cons a l =>
      obtain ⟨rfl, -⟩ := List.cons.inj heq
      exact absurd (hl.subset List.mem_cons_self) (hnew hcallee)
  · intro h
    have hmap := (h.map twin).reverse
    exact hmap.trans (List.sublist_append_right _ _)

theorem ClosedOrdered.known {p : Project} {rewritten : List ContractDef}
    (h : s.ClosedOrdered contracts p rewritten) : s.Known contracts := by
  intro name hname
  obtain ⟨n, -, hn, -⟩ := h.twinned name hname
  exact ⟨n, hn⟩

theorem ClosedOrdered.free
    (h : s.ClosedOrdered contracts (specTwins s contracts).1 (specTwins s contracts).2) :
    s.Free contracts := by
  intro name hname n hn hnode
  obtain ⟨d, t, hd, hfilter, -⟩ := h.twinned name hname
  rw [(s.specTwins_some contracts (s.clauseCalls_ne_nil contracts hname)).1, List.filter_append,
    s.twins_filter contracts hname (s.made_some (s.spec_eq hd)).1] at hfilter
  have hmem : n ∈ s.semantic.allNodes.filter (·.name = twin name) :=
    List.mem_filter.mpr ⟨hn, by simpa using hnode⟩
  have hlen := congrArg List.length hfilter
  rw [List.length_append] at hlen
  have hpos := List.length_pos_of_mem hmem
  simp only [List.length_singleton] at hlen
  omega

/-- After rewriting no clause calls a grown node. -/
theorem clauses_rewritten (h : s.Free contracts) :
    ∀ c ∈ (specTwins s contracts).2, ∀ e ∈ clauses c, ∀ g ∈ calls e, g ∉ s.grown := by
  intro c hc e he g hg
  by_cases hnil : s.clauseCalls contracts = []
  · rw [s.specTwins_none contracts hnil] at hc
    intro hgrown
    have hmem : g ∈ s.clauseCalls contracts :=
      List.mem_flatMap.mpr ⟨c, hc, List.mem_flatMap.mpr ⟨e, he, s.mem_grownCalls.mpr ⟨hg, hgrown⟩⟩⟩
    simp [hnil] at hmem
  · rw [(s.specTwins_some contracts hnil).2, List.mem_map] at hc
    obtain ⟨c, hc, rfl⟩ := hc
    rw [clauses_mapContract, List.mem_map] at he
    obtain ⟨e, he, rfl⟩ := he
    refine rename_calls h (fun g hg => ?_) g hg
    exact .clause (List.mem_flatMap.mpr ⟨c, hc, List.mem_flatMap.mpr ⟨e, he, hg⟩⟩)

/-- Nor does a twin. -/
theorem twins_rewritten (hknown : s.Known contracts) (hfree : s.Free contracts) {name : String}
    (hname : s.Reached contracts name) {t : NodeDef}
    (ht : t ∈ (specTwins s contracts).1.allNodes) (htwin : t.name = twin name) :
    ∀ eq ∈ t.equations, ∀ g ∈ calls eq.rhs, g ∉ s.grown := by
  obtain ⟨n, hn⟩ := hknown name hname
  have hmem : t ∈ (specTwins s contracts).1.allNodes.filter (·.name = twin name) :=
    List.mem_filter.mpr ⟨ht, by simpa using htwin⟩
  rw [filter_result hfree hname hn, List.mem_singleton] at hmem
  subst hmem
  intro eq hmem g hg
  obtain ⟨eq, heq, rfl⟩ := List.mem_map.mp hmem
  refine rename_calls hfree (fun g hg => .call hname ?_) g hg
  rw [(s.made_some (s.spec_eq hn)).2]
  exact List.mem_flatMap.mpr ⟨eq, heq, hg⟩

end TwinSource

/-- The twins are closed and ordered exactly where every node that the clauses reach was a node
before the checks, no node has the name of its twin, and each node reached that calls one that
gained outputs is reached by a way that is less than every way to that one: by fewer calls, or by
as many and mentioned first. -/
theorem specTwins_closed_ordered_iff (s : TwinSource) (contracts : List ContractDef) :
    s.ClosedOrdered contracts (specTwins s contracts).1 (specTwins s contracts).2 ↔
      s.Fits contracts := by
  constructor
  · intro h
    refine ⟨h.known, h.free, fun name callee hname hcallee => ?_⟩
    exact (TwinSource.twins_order h.known h.free hname (.call hname hcallee)).mp
      (h.ordered name callee hname hcallee)
  · intro h
    refine ⟨fun name hname => ?_, fun name callee hname hcallee => ?_,
      TwinSource.clauses_rewritten h.free,
      fun name hname t => TwinSource.twins_rewritten h.known h.free hname⟩
    · obtain ⟨n, hn⟩ := h.known name hname
      exact ⟨n, _, hn, TwinSource.filter_result h.free hname hn, by simp [TwinSource.twinOf]⟩
    · exact (TwinSource.twins_order h.known h.free hname (.call hname hcallee)).mpr
        (h.sooner name callee hname hcallee)

/-- A project with its nodes rewritten. -/
def rewriteNodes (typer : ExprTyper) (p : Project) : Project :=
  { p with packages := p.packages.map fun pkg =>
      { pkg with nodes := pkg.nodes.map (Rewriter.node typer) } }

/-- What the view makes twins from: the unrolled project, and the same with its runtime-error
checks. -/
def twinSource (unrolled instrumented : Project) (root : String) (checks : NodeChecks) :
    Option TwinSource := do
  let typer := ExprTyper.new instrumented
  let semantic := rewriteNodes typer instrumented
  let (propagated, _) ← propagate semantic root checks
  some ⟨propagated, originalOutputs semantic, unrolled, typer⟩

theorem rewriteNodes_names (typer : ExprTyper) (p : Project) :
    (rewriteNodes typer p).allNodes.map (·.name) = p.allNodes.map (·.name) := by
  simp [rewriteNodes, Project.allNodes, List.flatMap_map, List.map_flatMap, Function.comp_def]

theorem findNode_of_mem_names {p : Project} {name : String}
    (h : name ∈ p.allNodes.map (·.name)) : ∃ n, p.findNode name = some n := by
  obtain ⟨n, hn, rfl⟩ := List.mem_map.mp h
  have hany : p.allNodes.any (·.name = n.name) = true :=
    List.any_eq_true.mpr ⟨n, hn, by simp⟩
  have hfind : (p.allNodes.find? (·.name = n.name)).isSome := List.find?_isSome.mpr ⟨n, hn, by simp⟩
  rw [Project.findNode, Project.resolvedNodeName, if_pos hany]
  exact Option.isSome_iff_exists.mp hfind

/-- Every grown node was a node before the checks, when the checks add and rename none. -/
theorem twinSource_known {unrolled instrumented : Project} {root : String} {checks : NodeChecks}
    {s : TwinSource} (h : twinSource unrolled instrumented root checks = some s)
    (hnames : instrumented.allNodes.map (·.name) = unrolled.allNodes.map (·.name))
    (contracts : List ContractDef) : s.Known contracts := by
  obtain ⟨⟨propagated, proved⟩, hpropagate, h⟩ := Option.bind_eq_some_iff.mp h
  obtain rfl := Option.some.inj h
  intro name hname
  obtain ⟨n, hn, rfl⟩ := TwinSource.mem_grown _ hname.grown
  have hmem : n.name ∈ unrolled.allNodes.map (·.name) := by
    rw [← hnames, ← rewriteNodes_names (ExprTyper.new instrumented), ← propagate_names hpropagate]
    exact List.mem_map_of_mem hn
  exact findNode_of_mem_names hmem

/-- `A` calls `B`, and a contract of the root mentions `B` first. -/
def nestedCalls (nodes : List NodeDef) : Project where
  packages := [{ name := "main", nodes := nodes }]
  main := some "R"

def nodeR : NodeDef where
  name := "R"
  kind := .operator
  inputs := [⟨"x", .int32⟩]
  outputs := [⟨"o", .int32⟩]
  locals := []
  equations := [⟨["o"], .call "A" [.var "x"]⟩]
  contract := some "K"

def nodeA : NodeDef where
  name := "A"
  kind := .operator
  inputs := [⟨"x", .int32⟩]
  outputs := [⟨"y", .int32⟩]
  locals := []
  equations := [⟨["y"], .call "B" [.var "x"]⟩]

def nodeB : NodeDef where
  name := "B"
  kind := .operator
  inputs := [⟨"x", .int32⟩]
  outputs := [⟨"y", .int32⟩]
  locals := []
  equations := [⟨["y"], .binary .add (.var "x") (.const (.int 1))⟩]

/-- The sum may leave the range of its type. -/
def checkedB : NodeDef :=
  let sum : Expr := .binary .add (.var "x") (.const (.int 1))
  let fits : Expr := .binary .and
    (.binary .le (.unary .neg (.const (.int 2147483648))) sum)
    (.binary .le sum (.const (.int 2147483647)))
  { nodeB with
    locals := [⟨"__rte0", .bool⟩]
    equations := nodeB.equations ++ [⟨["__rte0"], fits⟩] }

def contractK : ContractDef where
  name := "K"
  inputs := [⟨"x", .int32⟩]
  outputs := [⟨"o", .int32⟩]
  guarantees := [⟨none, .binary .le (.call "B" [.var "x"]) (.call "A" [.var "x"])⟩]

def checksB : NodeChecks := [("B", [⟨"__rte0", .overflow, "x + 1 fits int32"⟩])]

def unrolledNested : Project := nestedCalls [nodeB, nodeA, nodeR]
def instrumentedNested : Project := nestedCalls [checkedB, nodeA, nodeR]

/-- `B` and `A` gain an output each, and the root a local. -/
def propagatedNested : Project :=
  nestedCalls [
    { checkedB with locals := [], outputs := [⟨"y", .int32⟩, ⟨"__rte0", .bool⟩] },
    { nodeA with
      outputs := [⟨"y", .int32⟩, ⟨"__rtp0", .bool⟩]
      equations := [⟨["y", "__rtp0"], .call "B" [.var "x"]⟩] },
    { nodeR with
      locals := [⟨"__rtp0", .bool⟩]
      equations := [⟨["o", "__rtp0"], .call "A" [.var "x"]⟩] }]

def nestedSource : TwinSource where
  semantic := propagatedNested
  original := originalOutputs (rewriteNodes (ExprTyper.new instrumentedNested) instrumentedNested)
  beforeChecks := unrolledNested
  typer := ExprTyper.new instrumentedNested

/-- The twin of `A` comes before the twin of `B`, which it calls. -/
theorem specTwins_callee_last :
    twinSource unrolledNested instrumentedNested "R" checksB = some nestedSource ∧
      ¬ nestedSource.ClosedOrdered [contractK] (specTwins nestedSource [contractK]).1
        (specTwins nestedSource [contractK]).2 := by
  refine ⟨rfl, fun h => ?_⟩
  have hA : nestedSource.Reached [contractK] "A" := .clause (by decide)
  have hordered := h.ordered "A" "B" hA (by decide)
  have hnames : (specTwins nestedSource [contractK]).1.allNodes.map (·.name) =
      ["B", "A", "R", "__ol_spec_A", "__ol_spec_B"] := rfl
  rw [hnames] at hordered
  revert hordered
  decide

end OpenLustre.CocospecEmit
