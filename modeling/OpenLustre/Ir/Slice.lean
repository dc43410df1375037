import OpenLustre.Ir.Project
import OpenLustre.Lib.Worklist

/-! The part of a project that a root operator uses. -/

namespace OpenLustre.Ir

open Worklist

/-- The named types in a type. -/
def Ty.named? : Ty → List String
  | .named name => [name]
  | .array elem _ => elem.named?
  | _ => []

namespace Project

/-- A node that can be selected as the root: one of the root model, or one that a direct
dependency exports. -/
def selectedNodeName (p : Project) (name : String) : Option String := do
  let resolved ← p.resolvedNodeName name
  match p.resolution with
  | none => some resolved
  | some metadata =>
    let symbol ← metadata.symbols.find? fun s => s.kind = "node" ∧ s.resolvedName = resolved
    if symbol.projectId = metadata.rootProjectId then some resolved
    else do
      let root ← metadata.projects.find? (·.projectId = metadata.rootProjectId)
      if symbol.exported ∧ root.dependencies.any (·.projectId = symbol.projectId) then some resolved
      else none

def findContract (p : Project) (name : String) : Option ContractDef :=
  (p.packages.flatMap (·.contracts)).find? (·.name = name)

/-- The expressions of a contract's own clauses. -/
def contractExprs (p : Project) (name : String) : List Expr :=
  match p.findContract name with
  | none => []
  | some c =>
    c.assumptions.map (·.expr) ++ c.guarantees.map (·.expr) ++
      c.modes.flatMap (fun m => m.requires ++ m.ensures) ++ c.ghostVars.map (·.definition)

/-- What a slice keeps, before the types. -/
structure Kept where
  nodes : List String := []
  contracts : List String := []
  freeVars : List String := []
  constants : List String := []
  types : List Ty := []

variable (p : Project)

/-- The nodes a node applies in its body and in the clauses of its contract. -/
def appliedBy (name : String) : List String :=
  match p.findNode name with
  | none => []
  | some n =>
    n.equations.flatMap (·.rhs.applied) ++
      match n.contract with
      | none => []
      | some c => (p.contractExprs c).flatMap Expr.applied

/-- Every name that is applied somewhere. -/
def appliedNames : List String :=
  p.allNodes.flatMap (fun n => n.equations.flatMap (·.rhs.applied)) ++
    (p.packages.flatMap (·.contracts)).flatMap (fun c => (p.contractExprs c.name).flatMap Expr.applied) ++
    p.allConstants.flatMap (·.value.applied)

def importedContracts (name : String) : List String :=
  match p.findContract name with
  | none => []
  | some c => c.imports.map (·.contract)

/-- Steps 1 to 3: the nodes, their contracts, and the variables and types of both. -/
def keepNodes (queue : List String) (k : Kept) : Kept :=
  let nodes := gather p.appliedBy (gatherFuel p.appliedBy p.appliedNames queue) k.nodes queue
  let attached := nodes.filterMap fun name => (p.findNode name).bind (·.contract)
  let contracts := gather p.importedContracts
    (gatherFuel p.importedContracts
      ((p.packages.flatMap (·.contracts)).flatMap fun c => c.name :: c.imports.map (·.contract)) attached)
    k.contracts attached
  let bodies := nodes.filterMap p.findNode
  { k with
    nodes := nodes
    contracts := contracts
    freeVars := k.freeVars ++ bodies.flatMap (fun n => n.equations.flatMap (·.rhs.freeVars)) ++
      contracts.flatMap fun c => (p.contractExprs c).flatMap Expr.freeVars
    types := k.types ++ bodies.flatMap (fun n => n.declared.map (·.ty)) ++
      contracts.flatMap fun c => ((p.findContract c).map (·.ghostVars.map (·.ty))).getD [] }

/-- Whether the value of a constant refers to a name. -/
def constValueRefs (constName target : String) : Bool :=
  match p.allConstants.find? (·.name = constName) with
  | none => false
  | some c => c.value.freeVars.contains target

/-- Keep a constant that is referred to, with what its value refers to. -/
def keepConstant (s : Kept × List String × Bool) (c : ConstDef) : Kept × List String × Bool :=
  let (k, queue, round) := s
  if k.constants.contains c.name then (k, queue, round)
  else if k.freeVars.contains c.name || k.constants.any (p.constValueRefs · c.name) then
    ({ k with
        constants := c.name :: k.constants
        types := k.types ++ [c.ty]
        freeVars := k.freeVars ++ c.value.freeVars },
      queue ++ c.value.applied, true)
  else (k, queue, round)

/-- Step 4: pass over the constants until a pass keeps none; `grew` when one was kept. -/
def keepConstants : Nat → Kept → List String → Bool → Kept × List String × Bool
  | 0, k, queue, grew => (k, queue, grew)
  | fuel + 1, k, queue, grew =>
    let (k, queue, round) := p.allConstants.foldl p.keepConstant (k, queue, false)
    if round then keepConstants fuel k queue true else (k, queue, grew)

/-- Alternate the node and the constant closure until nothing grows. -/
def keep : Nat → Kept → List String → Kept
  | 0, k, _ => k
  | fuel + 1, k, queue =>
    let (k, queue, grew) := p.keepConstants (p.allConstants.length + 1) (p.keepNodes queue k) [] false
    if queue.isEmpty && !grew then k else keep fuel k queue

/-- The named types a declaration of a type refers to. -/
def typeRefs (name : String) : List String :=
  (p.allTypes.filter (·.name = name)).flatMap fun t =>
    match t.body with
    | .record _ fields => fields.flatMap (·.ty.named?)
    | .aliasOf _ target => target.named?
    | .enum _ => []

/-- Step 5: the types referred to, and the enums with a variant that is. -/
def keepTypes (k : Kept) : List String :=
  let queue := k.types.flatMap Ty.named? ++ p.allTypes.filterMap fun t =>
    match t.body with
    | .enum e => if e.variants.any (k.freeVars.contains ·) then some e.name else none
    | _ => none
  gather p.typeRefs
    (gatherFuel p.typeRefs (p.allTypes.flatMap fun t => t.name :: p.typeRefs t.name) queue) [] queue

/-- What a slice keeps of a package. -/
def keepPackage (k : Kept) (types : List String) (pkg : Package) : Package where
  name := pkg.name
  types := pkg.types.filter (types.contains ·.name)
  constants := pkg.constants.filter (k.constants.contains ·.name)
  nodes := pkg.nodes.filter (k.nodes.contains ·.name)
  contracts := pkg.contracts.filter (k.contracts.contains ·.name)
  importedOperators := pkg.importedOperators.filter (k.nodes.contains ·)
  stateMachines := pkg.stateMachines.filter (k.nodes.contains ·.name)
  activations := pkg.activations.filter (k.nodes.contains ·.owner)

/-- Nothing is declared in a package. -/
def emptyPackage (pkg : Package) : Bool :=
  pkg.nodes.isEmpty && pkg.types.isEmpty && pkg.constants.isEmpty && pkg.contracts.isEmpty &&
    pkg.importedOperators.isEmpty && pkg.stateMachines.isEmpty && pkg.activations.isEmpty

/-- The names of what the root uses. -/
def keptFor (root : String) : Kept := p.keep (p.allConstants.length + 2) {} [root]

/-- The part of the project that the root uses. -/
def sliceForRoot (root : String) : Except String Project :=
  match p.selectedNodeName root with
  | none => .error ("root node `" ++ root ++ "` not found in project")
  | some root =>
    let k := p.keptFor root
    let types := p.keepTypes k
    .ok {
      packages := (p.packages.map (keepPackage k types)).filter fun pkg => !emptyPackage pkg
      main := some root
      includes := []
      resolution := p.resolution }

variable {p}

/-- A slice has the nodes of the project whose names it keeps. -/
theorem allNodes_of_slice {root : String} {slice : Project} (h : p.sliceForRoot root = .ok slice) :
    ∃ kept : List String, slice.allNodes = p.allNodes.filter (kept.contains ·.name) := by
  unfold sliceForRoot at h
  split at h
  case h_1 => cases h
  case h_2 root _ =>
    obtain rfl := Except.ok.inj h
    refine ⟨(p.keptFor root).nodes, ?_⟩
    simp only [allNodes]
    generalize p.keepTypes (p.keptFor root) = types
    generalize p.keptFor root = k
    induction p.packages with
    | nil => rfl
    | cons pkg packages ih =>
      rw [List.map_cons, List.filter_cons, List.flatMap_cons, List.filter_append, ← ih]
      split
      case isTrue => rw [List.flatMap_cons, keepPackage]
      case isFalse hempty =>
        have hnodes : (keepPackage k types pkg).nodes = [] := by
          simp only [emptyPackage, Bool.not_eq_eq_eq_not, Bool.not_true, Bool.not_eq_false,
            Bool.and_eq_true, List.isEmpty_iff] at hempty
          tauto
        rw [show pkg.nodes.filter (k.nodes.contains ·.name) = [] from hnodes, List.nil_append]

/-- An operator found in the slice under its own name is the one found in the project. -/
theorem findNode_of_slice {root : String} {slice : Project} {n : NodeDef}
    (h : p.sliceForRoot root = .ok slice) (hn : slice.findNode n.name = some n) :
    p.findNode n.name = some n := by
  obtain ⟨kept, hkept⟩ := allNodes_of_slice h
  have hfind := find?_name_of_findNode hn
  have hmem := mem_of_findNode hn
  rw [hkept] at hfind hmem
  have hkeep : n.name ∈ kept := by simpa using (List.mem_filter.mp hmem).2
  have hany : p.allNodes.any (·.name = n.name) = true :=
    List.any_eq_true.mpr ⟨n, (List.mem_filter.mp hmem).1, by simp⟩
  rw [List.find?_filter] at hfind
  have hsame : p.allNodes.find? (fun a => decide (a.name = n.name)) = some n := by
    rw [← hfind]
    congr 1
    funext a
    by_cases ha : a.name = n.name
    · simp [ha, hkeep]
    · simp [ha]
  simp [findNode, resolvedNodeName, hany, hsame]

end Project

end OpenLustre.Ir
