import OpenLustre.Ir.Project

/-! The block library and its merging into a project. -/

namespace OpenLustre.Stdlib

open OpenLustre.Ir

/-- A block in strict IR, with the state enums it brings along. -/
structure LoweredBlock where
  node : NodeDef
  contract : Option ContractDef := none
  extraTypes : List TypeDef := []
  deriving Repr

structure Library where
  entries : List LoweredBlock := []
  deriving Repr

namespace Library

def nodes (lib : Library) : List NodeDef := lib.entries.map (·.node)

def contracts (lib : Library) : List ContractDef := lib.entries.filterMap (·.contract)

def types (lib : Library) : List TypeDef := lib.entries.flatMap (·.extraTypes)

/-- Every block in a project of one package. -/
def toProject (lib : Library) (packageName : String) : Project where
  packages := [{
    name := packageName
    types := lib.types
    nodes := lib.nodes
    contracts := lib.contracts }]

/-- The blocks whose names a project has not taken. -/
def kept (lib : Library) (p : Project) : Library where
  entries := lib.entries.filter fun e => !p.allNodes.any (·.name = e.node.name)

/-- Append the blocks to a project as one more package; nodes of the project win. -/
def mergeInto (lib : Library) (p : Project) (packageName : String) : Project :=
  let kept := lib.kept p
  let contractNames := kept.nodes.filterMap (·.contract)
  { p with
    packages := p.packages ++ [{
      name := packageName
      types := kept.types
      nodes := kept.nodes
      contracts := lib.contracts.filter (contractNames.contains ·.name) }] }

variable (lib : Library) (p : Project) (packageName : String)

@[simp] theorem allNodes_mergeInto :
    (lib.mergeInto p packageName).allNodes = p.allNodes ++ (lib.kept p).nodes := by
  simp [mergeInto, Project.allNodes]

@[simp] theorem allTypes_mergeInto :
    (lib.mergeInto p packageName).allTypes = p.allTypes ++ (lib.kept p).types := by
  simp [mergeInto, Project.allTypes]

@[simp] theorem allConstants_mergeInto :
    (lib.mergeInto p packageName).allConstants = p.allConstants := by
  simp [mergeInto, Project.allConstants]

@[simp] theorem resolution_mergeInto :
    (lib.mergeInto p packageName).resolution = p.resolution := rfl

@[simp] theorem allNodes_toProject : (lib.toProject packageName).allNodes = lib.nodes := by
  simp [toProject, Project.allNodes]

@[simp] theorem allTypes_toProject : (lib.toProject packageName).allTypes = lib.types := by
  simp [toProject, Project.allTypes]

@[simp] theorem allConstants_toProject : (lib.toProject packageName).allConstants = [] := by
  simp [toProject, Project.allConstants]

variable {lib p}

theorem nodes_kept_subset : (lib.kept p).nodes ⊆ lib.nodes :=
  List.map_subset _ List.filter_sublist.subset

theorem types_kept_subset : (lib.kept p).types ⊆ lib.types := by
  intro t ht
  obtain ⟨e, he, ht⟩ := List.mem_flatMap.mp ht
  exact List.mem_flatMap.mpr ⟨e, List.mem_of_mem_filter he, ht⟩

/-- A project that has none of the blocks keeps them all. -/
theorem kept_eq_self (h : ∀ n ∈ lib.nodes, p.allNodes.any (·.name = n.name) = false) :
    lib.kept p = lib := by
  obtain ⟨entries⟩ := lib
  unfold kept
  congr 1
  rw [List.filter_eq_self]
  intro e he
  rw [h e.node (List.mem_map_of_mem he), Bool.not_false]

end Library

end OpenLustre.Stdlib
