import OpenLustre.Ir.Expr

/-! Nodes, packages and projects, with node lookup. -/

namespace OpenLustre.Ir

inductive NodeKind
  | function
  | operator
  | imported
  deriving DecidableEq, Repr

structure Port where
  name : String
  ty : Ty
  deriving DecidableEq, Repr

abbrev Local := Port

structure Equation where
  lhs : List String
  rhs : Expr
  deriving Repr

/-- A debug log probe; only the variable it names is checked. -/
structure Probe where
  var : String
  deriving DecidableEq, Repr

structure NodeDef where
  name : String
  kind : NodeKind
  inputs : List Port
  outputs : List Port
  locals : List Local
  equations : List Equation
  contract : Option String := none
  probes : List Probe := []
  deriving Repr

namespace NodeDef

def isFunction (n : NodeDef) : Bool := decide (n.kind = .function)
def isImported (n : NodeDef) : Bool := decide (n.kind = .imported)

/-- The ports and locals of a node, in the order the checker declares them. -/
def declared (n : NodeDef) : List Port := n.inputs ++ n.outputs ++ n.locals

def declaredNames (n : NodeDef) : List String := n.declared.map (·.name)

/-- Every subexpression of a right-hand side. -/
def bodyTerms (n : NodeDef) : List Expr := n.equations.flatMap (·.rhs.subterms)

end NodeDef

structure Transition where
  guard : Expr
  target : String
  deriving Repr

mutual

structure StateDef where
  name : String
  equations : List Equation
  transitions : List Transition
  regions : List Region
  refines : Option String
  deriving Repr

/-- An automaton nested inside a state.  With `history` it resumes where it was
instead of restarting. -/
structure Region where
  initialState : String
  states : List StateDef
  history : Bool
  deriving Repr

end

structure StateMachineDef where
  name : String
  inputs : List Port
  outputs : List Port
  locals : List Local
  initialState : String
  states : List StateDef
  owner : Option String
  deriving Repr

structure EnumDef where
  name : String
  variants : List String
  deriving DecidableEq, Repr

structure RecordField where
  name : String
  ty : Ty
  deriving DecidableEq, Repr

inductive TypeBody
  | enum (e : EnumDef)
  | record (name : String) (fields : List RecordField)
  | aliasOf (name : String) (target : Ty)
  deriving DecidableEq, Repr

structure TypeDef where
  body : TypeBody
  deriving DecidableEq, Repr

def TypeDef.name (t : TypeDef) : String :=
  match t.body with
  | .enum e => e.name
  | .record name _ => name
  | .aliasOf name _ => name

structure ConstDef where
  name : String
  ty : Ty
  value : Expr
  deriving Repr

/-- An assumption or a guarantee of a contract. -/
structure Clause where
  name : Option String
  expr : Expr
  deriving Repr

structure GhostVar where
  name : String
  ty : Ty
  definition : Expr
  deriving Repr

structure Mode where
  name : String
  requires : List Expr
  ensures : List Expr
  deriving Repr

structure ContractImport where
  contract : String
  inputMap : List (String × Expr)
  outputMap : List (String × String)
  deriving Repr

structure ContractDef where
  name : String
  inputs : List Port
  outputs : List Port
  ghostVars : List GhostVar := []
  assumptions : List Clause := []
  guarantees : List Clause := []
  modes : List Mode := []
  imports : List ContractImport := []
  deriving Repr

structure ActivationBranch where
  name : String
  condition : Expr
  equations : List Equation
  deriving Repr

/-- An "activate if" decision tree owned by an operator. -/
structure ActivationDef where
  name : String
  outputs : List Port
  branches : List ActivationBranch
  elseEquations : List Equation
  owner : String
  deriving Repr

/-- A package, its contracts as they are read from the model and its imported operators
by their texts. -/
structure Package where
  name : String
  types : List TypeDef := []
  constants : List ConstDef := []
  nodes : List NodeDef := []
  contracts : List ContractDef := []
  importedOperators : List String := []
  stateMachines : List StateMachineDef := []
  activations : List ActivationDef := []
  deriving Repr

structure NativeDependency where
  aliasName : String
  project : String
  projectId : String
  snapshotSha256 : String
  deriving DecidableEq, Repr

structure NativeSource where
  projectId : String
  dependencies : List NativeDependency
  deriving DecidableEq, Repr

structure NativeSymbol where
  projectId : String
  kind : String
  localName : String
  resolvedName : String
  exported : Bool
  deriving DecidableEq, Repr

structure NativeResolution where
  rootProjectId : String
  projects : List NativeSource
  symbols : List NativeSymbol
  deriving DecidableEq, Repr

structure Project where
  packages : List Package
  main : Option String := none
  includes : List String := []
  resolution : Option NativeResolution := none
  deriving Repr

/-- The declarations of both packages, under the name of the first. -/
def Package.extend (dst src : Package) : Package where
  name := dst.name
  types := dst.types ++ src.types
  constants := dst.constants ++ src.constants
  nodes := dst.nodes ++ src.nodes
  contracts := dst.contracts ++ src.contracts
  importedOperators := dst.importedOperators ++ src.importedOperators
  stateMachines := dst.stateMachines ++ src.stateMachines
  activations := dst.activations ++ src.activations

namespace Project

/-- A package joins the first one of its name, or the end. -/
def mergePackage (src : Package) : List Package → List Package
  | [] => [src]
  | dst :: rest =>
    if dst.name = src.name then dst.extend src :: rest else dst :: mergePackage src rest

def merge (p other : Project) : Project :=
  { p with
    packages := other.packages.foldl (fun packages src => mergePackage src packages) p.packages
    main := p.main.or other.main }

def allNodes (p : Project) : List NodeDef := p.packages.flatMap (·.nodes)
def allTypes (p : Project) : List TypeDef := p.packages.flatMap (·.types)
def allConstants (p : Project) : List ConstDef := p.packages.flatMap (·.constants)

/-- Split `alias::name` at its first separator. -/
def splitAlias : List Char → List Char → Option (List Char × List Char)
  | _, [] => none
  | before, ':' :: ':' :: rest => some (before.reverse, rest)
  | before, c :: rest => splitAlias (c :: before) rest

/-- Resolve a root-local node or a directly imported exported node, using the
consumer's alias.  Already-resolved compiler names are accepted. -/
def resolvedNodeName (p : Project) (name : String) : Option String :=
  if p.allNodes.any (·.name = name) then some name
  else do
    let resolution ← p.resolution
    let (owner, localName, external) ←
      match splitAlias [] name.toList with
      | some (qualifier, rest) =>
        if (splitAlias [] rest).isSome then none
        else do
          let root ← resolution.projects.find? (·.projectId = resolution.rootProjectId)
          let dependency ← root.dependencies.find? (·.aliasName = String.ofList qualifier)
          some (dependency.projectId, String.ofList rest, true)
      | none => some (resolution.rootProjectId, name, false)
    let symbol ← resolution.symbols.find? fun s =>
      s.projectId = owner ∧ s.kind = "node" ∧ s.localName = localName ∧ (!external ∨ s.exported)
    if p.allNodes.any (·.name = symbol.resolvedName) then some symbol.resolvedName else none

def findNode (p : Project) (name : String) : Option NodeDef := do
  let resolved ← p.resolvedNodeName name
  p.allNodes.find? (·.name = resolved)

def isConstant (p : Project) (name : String) : Bool := p.allConstants.any (·.name = name)

/-- A node that is found is the one its name leads to. -/
theorem find?_name_of_findNode {p : Project} {name : String} {n : NodeDef}
    (h : p.findNode name = some n) : p.allNodes.find? (·.name = n.name) = some n := by
  obtain ⟨resolved, -, hn⟩ := Option.bind_eq_some_iff.mp h
  obtain rfl : n.name = resolved := by simpa using List.find?_some hn
  exact hn

theorem mem_of_findNode {p : Project} {name : String} {n : NodeDef}
    (h : p.findNode name = some n) : n ∈ p.allNodes := by
  obtain ⟨resolved, -, hn⟩ := Option.bind_eq_some_iff.mp h
  exact List.mem_of_find?_eq_some hn

/-- A node that is found is found under its own name. -/
theorem findNode_name {p : Project} {name : String} {n : NodeDef} (h : p.findNode name = some n) :
    p.findNode n.name = some n := by
  have hn := find?_name_of_findNode h
  have hany : p.allNodes.any (·.name = n.name) = true :=
    List.any_eq_true.mpr ⟨n, mem_of_findNode h, by simp⟩
  simp [findNode, resolvedNodeName, hany, hn]

end Project

end OpenLustre.Ir
