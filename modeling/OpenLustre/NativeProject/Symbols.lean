import OpenLustre.Lib.Delimited
import OpenLustre.Lib.Text
import OpenLustre.NativeProject.Graph

/-! The names that the declarations of a native project and its dependencies have in generated
code, and the names that are kept from authored locals. -/

namespace OpenLustre.NativeProject

open OpenLustre.Ir

inductive Kind
  | node
  | type
  | constant
  | contract
  deriving DecidableEq, Repr

namespace Kind

def tag : Kind → String
  | node => "n"
  | type => "t"
  | constant => "c"
  | contract => "k"

def label : Kind → String
  | node => "node"
  | type => "type"
  | constant => "constant"
  | contract => "contract"

end Kind

/-- A byte as two hexadecimal digits. -/
def hexByte (b : UInt8) : List Char :=
  [Char.ofNat (hexDigit (b / 16)).toNat, Char.ofNat (hexDigit (b % 16)).toNat]

def hex (s : String) : String := String.ofList ((utf8 s).flatMap hexByte)

/-- The name of a declaration of a project, whose fields are hexadecimal and separately
delimited. -/
def backendName (owner : String) (kind : Kind) (localName : String) : String :=
  "olp_" ++ hex owner ++ "_" ++ kind.tag ++ "_" ++ hex localName

def variantName (owner enumName variant : String) : String :=
  "olp_" ++ hex owner ++ "_v_" ++ hex enumName ++ "_" ++ hex variant

/-- What a project declares, exports and depends on, under the names they have in generated
code. -/
structure Inventory (owner : String) where
  declarations : List ((Kind × String) × String) := []
  /-- The enum of each bare variant, which is unique in a project. -/
  variants : List (String × String × String) := []
  enumNames : List String := []
  enumVariants : List ((String × String) × String) := []
  exported : List (Kind × String) := []
  aliases : List (String × String) := []
  named : ∀ d ∈ declarations, d.2 = backendName owner d.1.1 d.1.2 := by simp
  namedVariants : ∀ v ∈ enumVariants, v.2 = variantName owner v.1.1 v.1.2 := by simp

namespace Inventory

variable {owner : String} (inv : Inventory owner)

def prefixed (owner message : String) : String := "project `" ++ owner ++ "` " ++ message

def isLocalName (name : String) : Bool := !name.isEmpty && !Text.isInfix "::" name

def add (kind : Kind) (name : String) : Except String (Inventory owner) :=
  if isLocalName name = false then
    .error (prefixed owner ("declares invalid local " ++ kind.label ++ " name `" ++ name ++ "`"))
  else if (inv.declarations.lookup (kind, name)).isSome then
    .error (prefixed owner
      ("declares duplicate " ++ kind.label ++ " `" ++ name ++ "` across its packages"))
  else
    .ok { inv with
      declarations := ((kind, name), backendName owner kind name) :: inv.declarations
      named := List.forall_mem_cons.mpr ⟨rfl, inv.named⟩ }

def addAll (kind : Kind) (names : List String) : Except String (Inventory owner) :=
  names.foldlM (fun inv name => inv.add kind name) inv

def addPackage (pkg : Package) : Except String (Inventory owner) := do
  let inv ← inv.addAll .node (pkg.nodes.map (·.name))
  let inv ← inv.addAll .type (pkg.types.map (·.name))
  let inv ← inv.addAll .constant (pkg.constants.map (·.name))
  let inv ← inv.addAll .contract (pkg.contracts.map (·.name))
  if !pkg.importedOperators.isEmpty || pkg.nodes.any (·.isImported) then
    .error (prefixed owner
      "uses imported C operators, which native project format 1 does not support")
  else if !pkg.stateMachines.isEmpty || !pkg.activations.isEmpty then
    .error (prefixed owner "contains constructs that were not locally lowered")
  else .ok inv

def addVariant (enumName variant : String) : Except String (Inventory owner) :=
  let resolved := variantName owner enumName variant
  if isLocalName variant = false then
    .error (prefixed owner ("declares invalid enum variant `" ++ variant ++ "`"))
  else if (inv.variants.lookup variant).isSome then
    .error (prefixed owner
      ("declares duplicate enum variant `" ++ variant ++ "` across its enums"))
  else
    .ok { inv with
      variants := (variant, enumName, resolved) :: inv.variants
      enumVariants := ((enumName, variant), resolved) :: inv.enumVariants
      namedVariants := List.forall_mem_cons.mpr ⟨rfl, inv.namedVariants⟩ }

def addEnum (e : EnumDef) : Except String (Inventory owner) :=
  e.variants.foldlM (fun inv variant => inv.addVariant e.name variant)
    { inv with enumNames := e.name :: inv.enumNames }

def addType (t : TypeDef) : Except String (Inventory owner) :=
  match t.body with
  | .enum e => inv.addEnum e
  | _ => .ok inv

def addExport (kind : Kind) (name : String) : Except String (Inventory owner) :=
  if (inv.declarations.lookup (kind, name)).isNone then
    .error (prefixed owner ("exports unknown " ++ kind.label ++ " `" ++ name ++ "`"))
  else if inv.exported.contains (kind, name) then
    .error (prefixed owner ("exports " ++ kind.label ++ " `" ++ name ++ "` more than once"))
  else .ok { inv with exported := (kind, name) :: inv.exported }

def addExports (kind : Kind) (names : List String) : Except String (Inventory owner) :=
  names.foldlM (fun inv name => inv.addExport kind name) inv

def addAlias (dependency : NativeDependency) : Except String (Inventory owner) :=
  if inv.enumNames.contains dependency.aliasName then
    .error (prefixed owner
      ("dependency alias `" ++ dependency.aliasName ++ "` conflicts with a local enum type"))
  else if (inv.aliases.lookup dependency.aliasName).isSome then
    .error (prefixed owner ("repeats dependency alias `" ++ dependency.aliasName ++ "`"))
  else .ok { inv with aliases := (dependency.aliasName, dependency.projectId) :: inv.aliases }

end Inventory

/-- The inventory of a project, of which a native project has one for each owner. -/
def inventory (owner : String) (unit : NativeUnit) : Except String (Inventory owner) := do
  let inv ← unit.project.packages.foldlM (fun inv pkg => inv.addPackage pkg) ({} : Inventory owner)
  let inv ← unit.project.allTypes.foldlM (fun inv t => inv.addType t) inv
  let inv ← inv.addExports .node unit.manifest.exports.nodes
  let inv ← inv.addExports .type unit.manifest.exports.types
  let inv ← inv.addExports .constant unit.manifest.exports.constants
  let inv ← inv.addExports .contract unit.manifest.exports.contracts
  let inv ← unit.manifest.dependencies.foldlM (fun inv dependency => inv.addAlias dependency) inv
  if (inv.declarations.lookup (.node, unit.manifest.entrypoint)).isNone then
    .error (Inventory.prefixed owner
      ("entrypoint `" ++ unit.manifest.entrypoint ++ "` is not a local node"))
  else .ok inv

/-- The inventories of a graph of projects, as one of its projects sees them. -/
structure Resolver where
  owner : String
  inventories : List ((owner : String) × Inventory owner)

namespace Resolver

def nodeArtifacts (name : String) : List String :=
  name :: ["_step", "_init", "_Input", "_Output", "_State"].map (name ++ ·)

def monitorArtifacts (name : String) : List String :=
  ["_monitor", "_monitor_State", "_monitor_reset", "_monitor_check"].map (name ++ ·)

/-- What a declaration is generated as. -/
def artifacts : (Kind × String) × String → List String
  | ((.node, _), name) => nodeArtifacts name
  | ((.contract, _), name) => nodeArtifacts (name ++ "_observer") ++ monitorArtifacts name
  | _ => []

variable (r : Resolver)

/-- Every name that a generated declaration has, or something generated for it. -/
def generatedIdentifiers : List String :=
  r.inventories.flatMap fun ⟨_, inv⟩ =>
    inv.declarations.flatMap artifacts ++ inv.declarations.map (·.2) ++ inv.enumVariants.map (·.2)

/-- Authored ports and locals stay unchanged, so none may be a generated name. -/
def validateLocals (locals : List String) : Except String Unit :=
  match locals.find? (r.generatedIdentifiers.contains ·) with
  | some name => .error ("project `" ++ r.owner ++ "` local/port/ghost `" ++ name ++
      "` collides with a generated symbol")
  | none => .ok ()

end Resolver

end OpenLustre.NativeProject
