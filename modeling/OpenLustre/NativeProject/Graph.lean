import OpenLustre.NativeProject.Snapshot

/-! Loading a native project with its dependencies, each checked against its pin. -/

namespace OpenLustre.NativeProject

open OpenLustre.Ir

/-- What a manifest's own files give, before its dependencies are read. -/
structure OwnUnit where
  manifest : NativeManifest
  project : Project
  files : List (String × List UInt8)
  sources : List (String × String)
  snapshot : String
  modelRelative : String

structure NativeUnit where
  manifest : NativeManifest
  project : Project
  snapshotSha256 : String
  manifestPath : Path
  modelFiles : List String
  sources : List (String × String)

/-- The projects loaded so far: identity and snapshot by manifest path, and units by
identity. -/
structure Graph where
  paths : List (Path × String × String) := []
  units : List (String × NativeUnit) := []

namespace Loader

variable (L : Loader) (fs : FileSystem)

def readOwn (path : Path) : Except LoadError OwnUnit := do
  let manifest ← L.readManifest fs path
  let root ← required (.noParent path) path.parent
  let modelPath ← fs.ownedFile root manifest.model "model"
  let (project, model) ← ModelFiles.visit L fs root (fs.files.length + 1) [] modelPath {}
  let hash ← snapshot L manifest model.files
  let below := (Path.stripPrefix root modelPath).bind fun path => ofUtf8 (List.intercalate [47] path)
  pure ⟨manifest, { project with main := some manifest.entrypoint }, model.files, model.sources,
    hash, below.getD ""⟩

end Loader

/-- The manifest a dependency of the project at a path refers to. -/
def dependencyPath (fs : FileSystem) (path : Path) (dep : NativeDependency) :
    Except LoadError Path := do
  validateRelative dep.project "dependency project"
  fs.canonicalManifest (Path.join (path.parent.getD []) dep.project)

def rejectExternal (project : Project) (path : Path) : Except LoadError Unit :=
  if project.packages.any fun pkg => !pkg.importedOperators.isEmpty || pkg.nodes.any (·.isImported) then
    .error (.imported path)
  else .ok ()

namespace Graph

/-- A dependency has the identity, and if pins are verified the snapshot, that the
manifest says it has. -/
def checkDependency (graph : Graph) (verify : Bool) (path depPath : Path) (dep : NativeDependency)
    (actualId : String) : Except LoadError Unit :=
  match graph.paths.lookup depPath with
  | none => .error (.notLoaded depPath)
  | some (_, actualSnapshot) =>
    if dep.projectId ≠ actualId then
      .error (.identity path dep.aliasName dep.projectId actualId)
    else if verify && decide (dep.snapshotSha256 ≠ actualSnapshot) then
      .error (.snapshot path dep.aliasName dep.projectId dep.snapshotSha256 actualSnapshot)
    else .ok ()

variable (L : Loader) (fs : FileSystem) (verify : Bool)

/-- The graph with a dependency of the project at a path, as `load` loads it. -/
def addDependency (path : Path) (load : Path → Graph → Except LoadError (String × Graph))
    (graph : Graph) (dep : NativeDependency) : Except LoadError Graph := do
  let depPath ← dependencyPath fs path dep
  let (actualId, graph) ← load depPath graph
  graph.checkDependency verify path depPath dep actualId
  pure graph

/-- A project with its own constructs lowered, if pins are verified. -/
def lowered (path : Path) (own : OwnUnit) : Except LoadError (Project × List (String × String)) :=
  if verify then do
    rejectExternal own.project path
    (L.lowerOwned own.project own.sources own.modelRelative).mapError .lowering
  else .ok (own.project, own.sources)

/-- The graph with a project whose dependencies are loaded. -/
def finish (graph : Graph) (path : Path) (own : OwnUnit) : Except LoadError (String × Graph) := do
  let (project, sources) ← lowered L verify path own
  let id := own.manifest.projectId
  let paths := (path, id, own.snapshot) :: graph.paths
  match graph.units.lookup id with
  | some old =>
    if verify && decide (old.snapshotSha256 ≠ own.snapshot) then
      throw (.conflicting id old.manifestPath path)
    else pure (id, { graph with paths := paths })
  | none =>
    let files := own.files.map (·.1)
    pure (id, ⟨paths, (id, ⟨own.manifest, project, own.snapshot, path, files, sources⟩) :: graph.units⟩)

/-- Load the project at a manifest's path.  `active` are the projects whose
dependencies are being loaded. -/
def visit : Nat → List Path → Path → Graph → Except LoadError (String × Graph)
  | 0, _, _, _ => .error .outOfFuel
  | fuel + 1, active, path, graph =>
    if active.contains path then
      .error (.cyclicProject (active.dropWhile (· ≠ path) ++ [path]))
    else
      match graph.paths.lookup path with
      | some (id, _) => .ok (id, graph)
      | none => do
        let own ← L.readOwn fs path
        let graph ← own.manifest.dependencies.foldlM
          (addDependency fs verify path (visit fuel (active ++ [path]))) graph
        graph.finish L verify path own

end Graph

/-- A verified graph, with its root's manifest and identity. -/
structure Loaded where
  root : Path
  id : String
  graph : Graph

namespace Loader

variable (L : Loader) (fs : FileSystem)

/-- Every edge is checked, including a repeated diamond edge and edges in otherwise
unused projects. -/
def loadGraph (path : Path) : Except LoadError Loaded := do
  let root ← fs.canonicalManifest path
  let (id, graph) ← Graph.visit L fs true (fs.files.length + 1) [] root {}
  pure ⟨root, id, graph⟩

def loadNativeProject (resolve : String → List (String × NativeUnit) → Except String Project)
    (path : Path) : Except LoadError Project := do
  let loaded ← L.loadGraph fs path
  (resolve loaded.id loaded.graph.units).mapError .resolution

/-- The snapshot of a project, with no pin verified. -/
def snapshotNativeProject (path : Path) : Except LoadError String := do
  let root ← fs.canonicalManifest path
  let (_, graph) ← Graph.visit L fs false (fs.files.length + 1) [] root {}
  let (_, snapshot) ← required (.notLoaded root) (graph.paths.lookup root)
  pure snapshot

end Loader

/-- The snapshot of a verified graph's root. -/
def Loaded.snapshot (loaded : Loaded) : Option String :=
  (loaded.graph.paths.lookup loaded.root).map (·.2)

end OpenLustre.NativeProject
