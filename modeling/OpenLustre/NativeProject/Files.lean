import OpenLustre.Ir.Project
import OpenLustre.Lib.PrefixFree
import OpenLustre.Lib.Utf8

/-! The file system as the loader of native projects sees it, and the manifests and
model files it reads. -/

namespace OpenLustre.NativeProject

open OpenLustre.Ir

/-- The name of a file or directory, as the system stores it. -/
abbrev OsStr := List UInt8

/-- A path from the root, by its components. -/
abbrev Path := List OsStr

def lowerByte (b : UInt8) : UInt8 := if 65 ≤ b ∧ b ≤ 90 then b + 32 else b

namespace Path

/-- The components of a relative path text. -/
def components (text : String) : Path :=
  ((utf8 text).splitOn 47).filter fun c => decide (c ≠ []) && decide (c ≠ [46])

def join (root : Path) (relative : String) : Path := root ++ components relative

def parent (path : Path) : Option Path := if path.isEmpty then none else some path.dropLast

/-- What follows the last dot of a name that does not begin with it. -/
def extension (path : Path) : Option OsStr := do
  let name ← path.getLast?
  if name = [46, 46] then none
  else
    match name.reverse.dropWhile (· ≠ 46) with
    | [] | [_] => none
    | _ => some (name.reverse.takeWhile (· ≠ 46)).reverse

def stripPrefix (root path : Path) : Option Path :=
  if path.take root.length = root then some (path.drop root.length) else none

end Path

/-- The regular files of a system by their canonical paths, with the contents of those
that can be read. -/
structure FileSystem where
  files : List (Path × Option (List UInt8))
  canonicalize : Path → Option Path

def FileSystem.isFile (fs : FileSystem) (path : Path) : Bool := (fs.files.lookup path).isSome

def FileSystem.read (fs : FileSystem) (path : Path) : Option (List UInt8) :=
  (fs.files.lookup path).join

structure NativeExports where
  nodes : List String
  types : List String
  constants : List String
  contracts : List String
  deriving DecidableEq, Repr

structure NativeManifest where
  format : String
  projectId : String
  model : String
  entrypoint : String
  dependencies : List NativeDependency
  exports : NativeExports
  deriving DecidableEq, Repr

def nativeProjectFormat : String := "openlustre.project/v1"

inductive LoadError
  | outOfFuel
  | capacity
  | notOlproj (path : Path)
  | cannotRead (label : String) (path : Path)
  | notRegular (label : String) (path : Path)
  | invalidManifest (path : Path)
  | unsupportedFormat (format : String) (path : Path)
  | projectId
  | notIdentifier (label name : String)
  | notRelative (label text : String)
  | duplicateAlias (name : String) (path : Path)
  | notDigest (name : String) (path : Path)
  | duplicateExport (kind name : String) (path : Path)
  | outsideRoot (label relative : String)
  | notModelFile (label : String) (path : Path)
  | cyclicInclude (path : Path)
  | modelOutsideRoot (path : Path)
  | notUtf8 (path : Path)
  | invalidJson (path : Path)
  | invalidYaml (path : Path)
  | unsupportedExtension (path : Path)
  | duplicateLocal (kind name first second : String)
  | includeOutsideRoot (text : String)
  | cyclicProject (chain : List Path)
  | noParent (path : Path)
  | notLoaded (path : Path)
  | identity (path : Path) (name expected found : String)
  | snapshot (path : Path) (name projectId expected found : String)
  | imported (path : Path)
  | lowering (message : String)
  | conflicting (projectId : String) (first second : Path)
  | resolution (message : String)
  deriving DecidableEq, Repr

/-- The parsers, the hash and the later stages that the loader calls. -/
structure Loader where
  parseManifest : List UInt8 → Option NativeManifest
  parseJson : List UInt8 → Option Project
  parseYaml : List UInt8 → Option Project
  digest : List UInt8 → String
  lowerOwned : Project → List (String × String) → String →
    Except String (Project × List (String × String))

def required {α : Type} (e : LoadError) : Option α → Except LoadError α
  | some a => .ok a
  | none => .error e

theorem required_eq_ok {α : Type} {e : LoadError} {o : Option α} {a : α} :
    required e o = .ok a ↔ o = some a := by
  cases o with
  | none => exact ⟨fun h => (by cases h), fun h => (by cases h)⟩
  | some b => exact ⟨fun h => congrArg _ (Except.ok.inj h), fun h => congrArg _ (Option.some.inj h)⟩

def validateId (id : String) : Except LoadError Unit :=
  let bytes := utf8 id
  if bytes.isEmpty || decide (128 < bytes.length) ||
      !bytes.all (fun b => decide (33 ≤ b) && decide (b ≤ 126)) then .error .projectId
  else .ok ()

def validateLocalName (name label : String) : Except LoadError Unit :=
  match name.toList with
  | [] => .error (.notIdentifier label name)
  | c :: cs =>
    if (c.isAlpha || c = '_') && cs.all (fun c => c.isAlphanum || c = '_') then .ok ()
    else .error (.notIdentifier label name)

def validateRelative (value label : String) : Except LoadError Unit :=
  let bytes := utf8 value
  if bytes.isEmpty || bytes.head? = some 47 || bytes.contains 92 || bytes.contains 0 then
    .error (.notRelative label value)
  else .ok ()

def isHexDigit (b : UInt8) : Bool :=
  (decide (48 ≤ b) && decide (b ≤ 57)) || (decide (97 ≤ b) && decide (b ≤ 102)) ||
    (decide (65 ≤ b) && decide (b ≤ 70))

/-- The dependencies of a manifest with their pins in lower case, after those already
seen. -/
def checkDependencies (path : Path) :
    List String → List NativeDependency → Except LoadError (List NativeDependency)
  | _, [] => pure []
  | seen, dep :: rest => do
    validateLocalName dep.aliasName "dependency alias"
    if seen.contains dep.aliasName then throw (.duplicateAlias dep.aliasName path)
    validateRelative dep.project "dependency project"
    validateId dep.projectId
    let pin := utf8 dep.snapshotSha256
    if pin.length ≠ 64 ∨ !pin.all isHexDigit then throw (.notDigest dep.aliasName path)
    let lower := String.ofList (dep.snapshotSha256.toList.map Char.toLower)
    let rest ← checkDependencies path (dep.aliasName :: seen) rest
    pure ({ dep with snapshotSha256 := lower } :: rest)

def checkExports (path : Path) (kind : String) : List String → List String → Except LoadError Unit
  | _, [] => pure ()
  | seen, name :: rest => do
    validateLocalName name ("exported " ++ kind)
    if seen.contains name then throw (.duplicateExport kind name path)
    checkExports path kind (name :: seen) rest

namespace FileSystem

variable (fs : FileSystem)

def canonicalRegularFile (path : Path) (label : String) : Except LoadError Path :=
  match fs.canonicalize path with
  | none => .error (.cannotRead label path)
  | some canonical => if fs.isFile canonical then .ok canonical else .error (.notRegular label path)

def canonicalManifest (path : Path) : Except LoadError Path :=
  if path.extension ≠ some (utf8 "olproj") then .error (.notOlproj path)
  else fs.canonicalRegularFile path "manifest"

/-- A model file inside the project's root. -/
def ownedFile (root : Path) (relative label : String) : Except LoadError Path := do
  validateRelative relative label
  let canonical ← fs.canonicalRegularFile (root.join relative) label
  if (Path.stripPrefix root canonical).isNone then throw (.outsideRoot label relative)
  let ext := canonical.extension.map fun e => e.map lowerByte
  if ["json", "wksc", "ols", "yaml", "yml"].all fun e => decide (ext ≠ some (utf8 e)) then
    throw (.notModelFile label canonical)
  pure canonical

end FileSystem

namespace Loader

variable (L : Loader) (fs : FileSystem)

def readManifest (path : Path) : Except LoadError NativeManifest := do
  let bytes ← required (.cannotRead "manifest" path) (fs.read path)
  let manifest ← required (.invalidManifest path) (L.parseManifest bytes)
  if manifest.format ≠ nativeProjectFormat then throw (.unsupportedFormat manifest.format path)
  validateId manifest.projectId
  validateLocalName manifest.entrypoint "entrypoint"
  validateRelative manifest.model "model"
  let dependencies ← checkDependencies path [] manifest.dependencies
  checkExports path "node" [] manifest.exports.nodes
  checkExports path "type" [] manifest.exports.types
  checkExports path "constant" [] manifest.exports.constants
  checkExports path "contract" [] manifest.exports.contracts
  pure { manifest with dependencies := dependencies }

/-- The model in a file, by the file's extension. -/
def parseModel (path : Path) (bytes : List UInt8) : Except LoadError Project :=
  let ext := path.extension.map fun e => e.map lowerByte
  if ["json", "wksc"].any fun e => decide (ext = some (utf8 e)) then
    required (.invalidJson path) (L.parseJson bytes)
  else if ["ols", "yaml", "yml"].any fun e => decide (ext = some (utf8 e)) then
    required (.invalidYaml path) (L.parseYaml bytes)
  else .error (.unsupportedExtension path)

end Loader

/-- What a package declares, by kind and name. -/
def declarations (pkg : Package) : List (String × String) :=
  pkg.nodes.map (fun n => ("node", n.name)) ++ pkg.types.map (fun t => ("type", t.name)) ++
    pkg.constants.map (fun c => ("constant", c.name)) ++
    pkg.stateMachines.map (fun s => ("state_machine", s.name)) ++
    pkg.activations.map (fun a => ("activation", a.name)) ++
    pkg.contracts.map (fun c => ("contract", c.name))

/-- The sources of declarations, by kind and name, with those of one more file. -/
def recordSources (project : Project) (relative : String) (sources : List (String × String)) :
    Except LoadError (List (String × String)) :=
  (project.packages.flatMap declarations).foldlM (fun sources (kind, name) =>
    let key := kind ++ ":" ++ name
    match sources.lookup key with
    | some old => .error (.duplicateLocal kind name old relative)
    | none => .ok ((key, relative) :: sources)) sources

/-- The owned files read so far, by their paths in order, and the sources of the
declarations in them. -/
structure ModelFiles where
  files : List (String × List UInt8) := []
  sources : List (String × String) := []

/-- Replace or add a file, in the order of the paths. -/
def insertFile (relative : String) (bytes : List UInt8) :
    List (String × List UInt8) → List (String × List UInt8)
  | [] => [(relative, bytes)]
  | (other, old) :: rest =>
    if relative = other then (relative, bytes) :: rest
    else if utf8 relative < utf8 other then (relative, bytes) :: (other, old) :: rest
    else (other, old) :: insertFile relative bytes rest

namespace ModelFiles

variable (L : Loader) (fs : FileSystem) (root : Path)

/-- A model file's path below the root, with slashes. -/
def relativePath (path : Path) : Except LoadError String :=
  match Path.stripPrefix root path with
  | none => .error (.modelOutsideRoot path)
  | some below =>
    match ofUtf8 (List.intercalate [47] below) with
    | none => .error (.notUtf8 path)
    | some text => .ok (String.ofList (text.toList.map fun c => if c = '\\' then '/' else c))

/-- The file an include in a file of a directory names. -/
def includePath (directory : Path) (text : String) : Except LoadError Path := do
  validateRelative text "model include"
  let below ← required (.includeOutsideRoot text) (Path.stripPrefix root (directory.join text))
  -- the directory is one of a file already read, whose path is UTF-8
  let relative ← required (.includeOutsideRoot text) (ofUtf8 (List.intercalate [47] below))
  fs.ownedFile root relative "model include"

/-- A model with what a file included in the file at a path gives, as `read` reads it. -/
def addInclude (path : Path) (read : Path → ModelFiles → Except LoadError (Project × ModelFiles))
    (state : Project × ModelFiles) (text : String) : Except LoadError (Project × ModelFiles) := do
  let included ← includePath fs root (path.parent.getD root) text
  let (other, model) ← read included state.2
  pure (state.1.merge other, model)

/-- The model in a file with the files it includes.  `active` are the files whose
includes are being read. -/
def visit : Nat → List Path → Path → ModelFiles → Except LoadError (Project × ModelFiles)
  | 0, _, _, _ => .error .outOfFuel
  | fuel + 1, active, path, model =>
    if active.contains path then .error (.cyclicInclude path)
    else do
      let relative ← relativePath root path
      if model.files.any (·.1 = relative) then pure ({ packages := [] }, model)
      else do
        let bytes ← required (.cannotRead "model" path) (fs.read path)
        let project ← L.parseModel path bytes
        let sources ← recordSources project relative model.sources
        -- an included fragment's main never changes the native entrypoint
        let (merged, model) ← project.includes.foldlM
          (addInclude fs root path (visit fuel (path :: active)))
          ({ project with main := none, includes := [] }, { model with sources := sources })
        pure (merged, { model with files := insertFile relative bytes model.files })

end ModelFiles

end OpenLustre.NativeProject
