import OpenLustre.Ir.Merging
import OpenLustre.Lib.Stateful
import OpenLustre.NativeProject.Files

/-! The loader of model files and directories that include one another. -/

namespace OpenLustre.Legacy

open OpenLustre.Ir OpenLustre.NativeProject Descent

/-- How a model file is written. -/
inductive Syntax
  | json
  | yaml
  deriving DecidableEq, Repr

def Syntax.of (path : Path) : Option Syntax := do
  let ext ← path.extension
  let ext := ext.map lowerByte
  if ext = utf8 "json" ∨ ext = utf8 "wksc" then some .json
  else if ext = utf8 "ols" ∨ ext = utf8 "yaml" ∨ ext = utf8 "yml" then some .yaml
  else none

inductive LoadError
  | outOfFuel
  | io (path : Path)
  | format (path : Path)
  | unsupportedExtension (path : Path)
  | cyclicInclude (path : Path)
  | native (message : String)
  deriving DecidableEq, Repr

/-- The system and the reader of model texts as the loader sees them. -/
structure Host where
  canonicalize : Path → Option Path
  isDir : Path → Bool
  isFile : Path → Bool
  /-- The entries of a directory. -/
  readDir : Path → Option (List Path)
  readToString : Path → Option String
  parse : String → Syntax → Option Project

def isNativeManifest (path : Path) : Bool :=
  path.extension.any fun ext => ext.map lowerByte = utf8 "olproj"

/-- The place that an include in a file names. -/
def includePath (path : Path) (text : String) : Path :=
  if (utf8 text).head? = some 47 then Path.components text else Path.join path.dropLast text

namespace Host

variable (host : Host)

def parseSingleFile (path : Path) : Except LoadError Project :=
  match Syntax.of path with
  | none => .error (.unsupportedExtension path)
  | some syn =>
    match host.readToString path with
    | none => .error (.io path)
    | some data =>
      match host.parse data syn with
      | none => .error (.format path)
      | some project => .ok project

/-- The canonical form of a path, itself where it has none. -/
def canonical (path : Path) : Path := (host.canonicalize path).getD path

/-- The model files of a directory in order. -/
def directoryFiles (dir : Path) : Except LoadError (List Path) :=
  match host.readDir dir with
  | none => .error (.io dir)
  | some entries =>
    if entries.any fun p => host.isFile p && isNativeManifest p then
      .error (.native
        "directory merge cannot consume a native project; select its .olproj manifest explicitly")
    else
      .ok ((entries.filter fun p => host.isFile p && (Syntax.of p).isSome).mergeSort
        fun p q => decide (p ≤ q))

/-- A project with what loading one more path gives. -/
def addChild (load : Path → List Path → Except LoadError (Project × List Path))
    (state : Project × List Path) (path : Path) : Except LoadError (Project × List Path) := do
  let (child, loaded) ← load path state.2
  .ok (state.1.merge child, loaded)

def loadDirectory (load : Path → List Path → Except LoadError (Project × List Path)) (dir : Path)
    (loaded : List Path) : Except LoadError (Project × List Path) := do
  let files ← host.directoryFiles dir
  files.foldlM (addChild load) ({ packages := [] }, loaded)

def loadFileAndIncludes (load : Path → List Path → Except LoadError (Project × List Path))
    (path : Path) (loaded : List Path) : Except LoadError (Project × List Path) := do
  let project ← host.parseSingleFile path
  (project.includes.map (includePath path)).foldlM (addChild load)
    ({ project with includes := [] }, loaded)

def loadActive (load : Path → List Path → Except LoadError (Project × List Path)) (path : Path)
    (loaded : List Path) : Except LoadError (Project × List Path) :=
  if host.isDir path then host.loadDirectory load path loaded
  else host.loadFileAndIncludes load path loaded

/-- The project at a path with all that it includes, and what is loaded then.  `active` is what
is being loaded. -/
def loadRecursive : Nat → List Path → Path → List Path → Except LoadError (Project × List Path)
  | 0, _, _, _ => .error .outOfFuel
  | fuel + 1, active, path, loaded =>
    if isNativeManifest path then
      .error (.native
        "legacy includes cannot import .olproj manifests; use explicit native dependencies")
    else
      let canonical := host.canonical path
      if active.contains canonical then .error (.cyclicInclude path)
      else if loaded.contains canonical then .ok ({ packages := [] }, loaded)
      else do
        let (project, loaded) ←
          host.loadActive (loadRecursive fuel (canonical :: active)) path loaded
        .ok (project, canonical :: loaded)

/-- What a path gives on its own, and the paths that it leads to. -/
def outline (path : Path) : Except LoadError (Project × List Path) :=
  if host.isDir path then do
    let files ← host.directoryFiles path
    .ok ({ packages := [] }, files)
  else do
    let project ← host.parseSingleFile path
    .ok ({ project with includes := [] }, project.includes.map (includePath path))

/-- The paths that loading an entry comes to. -/
inductive Reached (entry : Path) : Path → Prop
  | entry : Reached entry entry
  | step {path next : Path} {project : Project} {paths : List Path} : Reached entry path →
    host.outline path = .ok (project, paths) → next ∈ paths → Reached entry next

/-- One file or directory includes another. -/
def Includes (entry a b : Path) : Prop :=
  ∃ path project paths next, host.Reached entry path ∧ host.canonical path = a ∧
    host.outline path = .ok (project, paths) ∧ next ∈ paths ∧ host.canonical next = b

/-- What a file declares on its own. -/
def Declares (entry a : Path) (packages : List Package) : Prop :=
  ∃ path project paths, host.Reached entry path ∧ host.canonical path = a ∧
    host.outline path = .ok (project, paths) ∧ project.packages = packages

/-- Everything that an entry leads to exists and is well formed, and what a file declares and
includes does not depend on the path that it is reached by. -/
structure WellFormed (entry : Path) : Prop where
  legacy : ∀ path, host.Reached entry path → isNativeManifest path = false
  outlined : ∀ path, host.Reached entry path → ∃ outlined, host.outline path = .ok outlined
  alike : ∀ path path' project project' paths paths', host.Reached entry path →
    host.Reached entry path' → host.canonical path = host.canonical path' →
    host.outline path = .ok (project, paths) → host.outline path' = .ok (project', paths') →
    project.packages = project'.packages ∧ paths.map host.canonical = paths'.map host.canonical

/-- The files that loading comes to are finitely many. -/
def Within (entry : Path) (files : List Path) : Prop :=
  ∀ path, host.Reached entry path → host.canonical path ∈ files

variable {host} {entry : Path}

theorem loadActive_eq (load : Path → List Path → Except LoadError (Project × List Path))
    (path : Path) (loaded : List Path) :
    host.loadActive load path loaded = host.outline path >>= fun outlined =>
      outlined.2.foldlM (addChild load) (outlined.1, loaded) := by
  unfold loadActive outline loadDirectory loadFileAndIncludes
  split
  · cases host.directoryFiles path <;> rfl
  · cases host.parseSingleFile path <;> rfl

theorem WellFormed.includes_iff (h : host.WellFormed entry) {path : Path} {project : Project}
    {paths : List Path} (hpath : host.Reached entry path)
    (houtline : host.outline path = .ok (project, paths)) (b : Path) :
    host.Includes entry (host.canonical path) b ↔ b ∈ paths.map host.canonical := by
  constructor
  · rintro ⟨path', project', paths', next, hpath', hsame, houtline', hnext, rfl⟩
    obtain ⟨-, hpaths⟩ := h.alike path' path project' project paths' paths hpath' hpath hsame
      houtline' houtline
    exact hpaths ▸ List.mem_map_of_mem hnext
  · intro hb
    obtain ⟨next, hnext, rfl⟩ := List.mem_map.mp hb
    exact ⟨path, project, paths, next, hpath, rfl, houtline, hnext, rfl⟩

/-- Either a cycle was met, or all that is reached from the targets is merged. -/
inductive Outcome (host : Host) (entry : Path) (way done targets : List Path)
    (before : List Package) : Except LoadError (Project × List Path) → Prop
  | cyclic {path : Path} : Cyclic (host.Includes entry) (host.canonical entry) →
    Outcome host entry way done targets before (.error (.cyclicInclude path))
  | loaded {project : Project} {files : List (Path × List Package)} :
    Merged (host.Includes entry) (host.Declares entry) way done targets before project.packages
      files →
    Outcome host entry way done targets before (.ok (project, files.map (·.1) ++ done))

theorem foldlM_outcome {way done : List Path}
    {load : Path → List Path → Except LoadError (Project × List Path)} {paths : List Path}
    (hload : ∀ path ∈ paths, ∀ done, Finished (host.Includes entry) done →
      Outcome host entry way done [host.canonical path] [] (load path done))
    (hdone : Finished (host.Includes entry) done) (project : Project) :
    Outcome host entry way done (paths.map host.canonical) project.packages
      (paths.foldlM (addChild load) (project, done)) := by
  induction paths generalizing project done with
  | nil => exact .loaded (.nil hdone _)
  | cons path paths ih =>
    have hpath := hload path List.mem_cons_self done hdone
    rw [List.foldlM_cons, addChild]
    generalize load path done = result at hpath
    cases hpath with
    | cyclic hcyclic => exact .cyclic hcyclic
    | @loaded child files hmerged =>
      have hrest := ih (fun path hpath => hload path (List.mem_cons_of_mem _ hpath))
        hmerged.explored.finished (project.merge child)
      simp only [bind, Except.bind]
      generalize paths.foldlM (addChild load) (project.merge child, _) = result at hrest
      cases hrest with
      | cyclic hcyclic => exact .cyclic hcyclic
      | loaded hrest =>
        rw [← List.append_assoc, ← List.map_append]
        exact .loaded (hmerged.cons hrest)

/-- Loading a path ends, with a cycle or with all that the path leads to. -/
theorem loadRecursive_outcome (h : host.WellFormed entry) {files : List Path}
    (hwithin : host.Within entry files) {fuel : Nat} {way done : List Path} {path : Path}
    (hpath : host.Reached entry path)
    (hway : Way (host.Includes entry) (host.canonical entry) (host.canonical path :: way))
    (hfuel : left files way < fuel) (hdone : Finished (host.Includes entry) done) :
    Outcome host entry way done [host.canonical path] []
      (host.loadRecursive fuel way path done) := by
  induction fuel generalizing way done path with
  | zero => exact absurd hfuel (Nat.not_lt_zero _)
  | succ fuel ih =>
    simp only [loadRecursive, h.legacy path hpath, Bool.false_eq_true, if_false]
    split
    · next hmem => exact .cyclic (hway.cyclic (by simpa using hmem))
    · next hnew =>
      have hnew : host.canonical path ∉ way := by simpa using hnew
      split
      · next hmem =>
        exact @Outcome.loaded _ _ _ _ _ _ { packages := [] } []
          (.again hdone (by simpa using hmem))
      · next hunknown =>
        obtain ⟨⟨project, paths⟩, houtline⟩ := h.outlined path hpath
        have hincludes := h.includes_iff hpath houtline
        have hless := left_lt (hwithin path hpath) hnew
        have hall := foldlM_outcome (fun next hnext done hdone =>
          ih (hpath.step houtline hnext)
            (hway.step ((hincludes _).mpr (List.mem_map_of_mem hnext))) (by omega) hdone) hdone project
        rw [loadActive_eq, houtline]
        simp only [bind, Except.bind]
        generalize paths.foldlM (addChild (host.loadRecursive fuel (host.canonical path :: way)))
          (project, done) = result at hall ⊢
        cases hall with
        | cyclic hcyclic => exact .cyclic hcyclic
        | loaded hmerged =>
          exact .loaded (hmerged.node ⟨path, project, paths, hpath, rfl, houtline, rfl⟩
            (by simpa using hunknown) hnew hincludes)

theorem loadRecursive_entry (h : host.WellFormed entry) {files : List Path}
    (hwithin : host.Within entry files) {fuel : Nat} (hfuel : files.length < fuel) :
    Outcome host entry [] [] [host.canonical entry] [] (host.loadRecursive fuel [] entry []) :=
  loadRecursive_outcome h hwithin .entry .start ((left_le files []).trans_lt hfuel) .nil

end Host

end OpenLustre.Legacy
