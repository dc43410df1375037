import OpenLustre.NativeProject.Fuel
import OpenLustre.NativeProject.Included

/-! What a snapshot determines: the manifest, the model files and, through the pins,
every dependency. -/

namespace OpenLustre.NativeProject

open OpenLustre.Ir

/-- The project at a path has an identity and a snapshot, and so do its dependencies,
those its manifest says. -/
inductive Verified (L : Loader) (fs : FileSystem) : Path → String → String → Prop
  | intro {path : Path} {id hash : String} {own : OwnUnit} (hown : L.readOwn fs path = .ok own)
    (hid : own.manifest.projectId = id) (hhash : own.snapshot = hash)
    (hfound : ∀ dep ∈ own.manifest.dependencies, ∃ target, dependencyPath fs path dep = .ok target)
    (hpinned : ∀ dep ∈ own.manifest.dependencies, ∀ target,
      dependencyPath fs path dep = .ok target →
        Verified L fs target dep.projectId dep.snapshotSha256) :
    Verified L fs path id hash

/-- The projects at two paths have one manifest and the same model files, and so do
their dependencies under each alias. -/
inductive SameGraph (L : Loader) (fs fs' : FileSystem) : Path → Path → Prop
  | intro {path path' : Path} {own own' : OwnUnit} (hown : L.readOwn fs path = .ok own)
    (hown' : L.readOwn fs' path' = .ok own') (hmanifest : own.manifest = own'.manifest)
    (hfiles : own.files = own'.files)
    (hfound : ∀ dep ∈ own.manifest.dependencies, ∃ target target',
      dependencyPath fs path dep = .ok target ∧ dependencyPath fs' path' dep = .ok target')
    (hsame : ∀ dep ∈ own.manifest.dependencies, ∀ target target',
      dependencyPath fs path dep = .ok target → dependencyPath fs' path' dep = .ok target' →
        SameGraph L fs fs' target target') :
    SameGraph L fs fs' path path'

/-- The projects a manifest's project depends on, directly or not, and itself. -/
inductive Reaches (L : Loader) (fs : FileSystem) : Path → Path → Prop
  | refl (path : Path) : Reaches L fs path path
  | step {path target last : Path} {own : OwnUnit} {dep : NativeDependency}
    (hown : L.readOwn fs path = .ok own) (hdep : dep ∈ own.manifest.dependencies)
    (htarget : dependencyPath fs path dep = .ok target) (hrest : Reaches L fs target last) :
    Reaches L fs path last

theorem snapshot_eq_ok {L : Loader} {manifest : NativeManifest}
    {files : List (String × List UInt8)} {hash : String} :
    snapshot L manifest files = .ok hash ↔
      (snapshotBytes manifest files).length < 2 ^ 63 ∧ hash = L.digest (snapshotBytes manifest files) := by
  unfold snapshot
  dsimp only
  split
  · next hlen => exact ⟨fun h => ⟨hlen, (Except.ok.inj h).symm⟩, fun h => congrArg _ h.2.symm⟩
  · next hlen => exact ⟨fun h => (by cases h), fun h => absurd h.1 hlen⟩

theorem snapshot_injective {L : Loader} (hdigest : Function.Injective L.digest)
    {manifest manifest' : NativeManifest} {files files' : List (String × List UInt8)} {hash : String}
    (h : snapshot L manifest files = .ok hash) (h' : snapshot L manifest' files' = .ok hash) :
    manifest = manifest' ∧ files = files' := by
  obtain ⟨hlen, rfl⟩ := snapshot_eq_ok.mp h
  obtain ⟨-, heq⟩ := snapshot_eq_ok.mp h'
  exact snapshotBytes_injective hlen (hdigest heq)

theorem snapshot_of_readOwn {L : Loader} {fs : FileSystem} {path : Path} {own : OwnUnit}
    (h : L.readOwn fs path = .ok own) : snapshot L own.manifest own.files = .ok own.snapshot := by
  obtain ⟨manifest, -, h⟩ := Except.bind_eq_ok.mp h
  obtain ⟨root, -, h⟩ := Except.bind_eq_ok.mp h
  obtain ⟨modelPath, -, h⟩ := Except.bind_eq_ok.mp h
  obtain ⟨⟨project, model⟩, -, h⟩ := Except.bind_eq_ok.mp h
  obtain ⟨hash, hsnapshot, h⟩ := Except.bind_eq_ok.mp h
  cases h
  exact hsnapshot

/-- Projects that are verified and have one snapshot are the same. -/
theorem Verified.sameGraph {L : Loader} (hdigest : Function.Injective L.digest)
    {fs fs' : FileSystem} {path path' : Path} {id id' hash : String}
    (h : Verified L fs path id hash) (h' : Verified L fs' path' id' hash) :
    SameGraph L fs fs' path path' := by
  induction h generalizing path' id' with
  | @intro path _ hash own hown _ hhash hfound _ ih =>
    cases h' with
    | @intro _ _ _ own' hown' _ hhash' hfound' hpinned' =>
      have hsnapshot : snapshot L own.manifest own.files = .ok hash :=
        hhash ▸ snapshot_of_readOwn hown
      have hsnapshot' : snapshot L own'.manifest own'.files = .ok hash :=
        hhash' ▸ snapshot_of_readOwn hown'
      obtain ⟨hmanifest, hfiles⟩ := snapshot_injective hdigest hsnapshot hsnapshot'
      apply SameGraph.intro hown hown' hmanifest hfiles
      · intro dep hdep
        obtain ⟨target, htarget⟩ := hfound dep hdep
        obtain ⟨target', htarget'⟩ := hfound' dep (hmanifest ▸ hdep)
        exact ⟨target, target', htarget, htarget'⟩
      · intro dep hdep target target' htarget htarget'
        exact ih dep hdep target htarget (hpinned' dep (hmanifest ▸ hdep) target' htarget')

theorem Verified.of_reaches {L : Loader} {fs : FileSystem} {path last : Path} {id hash : String}
    (h : Verified L fs path id hash) (hreaches : Reaches L fs path last) :
    ∃ id hash, Verified L fs last id hash := by
  induction hreaches generalizing id hash with
  | refl => exact ⟨id, hash, h⟩
  | step hown hdep htarget _ ih =>
    cases h with
    | intro hown' _ _ _ hpinned =>
      cases hown.symm.trans hown'
      exact ih (hpinned _ hdep _ htarget)

namespace Graph

structure Extends (graph graph' : Graph) : Prop where
  paths : ∀ path entry, graph.paths.lookup path = some entry → graph'.paths.lookup path = some entry
  units : ∀ id unit, graph.units.lookup id = some unit → graph'.units.lookup id = some unit

theorem Extends.refl (graph : Graph) : graph.Extends graph := ⟨fun _ _ => id, fun _ _ => id⟩

theorem Extends.trans {graph graph' graph'' : Graph} (h : graph.Extends graph')
    (h' : graph'.Extends graph'') : graph.Extends graph'' where
  paths path entry hentry := h'.paths path entry (h.paths path entry hentry)
  units id unit hunit := h'.units id unit (h.units id unit hunit)

/-- Every project loaded is verified; its identity leads to the unit of its snapshot,
and what a unit's manifest depends on leads to the units it pins. -/
structure Sound (L : Loader) (fs : FileSystem) (graph : Graph) : Prop where
  verified : ∀ path id hash, graph.paths.lookup path = some (id, hash) → Verified L fs path id hash
  units : ∀ path id hash, graph.paths.lookup path = some (id, hash) →
    ∃ unit, graph.units.lookup id = some unit ∧ unit.snapshotSha256 = hash
  pinned : ∀ id unit, graph.units.lookup id = some unit → ∀ dep ∈ unit.manifest.dependencies,
    ∃ other, graph.units.lookup dep.projectId = some other ∧
      other.snapshotSha256 = dep.snapshotSha256

theorem Sound.empty (L : Loader) (fs : FileSystem) : Sound L fs {} where
  verified _ _ _ h := by cases h
  units _ _ _ h := by cases h
  pinned _ _ h := by cases h

/-- A dependency of the project at a path is loaded as its manifest says. -/
def HasDependency (fs : FileSystem) (graph : Graph) (path : Path) (dep : NativeDependency) : Prop :=
  ∃ target, dependencyPath fs path dep = .ok target ∧
    graph.paths.lookup target = some (dep.projectId, dep.snapshotSha256)

theorem checkDependency_eq_ok {graph : Graph} {path depPath : Path} {dep : NativeDependency}
    {id hash : String} (hlookup : graph.paths.lookup depPath = some (id, hash)) {u : Unit}
    (h : graph.checkDependency true path depPath dep id = .ok u) :
    dep.projectId = id ∧ dep.snapshotSha256 = hash := by
  unfold checkDependency at h
  rw [hlookup] at h
  dsimp only at h
  split at h
  · cases h
  · next hid =>
    split at h
    · cases h
    · next hhash => exact ⟨not_not.mp hid, by simpa using hhash⟩

theorem lookup_cons_eq_some {κ α : Type} [BEq κ] [LawfulBEq κ] {key other : κ} {entry found : α}
    {rest : List (κ × α)} : ((key, entry) :: rest).lookup other = some found ↔
      other = key ∧ found = entry ∨ other ≠ key ∧ rest.lookup other = some found := by
  by_cases h : other = key
  · simp [h, List.lookup_cons_self, eq_comm]
  · simp [h, List.lookup_cons, beq_eq_false_iff_ne.mpr h]

/-- A project whose identity leads to a unit of its snapshot can be added. -/
theorem Sound.insert {L : Loader} {fs : FileSystem} {graph graph' : Graph} {path : Path}
    {id hash : String} (hsound : graph.Sound L fs) (hverified : Verified L fs path id hash)
    (hpaths : graph'.paths = (path, id, hash) :: graph.paths)
    (hunits : ∀ id unit, graph.units.lookup id = some unit → graph'.units.lookup id = some unit)
    (hunit : ∃ unit, graph'.units.lookup id = some unit ∧ unit.snapshotSha256 = hash)
    (hpinned : ∀ id unit, graph'.units.lookup id = some unit → ∀ dep ∈ unit.manifest.dependencies,
      ∃ other, graph.units.lookup dep.projectId = some other ∧
        other.snapshotSha256 = dep.snapshotSha256) : graph'.Sound L fs := by
  have hlookup : ∀ other entry, graph'.paths.lookup other = some entry →
      other = path ∧ entry = (id, hash) ∨ graph.paths.lookup other = some entry := by
    intro other entry h
    rw [hpaths, lookup_cons_eq_some] at h
    exact h.imp_right And.right
  constructor
  case verified =>
    intro other id' hash' h
    obtain ⟨rfl, heq⟩ | h := hlookup other _ h
    · cases heq
      exact hverified
    · exact hsound.verified _ _ _ h
  case units =>
    intro other id' hash' h
    obtain ⟨rfl, heq⟩ | h := hlookup other _ h
    · cases heq
      exact hunit
    · obtain ⟨unit, hlookup, heq⟩ := hsound.units _ _ _ h
      exact ⟨unit, hunits _ _ hlookup, heq⟩
  case pinned =>
    intro id' unit h dep hdep
    obtain ⟨other, hlookup, heq⟩ := hpinned id' unit h dep hdep
    exact ⟨other, hunits _ _ hlookup, heq⟩

/-- What a project adds to the graph its dependencies are in. -/
theorem Sound.finish {L : Loader} {fs : FileSystem} {graph graph' : Graph} {path : Path}
    {own : OwnUnit} {id : String} (hsound : graph.Sound L fs) (hown : L.readOwn fs path = .ok own)
    (hdeps : ∀ dep ∈ own.manifest.dependencies, HasDependency fs graph path dep)
    (h : graph.finish L true path own = .ok (id, graph')) :
    graph'.Sound L fs ∧ graph'.paths = (path, id, own.snapshot) :: graph.paths ∧
      ∀ id unit, graph.units.lookup id = some unit → graph'.units.lookup id = some unit := by
  have hverified : Verified L fs path own.manifest.projectId own.snapshot := by
    apply Verified.intro hown rfl rfl
    · intro dep hdep
      obtain ⟨target, htarget, -⟩ := hdeps dep hdep
      exact ⟨target, htarget⟩
    · intro dep hdep target htarget
      obtain ⟨target', htarget', hlookup⟩ := hdeps dep hdep
      cases htarget.symm.trans htarget'
      exact hsound.verified _ _ _ hlookup
  obtain ⟨⟨project, sources⟩, -, h⟩ := Except.bind_eq_ok.mp h
  dsimp only at h
  split at h
  · next old hold =>
    split at h
    · cases h
    · next hsame =>
      cases h
      refine ⟨hsound.insert hverified rfl (fun _ _ h => h) ⟨old, hold, by simpa using hsame⟩
        hsound.pinned, rfl, fun _ _ h => h⟩
  · next hnew =>
    cases h
    have hunits : ∀ id unit, graph.units.lookup id = some unit →
        ((own.manifest.projectId, (⟨own.manifest, project, own.snapshot, path, own.files.map (·.1),
          sources⟩ : NativeUnit)) :: graph.units).lookup id = some unit := by
      intro id unit hunit
      refine lookup_cons_eq_some.mpr (.inr ⟨?_, hunit⟩)
      rintro rfl
      cases hnew.symm.trans hunit
    refine ⟨hsound.insert hverified rfl hunits ⟨_, List.lookup_cons_self, rfl⟩ ?_, rfl, hunits⟩
    intro id unit hunit dep hdep
    obtain ⟨-, rfl⟩ | ⟨-, hunit⟩ := lookup_cons_eq_some.mp hunit
    · obtain ⟨target, -, hlookup⟩ := hdeps dep hdep
      exact hsound.units _ _ _ hlookup
    · exact hsound.pinned id unit hunit dep hdep

theorem HasDependency.mono {fs : FileSystem} {graph graph' : Graph} {path : Path}
    {dep : NativeDependency} (h : HasDependency fs graph path dep) (hmore : graph.Extends graph') :
    HasDependency fs graph' path dep := by
  obtain ⟨target, htarget, hlookup⟩ := h
  exact ⟨target, htarget, hmore.paths _ _ hlookup⟩

/-- What loading a project has to give. -/
def Loads (L : Loader) (fs : FileSystem) (load : Path → Graph → Except LoadError (String × Graph)) :
    Prop :=
  ∀ path graph graph' id, graph.Sound L fs → load path graph = .ok (id, graph') →
    graph'.Sound L fs ∧ graph.Extends graph' ∧ ∃ hash, graph'.paths.lookup path = some (id, hash)

theorem addDependency_sound {L : Loader} {fs : FileSystem} {path : Path}
    {load : Path → Graph → Except LoadError (String × Graph)} (hload : Loads L fs load)
    {graph graph' : Graph} {dep : NativeDependency} (hsound : graph.Sound L fs)
    (h : addDependency fs true path load graph dep = .ok graph') :
    graph'.Sound L fs ∧ graph.Extends graph' ∧ HasDependency fs graph' path dep := by
  obtain ⟨target, htarget, h⟩ := Except.bind_eq_ok.mp h
  obtain ⟨⟨id, graph₁⟩, hloaded, h⟩ := Except.bind_eq_ok.mp h
  obtain ⟨_, hcheck, h⟩ := Except.bind_eq_ok.mp h
  cases h
  obtain ⟨hsound₁, hmore, hash, hlookup⟩ := hload target graph _ id hsound hloaded
  obtain ⟨rfl, rfl⟩ := checkDependency_eq_ok hlookup hcheck
  exact ⟨hsound₁, hmore, target, htarget, hlookup⟩

theorem addDependencies_sound {L : Loader} {fs : FileSystem} {path : Path}
    {load : Path → Graph → Except LoadError (String × Graph)} (hload : Loads L fs load)
    {graph graph' : Graph} {deps : List NativeDependency} (hsound : graph.Sound L fs)
    (h : deps.foldlM (addDependency fs true path load) graph = .ok graph') :
    graph'.Sound L fs ∧ graph.Extends graph' ∧ ∀ dep ∈ deps, HasDependency fs graph' path dep := by
  induction deps generalizing graph with
  | nil =>
    cases h
    exact ⟨hsound, .refl _, fun _ hdep => by cases hdep⟩
  | cons dep deps ih =>
    rw [List.foldlM_cons] at h
    obtain ⟨graph₁, hdep, h⟩ := Except.bind_eq_ok.mp h
    obtain ⟨hsound₁, hmore₁, hhas⟩ := addDependency_sound hload hsound hdep
    obtain ⟨hsound', hmore, hrest⟩ := ih hsound₁ h
    refine ⟨hsound', hmore₁.trans hmore, ?_⟩
    intro other hother
    rcases List.mem_cons.mp hother with rfl | hother
    · exact hhas.mono hmore
    · exact hrest other hother

/-- A project that is loaded is verified, with the graph it is in. -/
theorem visit_loads (L : Loader) (fs : FileSystem) (fuel : Nat) (active : List Path) :
    Loads L fs (visit L fs true fuel active) := by
  induction fuel generalizing active with
  | zero =>
    intro path graph graph' id _ h
    cases h
  | succ fuel ih =>
    intro path graph graph' id hsound h
    unfold visit at h
    split at h
    · cases h
    · split at h
      · next id' hash hlookup =>
        cases h
        exact ⟨hsound, .refl graph, hash, hlookup⟩
      · next hnone =>
        obtain ⟨own, hown, h⟩ := Except.bind_eq_ok.mp h
        obtain ⟨graph₁, hdeps, h⟩ := Except.bind_eq_ok.mp h
        obtain ⟨hsound₁, hmore, hhas⟩ := addDependencies_sound (ih _) hsound hdeps
        obtain ⟨hsound', hpaths, hunits⟩ := hsound₁.finish hown hhas h
        refine ⟨hsound', ⟨?_, fun id unit hunit => hunits id unit (hmore.units id unit hunit)⟩,
          own.snapshot, by rw [hpaths, List.lookup_cons_self]⟩
        intro other entry hentry
        have hne : other ≠ path := by
          rintro rfl
          cases hnone.symm.trans hentry
        rw [hpaths]
        exact lookup_cons_eq_some.mpr (.inr ⟨hne, hmore.paths other entry hentry⟩)

end Graph

/-- The root of a graph that loads is verified. -/
theorem verified_of_loadGraph {L : Loader} {fs : FileSystem} {path : Path} {loaded : Loaded}
    (h : L.loadGraph fs path = .ok loaded) : loaded.graph.Sound L fs ∧
      fs.canonicalManifest path = .ok loaded.root ∧
      ∃ hash, loaded.snapshot = some hash ∧ Verified L fs loaded.root loaded.id hash := by
  obtain ⟨root, hroot, h⟩ := Except.bind_eq_ok.mp h
  obtain ⟨⟨id, graph⟩, hvisit, h⟩ := Except.bind_eq_ok.mp h
  cases h
  obtain ⟨hsound, -, hash, hlookup⟩ := Graph.visit_loads L fs _ _ root {} graph id (.empty L fs) hvisit
  exact ⟨hsound, hroot, hash, congrArg (Option.map Prod.snd) hlookup, hsound.verified _ _ _ hlookup⟩

/-- What the snapshots of a loader pin. -/
structure SnapshotsPin (L : Loader) : Prop where
  /-- The bytes that are hashed tell the manifest, pins included, and the model files. -/
  injective : ∀ manifest manifest' files files', (snapshotBytes manifest files).length < 2 ^ 63 →
    snapshotBytes manifest files = snapshotBytes manifest' files' →
      manifest = manifest' ∧ files = files'
  /-- Verified graphs whose roots have one snapshot are the same. -/
  graph : ∀ fs fs' path path' loaded loaded', L.loadGraph fs path = .ok loaded →
    L.loadGraph fs' path' = .ok loaded' → loaded.snapshot = loaded'.snapshot →
      SameGraph L fs fs' loaded.root loaded'.root
  /-- The model files recorded are those the model includes, where no two of these have one
  recorded path. -/
  files : ∀ fs path root modelPath own, L.readOwn fs path = .ok own → path.parent = some root →
    fs.ownedFile root own.manifest.model "model" = .ok modelPath →
    (∀ file file' relative, Included L fs root modelPath file →
      Included L fs root modelPath file' → ModelFiles.relativePath root file = .ok relative →
      ModelFiles.relativePath root file' = .ok relative → file = file') →
    ∀ relative bytes, (relative, bytes) ∈ own.files ↔ ∃ file, Included L fs root modelPath file ∧
      ModelFiles.relativePath root file = .ok relative ∧ fs.read file = some bytes
  /-- A graph in which a pin is not the snapshot of what it pins is rejected, whatever would
  be made of its units. -/
  rejected : ∀ fs path root last own dep target other, fs.canonicalManifest path = .ok root →
    Reaches L fs root last → L.readOwn fs last = .ok own → dep ∈ own.manifest.dependencies →
    dependencyPath fs last dep = .ok target → L.readOwn fs target = .ok other →
    other.snapshot ≠ dep.snapshotSha256 →
      ∃ e, e ≠ .outOfFuel ∧ ∀ resolve, L.loadNativeProject fs resolve path = .error e
  /-- What the manifest of a unit depends on are the units of the snapshots it pins. -/
  units : ∀ fs path loaded, L.loadGraph fs path = .ok loaded → ∀ id unit,
    loaded.graph.units.lookup id = some unit → ∀ dep ∈ unit.manifest.dependencies, ∃ other,
      loaded.graph.units.lookup dep.projectId = some other ∧
        other.snapshotSha256 = dep.snapshotSha256

theorem snapshots_pin (L : Loader) (hdigest : Function.Injective L.digest) : SnapshotsPin L where
  injective _ _ _ _ := snapshotBytes_injective
  graph fs fs' path path' loaded loaded' h h' hsnapshot := by
    obtain ⟨-, -, hash, hhash, hverified⟩ := verified_of_loadGraph h
    obtain ⟨-, -, hash', hhash', hverified'⟩ := verified_of_loadGraph h'
    obtain rfl : hash = hash' := by rw [hhash, hhash'] at hsnapshot; exact Option.some.inj hsnapshot
    exact hverified.sameGraph hdigest hverified'
  files _ _ _ _ _ := mem_files_iff
  rejected fs path root last own dep target other hroot hreaches hown hdep htarget hother hne := by
    cases hload : L.loadGraph fs path with
    | error e =>
      refine ⟨e, fun he => loadGraph_ends L fs path (he ▸ hload), fun resolve => ?_⟩
      simp only [Loader.loadNativeProject, hload]
      rfl
    | ok loaded =>
      obtain ⟨-, hcanonical, hash, -, hverified⟩ := verified_of_loadGraph hload
      cases hroot.symm.trans hcanonical
      obtain ⟨id, hash', hlast⟩ := hverified.of_reaches hreaches
      cases hlast with
      | intro hown' _ _ _ hpinned =>
        cases hown.symm.trans hown'
        cases hpinned dep hdep target htarget with
        | intro hother' _ hhash _ _ =>
          cases hother.symm.trans hother'
          exact absurd hhash hne
  units fs path loaded h := (verified_of_loadGraph h).1.pinned

/-- A library that a main project uses. -/
def leafManifest : NativeManifest :=
  ⟨nativeProjectFormat, "leaf", "m.json", "N", [], ⟨["N"], [], [], []⟩⟩

def leafPin : String := "0000000000000000000000000000000000000000000000000000000000000000"

def mainManifest : NativeManifest :=
  ⟨nativeProjectFormat, "main", "m.json", "N", [⟨"lib", "leaf/p.olproj", "leaf", leafPin⟩],
    ⟨[], [], [], []⟩⟩

def sampleModel : List UInt8 := utf8 "\x7b\"name\":\"m\"\x7d"

/-- A hash that is injective, and has the pin for the library. -/
def sampleDigest (bytes : List UInt8) : String :=
  if bytes = snapshotBytes leafManifest [("m.json", sampleModel)] then leafPin
  else String.ofList ('x' :: bytes.map fun b => Char.ofNat b.toNat)

/-- Parsers that read the two manifests, also with a line feed at the end, and the model. -/
def sampleLoader : Loader where
  parseManifest bytes :=
    if bytes = jsonManifest leafManifest ∨ bytes = jsonManifest leafManifest ++ [10] then
      some leafManifest
    else if bytes = jsonManifest mainManifest then some mainManifest
    else none
  parseJson bytes := if bytes = sampleModel then some { packages := [] } else none
  parseYaml _ := none
  digest := sampleDigest
  lowerOwned project sources _ := .ok (project, sources)

def mainPath : Path := [utf8 "p.olproj"]

def leafPath : Path := [utf8 "leaf", utf8 "p.olproj"]

/-- The main project and the library, whose manifest ends in the text. -/
def sampleFiles (ending : List UInt8) : FileSystem where
  files := [(mainPath, some (jsonManifest mainManifest)), ([utf8 "m.json"], some sampleModel),
    (leafPath, some (jsonManifest leafManifest ++ ending)),
    ([utf8 "leaf", utf8 "m.json"], some sampleModel)]
  canonicalize := some

theorem sampleDigest_injective : Function.Injective sampleDigest := by
  have hbyte : Function.Injective fun b : UInt8 => Char.ofNat b.toNat := by
    intro a b h
    have hvalid : ∀ n < 256, (Char.ofNat n).toNat = n := by decide +kernel
    apply UInt8.toNat_inj.mp
    rw [← hvalid _ a.toNat_lt, ← hvalid _ b.toNat_lt]
    exact congrArg Char.toNat h
  have hpin (bytes : List UInt8) :
      leafPin ≠ String.ofList ('x' :: bytes.map fun b => Char.ofNat b.toNat) := by
    intro h
    have hhead := congrArg (fun s : String => s.toList.head?) h
    simp [leafPin] at hhead
  intro a b h
  unfold sampleDigest at h
  split at h
  · split at h
    · next ha hb => rw [ha, hb]
    · exact absurd h (hpin b)
  · split at h
    · exact absurd h.symm (hpin a)
    · exact hbyte.list_map (List.cons.inj (String.ofList_injective h)).2

/-- The root and the snapshot of a verified load. -/
def sampleLoad (ending : List UInt8) (path : Path) : Option (Path × Option String) :=
  (sampleLoader.loadGraph (sampleFiles ending) path).toOption.map fun loaded =>
    (loaded.root, loaded.snapshot)

theorem loaded_of_sampleLoad {ending : List UInt8} {path root : Path} {hash : Option String}
    (h : sampleLoad ending path = some (root, hash)) :
    ∃ loaded, sampleLoader.loadGraph (sampleFiles ending) path = .ok loaded ∧
      loaded.root = root ∧ loaded.snapshot = hash := by
  unfold sampleLoad at h
  cases hload : sampleLoader.loadGraph (sampleFiles ending) path with
  | error e =>
    rw [hload] at h
    cases h
  | ok loaded =>
    rw [hload] at h
    cases h
    exact ⟨loaded, rfl, rfl, rfl⟩

theorem sampleLoads : (sampleLoad [] leafPath = some (leafPath, some leafPin) ∧
    sampleLoad [10] leafPath = some (leafPath, some leafPin)) ∧
    (sampleLoad [] mainPath).isSome := by
  decide +kernel

/-- The main project loads with the library as it pins it, and the library is the same
with a line feed after its manifest. -/
theorem snapshots_pin_sample :
    (∃ loaded, sampleLoader.loadGraph (sampleFiles []) mainPath = .ok loaded ∧ ∀ id unit,
      loaded.graph.units.lookup id = some unit → ∀ dep ∈ unit.manifest.dependencies, ∃ other,
        loaded.graph.units.lookup dep.projectId = some other ∧
          other.snapshotSha256 = dep.snapshotSha256) ∧
      SameGraph sampleLoader (sampleFiles []) (sampleFiles [10]) leafPath leafPath := by
  have hpin := snapshots_pin sampleLoader sampleDigest_injective
  constructor
  · obtain ⟨⟨root, hash⟩, hmain⟩ := Option.isSome_iff_exists.mp sampleLoads.2
    obtain ⟨loaded, hload, -, -⟩ := loaded_of_sampleLoad hmain
    exact ⟨loaded, hload, hpin.units _ _ loaded hload⟩
  · obtain ⟨loaded, hload, hroot, hsnapshot⟩ := loaded_of_sampleLoad sampleLoads.1.1
    obtain ⟨loaded', hload', hroot', hsnapshot'⟩ := loaded_of_sampleLoad sampleLoads.1.2
    have hsame := hpin.graph _ _ _ _ loaded loaded' hload hload' (hsnapshot.trans hsnapshot'.symm)
    rwa [hroot, hroot'] at hsame

/-- Two verified loads whose roots have one snapshot, and manifests of different bytes. -/
theorem exists_other_manifest_bytes : ∃ (L : Loader) (fs fs' : FileSystem) (path : Path)
    (loaded loaded' : Loaded), Function.Injective L.digest ∧ L.loadGraph fs path = .ok loaded ∧
      L.loadGraph fs' path = .ok loaded' ∧ loaded.snapshot = loaded'.snapshot ∧
      fs.read loaded.root ≠ fs'.read loaded'.root := by
  obtain ⟨loaded, hload, hroot, hsnapshot⟩ := loaded_of_sampleLoad sampleLoads.1.1
  obtain ⟨loaded', hload', hroot', hsnapshot'⟩ := loaded_of_sampleLoad sampleLoads.1.2
  refine ⟨sampleLoader, sampleFiles [], sampleFiles [10], leafPath, loaded, loaded',
    sampleDigest_injective, hload, hload', hsnapshot.trans hsnapshot'.symm, ?_⟩
  rw [hroot, hroot']
  decide +kernel

end OpenLustre.NativeProject
