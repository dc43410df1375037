import Mathlib.Data.List.Perm.Subperm
import OpenLustre.Lib.Stateful
import OpenLustre.NativeProject.Graph

/-! The files of a system are enough fuel to load a project. -/

namespace OpenLustre.NativeProject

open OpenLustre.Ir

/-- A computation that does not run out of fuel. -/
def Ends {α : Type} (x : Except LoadError α) : Prop := x ≠ .error .outOfFuel

namespace Ends

variable {α β : Type}

theorem ok (a : α) : Ends (.ok a) := by
  intro h
  cases h

theorem error {e : LoadError} (h : e ≠ .outOfFuel) : Ends (.error e : Except LoadError α) :=
  fun heq => h (Except.error.inj heq)

theorem bind {x : Except LoadError α} {f : α → Except LoadError β} (hx : Ends x)
    (hf : ∀ a, x = .ok a → Ends (f a)) : Ends (x >>= f) := by
  cases x with
  | error e => exact error fun h => hx (congrArg _ h)
  | ok a => exact hf a rfl

theorem ite {P : Prop} [Decidable P] {x y : Except LoadError α} (hx : P → Ends x) (hy : ¬ P → Ends y) :
    Ends (if P then x else y) := by
  split
  · next h => exact hx h
  · next h => exact hy h

theorem required {e : LoadError} (h : e ≠ .outOfFuel) (o : Option α) :
    Ends (NativeProject.required e o) := by
  cases o with
  | none => exact error h
  | some a => exact ok a

theorem mapError {ε : Type} {f : ε → LoadError} (h : ∀ e, f e ≠ .outOfFuel) (x : Except ε α) :
    Ends (x.mapError f) := by
  cases x with
  | error e => exact error (h e)
  | ok a => exact ok a

theorem foldlM {f : β → α → Except LoadError β} (items : List α) (b : β)
    (hf : ∀ b, ∀ a ∈ items, Ends (f b a)) : Ends (items.foldlM f b) := by
  induction items generalizing b with
  | nil => exact ok b
  | cons a items ih =>
    rw [List.foldlM_cons]
    apply bind (hf b a List.mem_cons_self)
    intro b' _
    exact ih b' fun b a ha => hf b a (List.mem_cons_of_mem _ ha)

end Ends

theorem validateId_ends (id : String) : Ends (validateId id) :=
  .ite (fun _ => .error nofun) fun _ => .ok _

theorem validateRelative_ends (value label : String) : Ends (validateRelative value label) :=
  .ite (fun _ => .error nofun) fun _ => .ok _

theorem validateLocalName_ends (name label : String) : Ends (validateLocalName name label) := by
  unfold validateLocalName
  split
  · exact .error nofun
  · exact .ite (fun _ => .ok _) fun _ => .error nofun

theorem checkDependencies_ends (path : Path) (seen : List String) (deps : List NativeDependency) :
    Ends (checkDependencies path seen deps) := by
  induction deps generalizing seen with
  | nil => exact .ok _
  | cons dep deps ih =>
    apply (validateLocalName_ends _ _).bind
    intro _ _
    apply Ends.ite
    · exact fun _ => .error nofun
    intro _
    apply (validateRelative_ends _ _).bind
    intro _ _
    apply (validateId_ends _).bind
    intro _ _
    apply Ends.ite
    · exact fun _ => .error nofun
    intro _
    apply (ih _).bind
    exact fun _ _ => .ok _

theorem checkExports_ends (path : Path) (kind : String) (seen names : List String) :
    Ends (checkExports path kind seen names) := by
  induction names generalizing seen with
  | nil => exact .ok _
  | cons name names ih =>
    apply (validateLocalName_ends _ _).bind
    intro _ _
    exact .ite (fun _ => .error nofun) fun _ => ih _

variable {L : Loader} {fs : FileSystem} {root : Path}

theorem canonicalRegularFile_ends (path : Path) (label : String) :
    Ends (fs.canonicalRegularFile path label) := by
  unfold FileSystem.canonicalRegularFile
  split
  · exact .error nofun
  · exact .ite (fun _ => .ok _) fun _ => .error nofun

theorem canonicalManifest_ends (path : Path) : Ends (fs.canonicalManifest path) :=
  .ite (fun _ => .error nofun) fun _ => canonicalRegularFile_ends _ _

theorem ownedFile_ends (relative label : String) : Ends (fs.ownedFile root relative label) := by
  apply (validateRelative_ends _ _).bind
  intro _ _
  apply (canonicalRegularFile_ends _ _).bind
  intro _ _
  apply Ends.ite
  · exact fun _ => .error nofun
  intro _
  exact .ite (fun _ => .error nofun) fun _ => .ok _

theorem readManifest_ends (path : Path) : Ends (L.readManifest fs path) := by
  refine Ends.bind (.required (by nofun) _) ?_
  intro _ _
  refine Ends.bind (.required (by nofun) _) ?_
  intro _ _
  apply Ends.ite
  · exact fun _ => .error nofun
  intro _
  apply (validateId_ends _).bind
  intro _ _
  apply (validateLocalName_ends _ _).bind
  intro _ _
  apply (validateRelative_ends _ _).bind
  intro _ _
  apply (checkDependencies_ends _ _ _).bind
  intro _ _
  apply (checkExports_ends _ _ _ _).bind
  intro _ _
  apply (checkExports_ends _ _ _ _).bind
  intro _ _
  apply (checkExports_ends _ _ _ _).bind
  intro _ _
  apply (checkExports_ends _ _ _ _).bind
  exact fun _ _ => .ok _

theorem parseModel_ends (path : Path) (bytes : List UInt8) : Ends (L.parseModel path bytes) := by
  apply Ends.ite
  · exact fun _ => .required (by nofun) _
  intro _
  exact .ite (fun _ => .required (by nofun) _) fun _ => .error nofun

theorem recordSources_ends (project : Project) (relative : String)
    (sources : List (String × String)) : Ends (recordSources project relative sources) := by
  apply Ends.foldlM
  rintro sources ⟨kind, name⟩ _
  dsimp only
  split
  · exact .error nofun
  · exact .ok _

theorem relativePath_ends (path : Path) : Ends (ModelFiles.relativePath root path) := by
  unfold ModelFiles.relativePath
  split
  · exact .error nofun
  · split
    · exact .error nofun
    · exact .ok _

theorem includePath_ends (directory : Path) (text : String) :
    Ends (ModelFiles.includePath fs root directory text) := by
  apply (validateRelative_ends _ _).bind
  intro _ _
  refine Ends.bind (.required (by nofun) _) ?_
  intro _ _
  refine Ends.bind (.required (by nofun) _) ?_
  exact fun _ _ => ownedFile_ends _ _

theorem isFile_of_canonicalRegularFile {path canonical : Path} {label : String}
    (h : fs.canonicalRegularFile path label = .ok canonical) : fs.isFile canonical := by
  unfold FileSystem.canonicalRegularFile at h
  split at h
  · cases h
  · split at h
    · next hfile =>
      cases h
      exact hfile
    · cases h

theorem isFile_of_canonicalManifest {path canonical : Path}
    (h : fs.canonicalManifest path = .ok canonical) : fs.isFile canonical := by
  unfold FileSystem.canonicalManifest at h
  split at h
  · cases h
  · exact isFile_of_canonicalRegularFile h

theorem isFile_of_ownedFile {relative label : String} {canonical : Path}
    (h : fs.ownedFile root relative label = .ok canonical) : fs.isFile canonical := by
  obtain ⟨_, -, h⟩ := Except.bind_eq_ok.mp h
  obtain ⟨canonical', hfile, h⟩ := Except.bind_eq_ok.mp h
  split at h
  · cases h
  · dsimp only at h
    split at h
    · cases h
    · cases h
      exact isFile_of_canonicalRegularFile hfile

/-- Files that are being read, each of them once. -/
structure Active (fs : FileSystem) (fuel : Nat) (active : List Path) : Prop where
  nodup : active.Nodup
  files : ∀ path ∈ active, fs.isFile path
  enough : fs.files.length < fuel + active.length

theorem Active.nil (fs : FileSystem) : Active fs (fs.files.length + 1) [] where
  nodup := .nil
  files _ h := by cases h
  enough := Nat.lt_succ_self _

/-- There are no more files being read than there are files. -/
theorem Active.fuel_ne_zero {active : List Path} : ¬ Active fs 0 active := by
  intro h
  have hsubset : active ⊆ fs.files.map (·.1) := by
    intro path hpath
    obtain ⟨contents, hcontents⟩ := Option.isSome_iff_exists.mp (h.files path hpath)
    obtain ⟨before, after, hfiles, -⟩ := List.lookup_eq_some_iff.mp hcontents
    rw [hfiles]
    simp
  have hle := (List.subperm_of_subset h.nodup hsubset).length_le
  have henough := h.enough
  rw [List.length_map] at hle
  omega

theorem Active.more {fuel : Nat} {active active' : List Path} {path : Path}
    (h : Active fs (fuel + 1) active) (hnew : path ∉ active) (hfile : fs.isFile path)
    (hperm : active'.Perm (path :: active)) : Active fs fuel active' where
  nodup := hperm.nodup_iff.mpr (List.nodup_cons.mpr ⟨hnew, h.nodup⟩)
  files other hother := by
    obtain rfl | hother := List.mem_cons.mp (hperm.subset hother)
    · exact hfile
    · exact h.files other hother
  enough := by
    have henough := h.enough
    rw [hperm.length_eq, List.length_cons]
    omega

theorem modelFiles_visit_ends {fuel : Nat} {active : List Path} {path : Path} (model : ModelFiles)
    (hactive : Active fs fuel active) (hfile : fs.isFile path) :
    Ends (ModelFiles.visit L fs root fuel active path model) := by
  induction fuel generalizing active path model with
  | zero => exact absurd hactive Active.fuel_ne_zero
  | succ fuel ih =>
    unfold ModelFiles.visit
    apply Ends.ite
    · exact fun _ => .error nofun
    intro hnew
    apply (relativePath_ends _).bind
    intro relative _
    apply Ends.ite
    · exact fun _ => .ok _
    intro _
    refine Ends.bind (.required (by nofun) _) ?_
    intro bytes _
    apply (parseModel_ends _ _).bind
    intro project _
    apply (recordSources_ends _ _ _).bind
    intro sources _
    apply Ends.bind
    · apply Ends.foldlM
      intro state text _
      apply (includePath_ends _ _).bind
      intro included hincluded
      obtain ⟨_, -, hincluded⟩ := Except.bind_eq_ok.mp hincluded
      obtain ⟨_, -, hincluded⟩ := Except.bind_eq_ok.mp hincluded
      obtain ⟨_, -, hincluded⟩ := Except.bind_eq_ok.mp hincluded
      apply (ih _ (hactive.more (by simpa using hnew) hfile (.refl _))
        (isFile_of_ownedFile hincluded)).bind
      exact fun _ _ => .ok _
    · exact fun _ _ => .ok _

theorem snapshot_ends (manifest : NativeManifest) (files : List (String × List UInt8)) :
    Ends (snapshot L manifest files) := by
  unfold snapshot
  dsimp only
  split
  · exact .ok _
  · exact .error nofun

theorem readOwn_ends (path : Path) : Ends (L.readOwn fs path) := by
  apply (readManifest_ends _).bind
  intro manifest _
  refine Ends.bind (.required (by nofun) _) ?_
  intro root _
  apply (ownedFile_ends _ _).bind
  intro modelPath hmodel
  apply (modelFiles_visit_ends _ (.nil fs) (isFile_of_ownedFile hmodel)).bind
  intro result _
  apply (snapshot_ends _ _).bind
  exact fun _ _ => .ok _

namespace Graph

theorem checkDependency_ends (graph : Graph) (verify : Bool) (path depPath : Path)
    (dep : NativeDependency) (id : String) :
    Ends (graph.checkDependency verify path depPath dep id) := by
  unfold checkDependency
  split
  · exact .error nofun
  · apply Ends.ite
    · exact fun _ => .error nofun
    intro _
    exact .ite (fun _ => .error nofun) fun _ => .ok _

theorem lowered_ends (verify : Bool) (path : Path) (own : OwnUnit) :
    Ends (lowered L verify path own) := by
  apply Ends.ite
  · intro _
    apply Ends.bind
    · exact .ite (fun _ => .error nofun) fun _ => .ok _
    · exact fun _ _ => .mapError (fun _ => by nofun) _
  · exact fun _ => .ok _

theorem finish_ends (verify : Bool) (graph : Graph) (path : Path) (own : OwnUnit) :
    Ends (graph.finish L verify path own) := by
  apply (lowered_ends _ _ _).bind
  intro result _
  dsimp only
  split
  · exact .ite (fun _ => .error nofun) fun _ => .ok _
  · exact .ok _

theorem visit_ends {verify : Bool} {fuel : Nat} {active : List Path} {path : Path} (graph : Graph)
    (hactive : Active fs fuel active) (hfile : fs.isFile path) :
    Ends (visit L fs verify fuel active path graph) := by
  induction fuel generalizing active path graph with
  | zero => exact absurd hactive Active.fuel_ne_zero
  | succ fuel ih =>
    unfold visit
    apply Ends.ite
    · exact fun _ => .error nofun
    intro hnew
    split
    · exact .ok _
    · apply (readOwn_ends _).bind
      intro own _
      apply Ends.bind
      · apply Ends.foldlM
        intro graph dep _
        apply Ends.bind
        · apply (validateRelative_ends _ _).bind
          exact fun _ _ => canonicalManifest_ends _
        intro target htarget
        obtain ⟨_, -, htarget⟩ := Except.bind_eq_ok.mp htarget
        apply (ih _ (hactive.more (by simpa using hnew) hfile
          List.perm_append_comm) (isFile_of_canonicalManifest htarget)).bind
        intro result _
        apply (checkDependency_ends _ _ _ _ _ _).bind
        exact fun _ _ => .ok _
      · exact fun _ _ => finish_ends _ _ _ _

end Graph

/-- Loading a graph ends, with the graph or with an error of the source. -/
theorem loadGraph_ends (L : Loader) (fs : FileSystem) (path : Path) : Ends (L.loadGraph fs path) := by
  apply (canonicalManifest_ends _).bind
  intro root hroot
  apply (Graph.visit_ends _ (.nil fs) (isFile_of_canonicalManifest hroot)).bind
  exact fun _ _ => .ok _

end OpenLustre.NativeProject
