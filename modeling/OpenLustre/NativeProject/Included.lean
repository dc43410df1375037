import OpenLustre.Lib.Stateful
import OpenLustre.NativeProject.Graph

/-! The model files a project records are those its model includes. -/

namespace OpenLustre.NativeProject

open OpenLustre.Ir

/-- The files included by the model in a file, directly or not, and itself. -/
inductive Included (L : Loader) (fs : FileSystem) (root : Path) (first : Path) : Path → Prop
  | refl : Included L fs root first first
  | step {path target : Path} {bytes : List UInt8} {project : Project} {text : String}
    (hpath : Included L fs root first path) (hread : fs.read path = some bytes)
    (hproject : L.parseModel path bytes = .ok project) (htext : text ∈ project.includes)
    (htarget : ModelFiles.includePath fs root (path.parent.getD root) text = .ok target) :
    Included L fs root first target

theorem mem_insertFile {relative : String} {bytes : List UInt8} {files : List (String × List UInt8)}
    {file : String × List UInt8} (h : file ∈ insertFile relative bytes files) :
    file = (relative, bytes) ∨ file ∈ files := by
  induction files with
  | nil => exact .inl (List.mem_singleton.mp h)
  | cons other rest ih =>
    obtain ⟨other, old⟩ := other
    unfold insertFile at h
    split at h
    · exact (List.mem_cons.mp h).imp_right (List.mem_cons_of_mem _)
    · split at h
      · exact List.mem_cons.mp h
      · obtain rfl | h := List.mem_cons.mp h
        · exact .inr List.mem_cons_self
        · exact (ih h).imp_right (List.mem_cons_of_mem _)

theorem key_insertFile {relative other : String} {bytes : List UInt8}
    {files : List (String × List UInt8)} (h : other = relative ∨ other ∈ files.map (·.1)) :
    other ∈ (insertFile relative bytes files).map (·.1) := by
  induction files with
  | nil => simpa [insertFile] using h
  | cons file rest ih =>
    obtain ⟨key, old⟩ := file
    unfold insertFile
    split
    · next heq => simpa [← heq] using h
    · split
      · simpa using h
      · simp only [List.map_cons, List.mem_cons] at h ⊢
        obtain h | h | h := h
        · exact .inr (ih (.inl h))
        · exact .inl h
        · exact .inr (ih (.inr h))

namespace ModelFiles

variable {L : Loader} {fs : FileSystem} {root : Path}

def Records (root : Path) (model : ModelFiles) (path : Path) : Prop :=
  ∃ relative, relativePath root path = .ok relative ∧ relative ∈ model.files.map (·.1)

/-- Every file recorded is one of `P`, with its contents, and so are recorded the files it
includes. -/
def Closed (L : Loader) (fs : FileSystem) (root : Path) (P : Path → Prop) (model : ModelFiles) : Prop :=
  ∀ relative bytes, (relative, bytes) ∈ model.files → ∃ path project, P path ∧
    relativePath root path = .ok relative ∧ fs.read path = some bytes ∧
    L.parseModel path bytes = .ok project ∧ ∀ text ∈ project.includes, ∃ target,
      includePath fs root (path.parent.getD root) text = .ok target ∧ model.Records root target

def Extends (model model' : ModelFiles) : Prop :=
  ∀ relative ∈ model.files.map (·.1), relative ∈ model'.files.map (·.1)

theorem Records.mono {model model' : ModelFiles} {path : Path} (h : model.Records root path)
    (hmore : model.Extends model') : model'.Records root path := by
  obtain ⟨relative, hrelative, hmem⟩ := h
  exact ⟨relative, hrelative, hmore relative hmem⟩

/-- What reading a file has to record. -/
def Reads (L : Loader) (fs : FileSystem) (root : Path) (P : Path → Prop)
    (read : Path → ModelFiles → Except LoadError (Project × ModelFiles)) : Prop :=
  ∀ path model project model', P path → model.Closed L fs root P →
    read path model = .ok (project, model') →
      model'.Closed L fs root P ∧ model.Extends model' ∧ model'.Records root path

/-- A file is recorded once those it includes are. -/
theorem Closed.insert {P : Path → Prop} {model : ModelFiles} {path : Path} {relative : String}
    {bytes : List UInt8} {project : Project} (h : model.Closed L fs root P) (hP : P path)
    (hrelative : relativePath root path = .ok relative) (hread : fs.read path = some bytes)
    (hproject : L.parseModel path bytes = .ok project)
    (hincludes : ∀ text ∈ project.includes, ∃ target,
      includePath fs root (path.parent.getD root) text = .ok target ∧ model.Records root target) :
    let model' := { model with files := insertFile relative bytes model.files }
    model'.Closed L fs root P ∧ model.Extends model' ∧ model'.Records root path := by
  intro model'
  have hmore : model.Extends model' := fun other hother => key_insertFile (.inr hother)
  refine ⟨?_, hmore, relative, hrelative, key_insertFile (.inl rfl)⟩
  intro other contents hmem
  obtain heq | hmem := mem_insertFile hmem
  · cases heq
    refine ⟨path, project, hP, hrelative, hread, hproject, fun text htext => ?_⟩
    obtain ⟨target, htarget, hrecords⟩ := hincludes text htext
    exact ⟨target, htarget, hrecords.mono hmore⟩
  · obtain ⟨path, project, hP, hrelative, hread, hproject, hincludes⟩ := h other contents hmem
    refine ⟨path, project, hP, hrelative, hread, hproject, fun text htext => ?_⟩
    obtain ⟨target, htarget, hrecords⟩ := hincludes text htext
    exact ⟨target, htarget, hrecords.mono hmore⟩

theorem addIncludes_reads {P : Path → Prop} {path : Path}
    {read : Path → ModelFiles → Except LoadError (Project × ModelFiles)} (hread : Reads L fs root P read)
    {texts : List String} (hP : ∀ text ∈ texts, ∀ target,
      includePath fs root (path.parent.getD root) text = .ok target → P target)
    {state state' : Project × ModelFiles} (h : state.2.Closed L fs root P)
    (hfold : texts.foldlM (addInclude fs root path read) state = .ok state') :
    state'.2.Closed L fs root P ∧ state.2.Extends state'.2 ∧ ∀ text ∈ texts, ∃ target,
      includePath fs root (path.parent.getD root) text = .ok target ∧ state'.2.Records root target := by
  induction texts generalizing state with
  | nil =>
    cases hfold
    exact ⟨h, fun _ hmem => hmem, fun _ hmem => by cases hmem⟩
  | cons text texts ih =>
    rw [List.foldlM_cons] at hfold
    obtain ⟨state₁, hfirst, hfold⟩ := Except.bind_eq_ok.mp hfold
    obtain ⟨target, htarget, hfirst⟩ := Except.bind_eq_ok.mp hfirst
    obtain ⟨⟨other, model⟩, hother, hfirst⟩ := Except.bind_eq_ok.mp hfirst
    cases hfirst
    obtain ⟨hclosed, hmore₁, hrecords⟩ := hread target state.2 other model
      (hP text List.mem_cons_self target htarget) h hother
    obtain ⟨hclosed', hmore, hrest⟩ := ih
      (fun text htext => hP text (List.mem_cons_of_mem _ htext)) hclosed hfold
    refine ⟨hclosed', fun relative hmem => hmore relative (hmore₁ relative hmem), ?_⟩
    intro text' htext
    obtain rfl | htext := List.mem_cons.mp htext
    · exact ⟨target, htarget, hrecords.mono hmore⟩
    · exact hrest text' htext

theorem visit_reads {P : Path → Prop}
    (hP : ∀ path bytes project text target, P path → fs.read path = some bytes →
      L.parseModel path bytes = .ok project → text ∈ project.includes →
      includePath fs root (path.parent.getD root) text = .ok target → P target)
    (fuel : Nat) (active : List Path) : Reads L fs root P (visit L fs root fuel active) := by
  induction fuel generalizing active with
  | zero =>
    intro path model project model' _ _ h
    cases h
  | succ fuel ih =>
    intro path model project model' hpath hclosed h
    unfold visit at h
    split at h
    · cases h
    · obtain ⟨relative, hrelative, h⟩ := Except.bind_eq_ok.mp h
      split at h
      · next hknown =>
        cases h
        refine ⟨hclosed, fun _ hmem => hmem, relative, hrelative, ?_⟩
        simpa using hknown
      · obtain ⟨bytes, hbytes, h⟩ := Except.bind_eq_ok.mp h
        obtain ⟨parsed, hparsed, h⟩ := Except.bind_eq_ok.mp h
        obtain ⟨sources, -, h⟩ := Except.bind_eq_ok.mp h
        obtain ⟨⟨merged, model₁⟩, hincludes, h⟩ := Except.bind_eq_ok.mp h
        cases h
        replace hbytes : fs.read path = some bytes := required_eq_ok.mp hbytes
        obtain ⟨hclosed₁, hmore, hrecords⟩ := addIncludes_reads (ih (path :: active))
          (fun text htext target htarget =>
            hP path bytes parsed text target hpath hbytes hparsed htext htarget) hclosed hincludes
        obtain ⟨hclosed', hmore', hpath'⟩ :=
          hclosed₁.insert hpath hrelative hbytes hparsed hrecords
        exact ⟨hclosed', fun other hother => hmore' other (hmore other hother), hpath'⟩

end ModelFiles

/-- The files a project records are those its model includes, unless two of these have
one recorded path. -/
theorem mem_files_iff {L : Loader} {fs : FileSystem} {path root modelPath : Path} {own : OwnUnit}
    (h : L.readOwn fs path = .ok own) (hroot : path.parent = some root)
    (hmodel : fs.ownedFile root own.manifest.model "model" = .ok modelPath)
    (hdistinct : ∀ file file' relative, Included L fs root modelPath file →
      Included L fs root modelPath file' → ModelFiles.relativePath root file = .ok relative →
      ModelFiles.relativePath root file' = .ok relative → file = file')
    (relative : String) (bytes : List UInt8) :
    (relative, bytes) ∈ own.files ↔ ∃ file, Included L fs root modelPath file ∧
      ModelFiles.relativePath root file = .ok relative ∧ fs.read file = some bytes := by
  obtain ⟨manifest, -, h⟩ := Except.bind_eq_ok.mp h
  obtain ⟨root', hroot', h⟩ := Except.bind_eq_ok.mp h
  obtain ⟨modelPath', hmodel', h⟩ := Except.bind_eq_ok.mp h
  obtain ⟨⟨project, model⟩, hvisit, h⟩ := Except.bind_eq_ok.mp h
  obtain ⟨hash, -, h⟩ := Except.bind_eq_ok.mp h
  cases h
  cases hroot.symm.trans (required_eq_ok.mp hroot')
  cases hmodel.symm.trans hmodel'
  obtain ⟨hclosed, -, hfirst⟩ := ModelFiles.visit_reads
    (fun _ _ _ _ _ => Included.step) _ _ _ {} _ _ .refl (fun _ _ hmem => by cases hmem) hvisit
  constructor
  · intro hmem
    obtain ⟨file, _, hincluded, hrelative, hread, -⟩ := hclosed relative bytes hmem
    exact ⟨file, hincluded, hrelative, hread⟩
  · rintro ⟨file, hincluded, hrelative, hread⟩
    -- a file that is recorded is recorded with its own contents
    have hown : ∀ file, Included L fs root modelPath file → model.Records root file →
        ∃ relative bytes parsed, (relative, bytes) ∈ model.files ∧
          ModelFiles.relativePath root file = .ok relative ∧ fs.read file = some bytes ∧
          L.parseModel file bytes = .ok parsed ∧ ∀ text ∈ parsed.includes, ∃ target,
            ModelFiles.includePath fs root (file.parent.getD root) text = .ok target ∧
              model.Records root target := by
      rintro file hincluded ⟨relative, hrelative, hmem⟩
      obtain ⟨⟨_, bytes⟩, hfile, rfl⟩ := List.mem_map.mp hmem
      obtain ⟨file', parsed, hincluded', hrelative', hread, hparsed, htargets⟩ :=
        hclosed _ bytes hfile
      obtain rfl := hdistinct file file' _ hincluded hincluded' hrelative hrelative'
      exact ⟨_, bytes, parsed, hfile, hrelative, hread, hparsed, htargets⟩
    have hrecords : ∀ file, Included L fs root modelPath file → model.Records root file := by
      intro file hincluded
      induction hincluded with
      | refl => exact hfirst
      | step hpath hread hparsed htext htarget ih =>
        obtain ⟨_, bytes, parsed, -, -, hread', hparsed', htargets⟩ := hown _ hpath ih
        cases hread.symm.trans hread'
        cases hparsed.symm.trans hparsed'
        obtain ⟨target, htarget', hrecords⟩ := htargets _ htext
        cases htarget.symm.trans htarget'
        exact hrecords
    obtain ⟨relative', bytes', parsed, hfile, hrelative', hread', -⟩ :=
      hown file hincluded (hrecords file hincluded)
    cases hrelative.symm.trans hrelative'
    cases hread.symm.trans hread'
    exact hfile

end OpenLustre.NativeProject
