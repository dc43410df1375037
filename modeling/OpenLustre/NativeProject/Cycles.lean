import OpenLustre.Legacy.Loader
import OpenLustre.NativeProject.Included
import Mathlib.Data.List.Pairwise

/-! Both loaders come to every file once, and to the cycles of the includes. -/

namespace OpenLustre.NativeProject

open OpenLustre.Ir Descent Relation

variable (L : Loader) (fs : FileSystem) (root : Path)

namespace ModelFiles

/-- The model in a file includes another one. -/
def Includes (a b : Path) : Prop :=
  ∃ bytes project text, fs.read a = some bytes ∧ L.parseModel a bytes = .ok project ∧
    text ∈ project.includes ∧ includePath fs root (a.parent.getD root) text = .ok b

def Declares (a : Path) (packages : List Package) : Prop :=
  ∃ bytes project, fs.read a = some bytes ∧ L.parseModel a bytes = .ok project ∧
    project.packages = packages

/-- The keys under which the declarations of a project are recorded. -/
def keys (project : Project) : List String :=
  (project.packages.flatMap declarations).map fun d => d.1 ++ ":" ++ d.2

/-- The keys of what a file declares. -/
def keysAt (a : Path) : List String :=
  ((fs.read a).bind fun bytes => (L.parseModel a bytes).toOption.map keys).getD []

/-- Every file that the first one leads to exists and is well formed, its includes are in the
project, and no two of these files have one recorded path. -/
structure WellFormed (first : Path) : Prop where
  reads : ∀ a, ReflTransGen (Includes L fs root) first a → ∃ bytes project,
    fs.read a = some bytes ∧ L.parseModel a bytes = .ok project ∧ ∀ text ∈ project.includes,
      ∃ target, includePath fs root (a.parent.getD root) text = .ok target
  recorded : ∀ a, ReflTransGen (Includes L fs root) first a →
    ∃ relative, relativePath root a = .ok relative
  distinct : ∀ a b relative, ReflTransGen (Includes L fs root) first a →
    ReflTransGen (Includes L fs root) first b → relativePath root a = .ok relative →
    relativePath root b = .ok relative → a = b

/-- No two declarations of the files that the first one leads to have one kind and name. -/
structure DistinctNames (first : Path) : Prop where
  within : ∀ a, ReflTransGen (Includes L fs root) first a → (keysAt L fs a).Nodup
  between : ∀ a b, ReflTransGen (Includes L fs root) first a →
    ReflTransGen (Includes L fs root) first b → a ≠ b → (keysAt L fs a).Disjoint (keysAt L fs b)

variable {L fs root} {first : Path}

theorem DistinctNames.nodup (h : DistinctNames L fs root first) {files : List Path}
    (hnodup : files.Nodup) (hfiles : ∀ a ∈ files, ReflTransGen (Includes L fs root) first a) :
    (files.flatMap (keysAt L fs)).Nodup :=
  List.nodup_flatMap.mpr ⟨fun a ha => h.within a (hfiles a ha),
    hnodup.pairwise_of_forall_ne fun a ha b hb hne => h.between a b (hfiles a ha) (hfiles b hb) hne⟩

theorem distinctNames_of_nodup {files : List Path}
    (hfiles : ∀ a, ReflTransGen (Includes L fs root) first a → a ∈ files)
    (h : (files.flatMap (keysAt L fs)).Nodup) : DistinctNames L fs root first := by
  obtain ⟨hwithin, hbetween⟩ := List.nodup_flatMap.mp h
  refine ⟨fun a ha => hwithin a (hfiles a ha), fun a b ha hb hne => ?_⟩
  have : Std.Symm (Function.onFun List.Disjoint (keysAt L fs)) := ⟨fun _ _ => List.Disjoint.symm⟩
  exact hbetween.forall (hfiles a ha) (hfiles b hb) hne

/-- Sources are recorded as long as no key is there already. -/
theorem recordSources_outcome (project : Project) (relative : String)
    {sources : List (String × String)} (h : (sources.map (·.1)).Nodup) :
    (∃ kind name old, recordSources project relative sources =
        .error (.duplicateLocal kind name old relative) ∧
      ¬ (keys project ++ sources.map (·.1)).Nodup) ∨
    ∃ sources', recordSources project relative sources = .ok sources' ∧
      (sources'.map (·.1)).Nodup ∧
      (sources'.map (·.1)).Perm (keys project ++ sources.map (·.1)) := by
  unfold recordSources keys
  induction project.packages.flatMap declarations generalizing sources with
  | nil => exact .inr ⟨sources, rfl, h, .refl _⟩
  | cons d ds ih =>
    obtain ⟨kind, name⟩ := d
    rw [List.foldlM_cons]
    cases hlookup : sources.lookup (kind ++ ":" ++ name) with
    | some old =>
      have hmem : kind ++ ":" ++ name ∈ sources.map (·.1) := by
        obtain ⟨before, after, hsources, -⟩ := List.lookup_eq_some_iff.mp hlookup
        simp [hsources]
      refine .inl ⟨kind, name, old, by simp [hlookup, bind, Except.bind], fun hnodup => ?_⟩
      rw [List.map_cons, List.cons_append, List.nodup_cons] at hnodup
      exact hnodup.1 (List.mem_append_right _ hmem)
    | none =>
      have hnew : kind ++ ":" ++ name ∉ sources.map (·.1) := by
        intro hmem
        obtain ⟨entry, hentry, heq⟩ := List.mem_map.mp hmem
        exact absurd heq.symm (by simpa using List.lookup_eq_none_iff.mp hlookup entry hentry)
      have hperm : (ds.map (fun d => d.1 ++ ":" ++ d.2) ++
          (kind ++ ":" ++ name) :: sources.map (·.1)).Perm
          ((((kind, name) :: ds).map fun d => d.1 ++ ":" ++ d.2) ++ sources.map (·.1)) := by
        simp
      simp only [hlookup, bind, Except.bind]
      rcases @ih ((kind ++ ":" ++ name, relative) :: sources)
        (List.nodup_cons.mpr ⟨hnew, h⟩) with ⟨kind', name', old, herror, hnot⟩ |
          ⟨sources', hok, hnodup, hsame⟩
      · exact .inl ⟨kind', name', old, herror, fun hnodup => hnot (hperm.nodup_iff.mpr hnodup)⟩
      · exact .inr ⟨sources', hok, hnodup, hsame.trans hperm⟩

variable (L fs root first)

/-- Which files are recorded and whose declarations, with some on the way and some read. -/
structure Recorded (way done : List Path) (model : ModelFiles) : Prop where
  files : ∀ relative, relative ∈ model.files.map (·.1) ↔
    ∃ a ∈ done, relativePath root a = .ok relative
  sources : (model.sources.map (·.1)).Perm ((way ++ done).flatMap (keysAt L fs))
  distinct : (model.sources.map (·.1)).Nodup
  nodup : (way ++ done).Nodup
  reached : ∀ a ∈ way ++ done, ReflTransGen (Includes L fs root) first a

/-- A cycle or a name declared twice was met, or all that is reached from the targets is merged. -/
inductive Outcome (way done targets : List Path) (before : List Package) :
    Except LoadError (Project × ModelFiles) → Prop
  | cyclic {path : Path} : Cyclic (Includes L fs root) first →
    Outcome way done targets before (.error (.cyclicInclude path))
  | duplicate {kind name old relative : String} : ¬ DistinctNames L fs root first →
    Outcome way done targets before (.error (.duplicateLocal kind name old relative))
  | loaded {project : Project} {model : ModelFiles} {files : List (Path × List Package)} :
    Merged (Includes L fs root) (Declares L fs) way done targets before project.packages files →
    Recorded L fs root first way (files.map (·.1) ++ done) model →
    Outcome way done targets before (.ok (project, model))

/-- The file that an include in a directory names. -/
def target (directory : Path) (text : String) : Path :=
  (includePath fs root directory text).toOption.getD []

variable {L fs root first}

theorem addIncludes_outcome {way done : List Path} {path : Path}
    {read : Path → ModelFiles → Except LoadError (Project × ModelFiles)} {texts : List String}
    {model : ModelFiles} (htexts : ∀ text ∈ texts, ∃ target,
      includePath fs root (path.parent.getD root) text = .ok target ∧ ∀ done model,
        Finished (Includes L fs root) done → Recorded L fs root first way done model →
        Outcome L fs root first way done [target] [] (read target model))
    (hdone : Finished (Includes L fs root) done)
    (hmodel : Recorded L fs root first way done model) (project : Project) :
    Outcome L fs root first way done (texts.map (target fs root (path.parent.getD root)))
      project.packages (texts.foldlM (addInclude fs root path read) (project, model)) := by
  induction texts generalizing project done model with
  | nil => exact .loaded (.nil hdone _) hmodel
  | cons text texts ih =>
    obtain ⟨included, hincluded, hread⟩ := htexts text List.mem_cons_self
    have hfirst := hread done model hdone hmodel
    have htarget : target fs root (path.parent.getD root) text = included := by
      simp [target, hincluded, Except.toOption]
    rw [List.foldlM_cons, addInclude, hincluded, List.map_cons, htarget]
    simp only [bind, Except.bind]
    generalize read included model = result at hfirst ⊢
    cases hfirst with
    | cyclic hcyclic => exact .cyclic hcyclic
    | duplicate hduplicate => exact .duplicate hduplicate
    | @loaded child model files hmerged hmodel =>
      have hrest := ih (fun text htext => htexts text (List.mem_cons_of_mem _ htext))
        hmerged.explored.finished hmodel (project.merge child)
      simp only [pure, Except.pure]
      generalize texts.foldlM (addInclude fs root path read) (project.merge child, model) = result
        at hrest ⊢
      cases hrest with
      | cyclic hcyclic => exact .cyclic hcyclic
      | duplicate hduplicate => exact .duplicate hduplicate
      | loaded hrest hmodel =>
        rw [← List.append_assoc, ← List.map_append] at hmodel
        exact .loaded (hmerged.cons hrest) hmodel

theorem includes_iff {path : Path} {bytes : List UInt8} {project : Project}
    (hread : fs.read path = some bytes) (hproject : L.parseModel path bytes = .ok project)
    (htargets : ∀ text ∈ project.includes, ∃ target,
      includePath fs root (path.parent.getD root) text = .ok target) (b : Path) :
    Includes L fs root path b ↔
      b ∈ project.includes.map (target fs root (path.parent.getD root)) := by
  constructor
  · rintro ⟨bytes', project', text, hread', hproject', htext, htarget⟩
    cases hread.symm.trans hread'
    cases hproject.symm.trans hproject'
    exact List.mem_map.mpr ⟨text, htext, by simp [target, htarget, Except.toOption]⟩
  · intro hb
    obtain ⟨text, htext, rfl⟩ := List.mem_map.mp hb
    obtain ⟨included, hincluded⟩ := htargets text htext
    refine ⟨bytes, project, text, hread, hproject, htext, ?_⟩
    simp [target, hincluded, Except.toOption]

/-- A file whose includes are about to be read. -/
theorem Recorded.enter {way done : List Path} {model : ModelFiles} {path : Path}
    {project : Project} {sources : List (String × String)}
    (h : Recorded L fs root first way done model) (hkeys : keysAt L fs path = keys project)
    (hnew : path ∉ way ++ done) (hreach : ReflTransGen (Includes L fs root) first path)
    (hnodup : (sources.map (·.1)).Nodup)
    (hsources : (sources.map (·.1)).Perm (keys project ++ model.sources.map (·.1))) :
    Recorded L fs root first (path :: way) done { model with sources := sources } where
  files := h.files
  sources := by
    rw [List.cons_append, List.flatMap_cons, hkeys]
    exact hsources.trans (h.sources.append_left _)
  distinct := hnodup
  nodup := List.nodup_cons.mpr ⟨hnew, h.nodup⟩
  reached a ha := by
    rcases List.mem_cons.mp ha with rfl | ha
    · exact hreach
    · exact h.reached a ha

/-- A file whose includes have been read. -/
theorem Recorded.leave {way done : List Path} {model : ModelFiles} {path : Path}
    {relative : String} {bytes : List UInt8}
    (h : Recorded L fs root first (path :: way) done model)
    (hrelative : relativePath root path = .ok relative) :
    Recorded L fs root first way (path :: done)
      { model with files := insertFile relative bytes model.files } := by
  have hperm : (way ++ path :: done).Perm (path :: way ++ done) := List.perm_middle
  refine ⟨fun other => ?_, ?_, h.distinct, hperm.nodup_iff.mpr h.nodup,
    fun a ha => h.reached a (hperm.mem_iff.mp ha)⟩
  · constructor
    · intro hmem
      obtain ⟨file, hfile, rfl⟩ := List.mem_map.mp hmem
      rcases mem_insertFile hfile with rfl | hfile
      · exact ⟨path, List.mem_cons_self, hrelative⟩
      · obtain ⟨a, ha, hrecorded⟩ := (h.files _).mp (List.mem_map_of_mem hfile)
        exact ⟨a, List.mem_cons_of_mem _ ha, hrecorded⟩
    · rintro ⟨a, _ | ⟨_, ha⟩, hrecorded⟩
      · cases hrelative.symm.trans hrecorded
        exact key_insertFile (.inl rfl)
      · exact key_insertFile (.inr ((h.files other).mpr ⟨a, ha, hrecorded⟩))
  · exact h.sources.trans (hperm.symm.flatMap_right _)

theorem isFile_of_read {path : Path} {bytes : List UInt8} (h : fs.read path = some bytes) :
    path ∈ fs.files.map (·.1) := by
  obtain ⟨before, after, hfiles, -⟩ := List.lookup_eq_some_iff.mp (Option.join_eq_some_iff.mp h)
  simp [hfiles]

/-- Reading a file ends, with a cycle, a name declared twice or all that the file leads to. -/
theorem visit_outcome (h : WellFormed L fs root first) {fuel : Nat} {way done : List Path}
    {path : Path} {model : ModelFiles} (hway : Way (Includes L fs root) first (path :: way))
    (hfuel : left (fs.files.map (·.1)) way < fuel) (hdone : Finished (Includes L fs root) done)
    (hmodel : Recorded L fs root first way done model) :
    Outcome L fs root first way done [path] [] (visit L fs root fuel way path model) := by
  induction fuel generalizing way done path model with
  | zero => exact absurd hfuel (Nat.not_lt_zero _)
  | succ fuel ih =>
    have hreach := hway.reached
    simp only [visit]
    split
    · next hmem => exact .cyclic (hway.cyclic (by simpa using hmem))
    · next hnew =>
      have hnew : path ∉ way := by simpa using hnew
      obtain ⟨relative, hrelative⟩ := h.recorded path hreach
      obtain ⟨bytes, project, hread, hproject, htargets⟩ := h.reads path hreach
      simp only [hrelative, hread, hproject, required, bind, Except.bind]
      have hdone_iff : relative ∈ model.files.map (·.1) ↔ path ∈ done := by
        rw [hmodel.files]
        constructor
        · rintro ⟨a, ha, hrecorded⟩
          have hsame := h.distinct a path relative (hmodel.reached a (List.mem_append_right _ ha))
            hreach hrecorded hrelative
          exact hsame ▸ ha
        · exact fun ha => ⟨path, ha, hrelative⟩
      split
      · next hknown =>
        have hknown : relative ∈ model.files.map (·.1) := by simpa using hknown
        exact @Outcome.loaded _ _ _ _ _ _ _ _ { packages := [] } model []
          (.again hdone (hdone_iff.mp hknown)) hmodel
      · next hunknown =>
        have hunknown : path ∉ done := fun hmem => by
          simpa using hunknown (by simpa using hdone_iff.mpr hmem)
        have hfresh : path ∉ way ++ done := by simp [hnew, hunknown]
        have hkeys : keysAt L fs path = keys project := by
          simp [keysAt, hread, hproject, Except.toOption]
        have hincludes := includes_iff hread hproject htargets
        have hless := left_lt (isFile_of_read hread) hnew
        rcases recordSources_outcome project relative hmodel.distinct with
          ⟨kind, name, old, herror, hnot⟩ | ⟨sources, hok, hnodup, hsources⟩
        · rw [herror]
          refine .duplicate fun hdistinct => hnot ?_
          have hall := hdistinct.nodup (List.nodup_cons.mpr ⟨hfresh, hmodel.nodup⟩) (by
            rintro a (_ | ⟨_, ha⟩)
            · exact hreach
            · exact hmodel.reached a ha)
          rw [List.flatMap_cons, hkeys] at hall
          exact (hmodel.sources.append_left _).nodup_iff.mpr hall
        · rw [hok]
          have hentered := hmodel.enter hkeys hfresh hreach hnodup hsources
          have hall := @addIncludes_outcome L fs root first (path :: way) done path
            (visit L fs root fuel (path :: way)) project.includes _ (fun text htext => by
              obtain ⟨included, hincluded⟩ := htargets text htext
              refine ⟨included, hincluded, fun done model hdone hmodel => ?_⟩
              exact ih (hway.step ⟨bytes, project, text, hread, hproject, htext, hincluded⟩)
                (by omega) hdone hmodel) hdone hentered { project with main := none, includes := [] }
          dsimp only
          generalize project.includes.foldlM (addInclude fs root path
            (visit L fs root fuel (path :: way))) _ = result at hall ⊢
          cases hall with
          | cyclic hcyclic => exact .cyclic hcyclic
          | duplicate hduplicate => exact .duplicate hduplicate
          | loaded hmerged hmodel =>
            exact .loaded (hmerged.node ⟨bytes, project, hread, hproject, rfl⟩ hunknown hnew
              hincludes) (hmodel.leave hrelative)

theorem visit_first (h : WellFormed L fs root first) {fuel : Nat} (hfuel : fs.files.length < fuel) :
    Outcome L fs root first [] [] [first] [] (visit L fs root fuel [] first {}) := by
  have hleft := left_le (fs.files.map (·.1)) []
  rw [List.length_map] at hleft
  refine visit_outcome h .start (hleft.trans_lt hfuel) .nil ⟨?_, .nil, .nil, .nil, ?_⟩
  · intro relative
    constructor
    · exact fun hmem => by cases hmem
    · rintro ⟨_, hmem, -⟩
      cases hmem
  · exact fun _ hmem => by cases hmem

theorem Outcome.distinctNames {project : Project} {model : ModelFiles}
    {files : List (Path × List Package)}
    (h : Merged (Includes L fs root) (Declares L fs) [] [] [first] [] project.packages files)
    (hmodel : Recorded L fs root first [] (files.map (·.1) ++ []) model) :
    DistinctNames L fs root first := by
  refine distinctNames_of_nodup (fun a ha => h.explored.mem_iff.mpr ha) ?_
  have hperm := hmodel.sources.nodup_iff.mp hmodel.distinct
  simpa using hperm

end ModelFiles

open Legacy (Host)

/-- The loader of model files that include one another gives, with enough fuel, the cyclic include
error just when the entry leads to a cycle, and else a project that has of every file that the
entry leads to what it declares.  So does that of native projects, unless two of the declarations
have one kind and name: then it gives an error. -/
theorem includes_loaded_once :
    (∀ (host : Host) (entry : Path) (files : List Path), host.WellFormed entry →
      host.Within entry files → ∀ fuel, files.length < fuel →
      ((∃ path, host.loadRecursive fuel [] entry [] = .error (.cyclicInclude path)) ↔
        Cyclic (host.Includes entry) (host.canonical entry)) ∧
      (¬ Cyclic (host.Includes entry) (host.canonical entry) → ∃ project merged,
        host.loadRecursive fuel [] entry [] = .ok (project, merged.map (·.1)) ∧
        MergedOnce (host.Includes entry) (host.Declares entry) (host.canonical entry)
          project.packages merged)) ∧
    ∀ (L : Loader) (fs : FileSystem) (root first : Path), ModelFiles.WellFormed L fs root first →
      ∀ fuel, fs.files.length < fuel →
      (ModelFiles.DistinctNames L fs root first →
        ((∃ path, ModelFiles.visit L fs root fuel [] first {} = .error (.cyclicInclude path)) ↔
          Cyclic (ModelFiles.Includes L fs root) first)) ∧
      (¬ ModelFiles.DistinctNames L fs root first →
        (∃ path, ModelFiles.visit L fs root fuel [] first {} = .error (.cyclicInclude path) ∧
          Cyclic (ModelFiles.Includes L fs root) first) ∨
        ∃ kind name old relative, ModelFiles.visit L fs root fuel [] first {} =
          .error (.duplicateLocal kind name old relative)) ∧
      (¬ Cyclic (ModelFiles.Includes L fs root) first → ModelFiles.DistinctNames L fs root first →
        ∃ project model merged, ModelFiles.visit L fs root fuel [] first {} = .ok (project, model) ∧
          MergedOnce (ModelFiles.Includes L fs root) (ModelFiles.Declares L fs) first
            project.packages merged) := by
  constructor
  · intro host entry files hformed hwithin fuel hfuel
    have houtcome := Host.loadRecursive_entry hformed hwithin hfuel
    generalize host.loadRecursive fuel [] entry [] = result at houtcome
    cases houtcome with
    | cyclic hcyclic => exact ⟨⟨fun _ => hcyclic, fun _ => ⟨_, rfl⟩⟩, fun hnot => absurd hcyclic hnot⟩
    | @loaded project merged hmerged =>
      have hnot := hmerged.explored.not_cyclic
      refine ⟨⟨fun ⟨_, herror⟩ => (nomatch herror), fun hcyclic => absurd hcyclic hnot⟩, fun _ => ?_⟩
      exact ⟨project, merged, by rw [List.append_nil], hmerged.mergedOnce⟩
  · intro L fs root first hformed fuel hfuel
    have houtcome := ModelFiles.visit_first hformed hfuel
    generalize ModelFiles.visit L fs root fuel [] first {} = result at houtcome
    cases houtcome with
    | cyclic hcyclic =>
      exact ⟨fun _ => ⟨fun _ => hcyclic, fun _ => ⟨_, rfl⟩⟩, fun _ => .inl ⟨_, rfl, hcyclic⟩,
        fun hnot => absurd hcyclic hnot⟩
    | duplicate hduplicate =>
      exact ⟨fun hdistinct => absurd hdistinct hduplicate, fun _ => .inr ⟨_, _, _, _, rfl⟩,
        fun _ hdistinct => absurd hdistinct hduplicate⟩
    | @loaded project model merged hmerged hmodel =>
      have hnot := hmerged.explored.not_cyclic
      have hdistinct := ModelFiles.Outcome.distinctNames hmerged hmodel
      refine ⟨fun _ => ⟨fun ⟨_, herror⟩ => (nomatch herror), fun hcyclic => absurd hcyclic hnot⟩,
        fun hduplicate => absurd hdistinct hduplicate, fun _ _ => ?_⟩
      exact ⟨project, model, merged, rfl, hmerged.mergedOnce⟩

/-- Four files, two of which include the last one, each with a constant. -/
def diamond (constant : String → String) (text : String) : Project where
  packages := [{ name := "p", constants := [⟨constant text, .bool, .const (.bool true)⟩] }]
  includes :=
    if text = "a" then ["b.json", "c.json"]
    else if text = "b" ∨ text = "c" then ["d.json"]
    else []

def diamondFiles : FileSystem where
  files := ["a", "b", "c", "d"].map fun text => ([utf8 (text ++ ".json")], some (utf8 text))
  canonicalize := some

def diamondHost : Host where
  canonicalize := some
  isDir _ := false
  isFile := diamondFiles.isFile
  readDir _ := none
  readToString path := (diamondFiles.read path).bind ofUtf8
  parse text _ := some (diamond id text)

def diamondLoader (constant : String → String) : Loader where
  parseManifest _ := none
  parseJson bytes := (ofUtf8 bytes).map (diamond constant)
  parseYaml _ := none
  digest _ := ""
  lowerOwned project sources _ := .ok (project, sources)

def diamondPaths : List Path := diamondFiles.files.map (·.1)

def diamondEntry : Path := [utf8 "a.json"]

/-- The files in the order of the letters that they are named after. -/
def diamondRank (path : Path) : Nat := ((path.head?.bind List.head?).map UInt8.toNat).getD 0

/-- What the files say, to both loaders, and where their includes lead. -/
theorem diamond_files :
    (diamondEntry ∈ diamondPaths ∧ (utf8 "json").map lowerByte = utf8 "json" ∧
      (diamondHost.loadRecursive 5 [] diamondEntry []).isOk) ∧
    ∀ path ∈ diamondPaths,
      (((diamondHost.outline path).toOption.map fun outlined =>
        outlined.2.all diamondPaths.contains) = some true ∧ Legacy.isNativeManifest path = false) ∧
      (((diamondFiles.read path).bind ofUtf8).isSome ∧ path.extension = some (utf8 "json")) ∧
      (∀ bytes ∈ diamondFiles.read path, ∀ text ∈ ofUtf8 bytes,
        ∀ name ∈ (diamond id text).includes, ∃ target ∈ diamondPaths,
          (ModelFiles.includePath diamondFiles [] (path.parent.getD []) name).toOption =
            some target ∧ diamondRank path < diamondRank target) ∧
      (ModelFiles.relativePath [] path).toOption.isSome ∧
      (ModelFiles.keysAt (diamondLoader id) diamondFiles path).Nodup ∧
      ∀ other ∈ diamondPaths,
        ((ModelFiles.relativePath [] path).toOption =
          (ModelFiles.relativePath [] other).toOption → path = other) ∧
        (path ≠ other → ∀ key ∈ ModelFiles.keysAt (diamondLoader id) diamondFiles path,
          key ∉ ModelFiles.keysAt (diamondLoader id) diamondFiles other) := by
  decide +kernel

theorem diamondHost_reached {path : Path} (h : diamondHost.Reached diamondEntry path) :
    path ∈ diamondPaths := by
  induction h with
  | entry => exact diamond_files.1.1
  | step _ houtline hnext ih =>
    have hall := (diamond_files.2 _ ih).1.1
    rw [houtline] at hall
    simp only [Except.toOption, Option.map_some, Option.some.injEq, List.all_eq_true] at hall
    simpa using hall _ hnext

theorem diamondHost_wellFormed : diamondHost.WellFormed diamondEntry where
  legacy path hpath := (diamond_files.2 path (diamondHost_reached hpath)).1.2
  outlined path hpath := by
    have hall := (diamond_files.2 path (diamondHost_reached hpath)).1.1
    cases houtline : diamondHost.outline path with
    | error e => simp [houtline, Except.toOption] at hall
    | ok outlined => exact ⟨outlined, rfl⟩
  alike path path' project project' paths paths' _ _ hsame houtline houtline' := by
    obtain rfl : path = path' := hsame
    cases houtline.symm.trans houtline'
    exact ⟨rfl, rfl⟩

theorem diamondHost_within : diamondHost.Within diamondEntry diamondPaths :=
  fun _ hpath => diamondHost_reached hpath

section

open ModelFiles

variable {constant : String → String}

theorem diamondFiles_read : ∀ path ∈ diamondPaths, ∃ bytes text,
    diamondFiles.read path = some bytes ∧ ofUtf8 bytes = some text ∧
    path.extension = some (utf8 "json") := by
  intro path hpath
  obtain ⟨-, ⟨hsome, hextension⟩, -⟩ := diamond_files.2 path hpath
  obtain ⟨text, htext⟩ := Option.isSome_iff_exists.mp hsome
  obtain ⟨bytes, hbytes, htext⟩ := Option.bind_eq_some_iff.mp htext
  exact ⟨bytes, text, hbytes, htext, hextension⟩

theorem diamondLoader_parseModel {path : Path} {bytes : List UInt8} {text : String}
    (htext : ofUtf8 bytes = some text) (hextension : path.extension = some (utf8 "json")) :
    (diamondLoader constant).parseModel path bytes = .ok (diamond constant text) := by
  simp [Loader.parseModel, hextension, diamond_files.1.2.1, diamondLoader, htext, required]

theorem diamondLoader_includes {a b : Path} (ha : a ∈ diamondPaths)
    (h : Includes (diamondLoader constant) diamondFiles [] a b) : 
    b ∈ diamondPaths ∧ diamondRank a < diamondRank b := by
  obtain ⟨bytes, project, name, hread, hproject, hname, htarget⟩ := h
  obtain ⟨bytes', text, hread', htext, hextension⟩ := diamondFiles_read a ha
  cases hread.symm.trans hread'
  cases hproject.symm.trans (diamondLoader_parseModel htext hextension)
  obtain ⟨-, -, htargets, -⟩ := diamond_files.2 a ha
  obtain ⟨target, hmem, hsome, hless⟩ := htargets bytes hread text htext name hname
  rw [htarget] at hsome
  cases hsome
  exact ⟨hmem, hless⟩

theorem diamondLoader_reached {a : Path}
    (h : ReflTransGen (Includes (diamondLoader constant) diamondFiles []) diamondEntry a) :
    a ∈ diamondPaths := by
  induction h with
  | refl => exact diamond_files.1.1
  | tail _ hstep ih => exact (diamondLoader_includes ih hstep).1

theorem diamondLoader_wellFormed (constant : String → String) :
    WellFormed (diamondLoader constant) diamondFiles [] diamondEntry where
  reads a ha := by
    have ha := diamondLoader_reached ha
    obtain ⟨bytes, text, hread, htext, hextension⟩ := diamondFiles_read a ha
    refine ⟨bytes, _, hread, diamondLoader_parseModel htext hextension, fun name hname => ?_⟩
    obtain ⟨-, -, htargets, -⟩ := diamond_files.2 a ha
    obtain ⟨target, -, hsome, -⟩ := htargets bytes hread text htext name hname
    cases htarget : includePath diamondFiles [] (a.parent.getD []) name with
    | error e => simp [htarget, Except.toOption] at hsome
    | ok target => exact ⟨target, rfl⟩
  recorded a ha := by
    obtain ⟨-, -, -, hsome, -⟩ := diamond_files.2 a (diamondLoader_reached ha)
    cases hrelative : relativePath [] a with
    | error e => simp [hrelative, Except.toOption] at hsome
    | ok relative => exact ⟨relative, rfl⟩
  distinct a b relative ha hb hrelative hrelative' := by
    obtain ⟨-, -, -, -, -, hother⟩ := diamond_files.2 a (diamondLoader_reached ha)
    exact (hother b (diamondLoader_reached hb)).1 (by rw [hrelative, hrelative'])

theorem diamondLoader_acyclic (constant : String → String) :
    ¬ Cyclic (Includes (diamondLoader constant) diamondFiles []) diamondEntry := by
  rintro ⟨a, hreach, hcycle⟩
  have hless : ∀ b, TransGen (Includes (diamondLoader constant) diamondFiles []) a b →
      diamondRank a < diamondRank b := by
    intro b hb
    induction hb with
    | single hstep => exact (diamondLoader_includes (diamondLoader_reached hreach) hstep).2
    | tail hpath hstep ih =>
      have hmem := diamondLoader_reached (hreach.trans hpath.to_reflTransGen)
      exact ih.trans (diamondLoader_includes hmem hstep).2
  exact Nat.lt_irrefl _ (hless a hcycle)

theorem diamondLoader_distinctNames :
    DistinctNames (diamondLoader id) diamondFiles [] diamondEntry := by
  constructor
  · intro a ha
    obtain ⟨-, -, -, -, hnodup, -⟩ := diamond_files.2 a (diamondLoader_reached ha)
    exact hnodup
  · intro a b ha hb hne
    obtain ⟨-, -, -, -, -, hother⟩ := diamond_files.2 a (diamondLoader_reached ha)
    exact (hother b (diamondLoader_reached hb)).2 hne

end

/-- Both loaders come once to a file that two others include. -/
theorem includes_loaded_once_diamond :
    (∃ project merged, diamondHost.loadRecursive 5 [] diamondEntry [] =
      .ok (project, merged.map (·.1)) ∧ MergedOnce (diamondHost.Includes diamondEntry)
        (diamondHost.Declares diamondEntry) diamondEntry project.packages merged) ∧
    ∃ project model merged, ModelFiles.visit (diamondLoader id) diamondFiles [] 5 [] diamondEntry {} =
      .ok (project, model) ∧ MergedOnce (ModelFiles.Includes (diamondLoader id) diamondFiles [])
        (ModelFiles.Declares (diamondLoader id) diamondFiles) diamondEntry project.packages
        merged := by
  obtain ⟨hlegacy, hnative⟩ := includes_loaded_once
  constructor
  · obtain ⟨hcyclic, hloaded⟩ := hlegacy diamondHost diamondEntry diamondPaths
      diamondHost_wellFormed diamondHost_within 5 (by decide)
    have hok := diamond_files.1.2.2
    refine hloaded fun h => ?_
    obtain ⟨path, herror⟩ := hcyclic.mpr h
    rw [herror] at hok
    cases hok
  · obtain ⟨-, -, hloaded⟩ := hnative (diamondLoader id) diamondFiles [] diamondEntry
      (diamondLoader_wellFormed id) 5 (by decide)
    exact hloaded (diamondLoader_acyclic id) diamondLoader_distinctNames

/-- Where two files declare one constant there is no project, though there is no cycle. -/
theorem diamond_duplicate : ∃ constant, ModelFiles.WellFormed (diamondLoader constant) diamondFiles []
    diamondEntry ∧ ¬ Cyclic (ModelFiles.Includes (diamondLoader constant) diamondFiles [])
      diamondEntry ∧ ¬ (ModelFiles.visit (diamondLoader constant) diamondFiles [] 5 [] diamondEntry
        {}).isOk := by
  refine ⟨fun _ => "k", diamondLoader_wellFormed _, diamondLoader_acyclic _, ?_⟩
  decide +kernel

end OpenLustre.NativeProject
