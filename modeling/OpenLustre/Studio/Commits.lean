import OpenLustre.Studio.Handlers

/-! How each request goes about its edit: it looks, it saves, it journals what it found
and, that done, changes nothing any more. -/

namespace OpenLustre.Studio

open OpenLustre.Ir

/-- The access an edit ends with. -/
def Access.Records : Access → Prop
  | record _ => True
  | _ => False

instance : DecidablePred Access.Records
  | .read _ => .isFalse id
  | .write _ _ => .isFalse id
  | .writeLus _ _ => .isFalse id
  | .pop _ => .isFalse id
  | .push _ _ => .isFalse id
  | .record _ => .isTrue trivial
  | .depths => .isFalse id

theorem Access.Records.changes {a : Access} (h : a.Records) : a.Changes := by
  cases a with
  | record before => trivial
  | _ => exact h.elim

namespace World

/-- Every access to a file that exists succeeds. -/
def Reliable (w : World) : Prop := w.faults = fun _ => .none

theorem Reliable.nextFault {w : World} (h : w.Reliable) : w.nextFault = w := by
  cases w
  simp only [Reliable] at h
  simp [World.nextFault, h]

theorem Reliable.writing {w : World} (h : w.Reliable) (write : World → String → World)
    (text : String) : w.writing write text = (.ok (), write w text) := by
  have hfault : w.faults 0 = .none := congrFun h 0
  simp [World.writing, hfault, h.nextFault]

theorem Reliable.serve {a : Access} {w : World} (h : w.Reliable) :
    (World.serve a w).2.Reliable := by
  cases a with
  | read p => exact (congrArg Reliable h.nextFault).mpr h
  | write p text =>
    rw [World.serve, h.writing]
    exact h
  | writeLus name text =>
    rw [World.serve, h.writing]
    exact h
  | pop undo =>
    simp only [World.serve]
    split <;> exact h
  | push undo s => exact h
  | record before => exact h
  | depths => exact h

/-- What an edit is about: the editable files and the journal. -/
def edited (w : World) : (Place → Option String) × History := (w.files, w.history)

theorem edited_eq_iff {w w' : World} :
    w'.edited = w.edited ↔ w'.files = w.files ∧ w'.history = w.history := Prod.ext_iff

theorem edited_serve {a : Access} {w : World} (h : ¬ a.Changes) :
    (World.serve a w).2.edited = w.edited := by
  cases a with
  | read p => rfl
  | writeLus name text =>
    simp only [World.serve, World.writing]
    split <;> rfl
  | depths => rfl
  | write p text => exact absurd trivial h
  | pop undo => exact absurd trivial h
  | push undo s => exact absurd trivial h
  | record before => exact absurd trivial h

end World

namespace Ctx

variable {ctx : Ctx} {ε α β : Type}

section Looking

/-! The parts of a request that change no editable file and no journal. -/

variable (ctx)

theorem avoids_readToString (p : Place) : (readToString p : Program ε _).Avoids Access.Changes :=
  Interaction.Avoids.perform_iff.mpr id

theorem avoids_writeLus (name text : String) :
    (writeLus name text : Program ε _).Avoids Access.Changes :=
  Interaction.Avoids.perform_iff.mpr id

theorem avoids_orBad (r : Except String α) : (orBad r).Avoids Access.Changes := .lift _

theorem avoids_refuseIf (c : Bool) (message : String) :
    (refuseIf c message).Avoids Access.Changes := by
  cases c with
  | true => exact .fail _
  | false => exact .pure _

theorem avoids_internal {x : Attempt α} (h : x.Avoids Access.Changes) :
    (internal x).Avoids Access.Changes := h.mapError

theorem avoids_request (body : String) : (ctx.request body).Avoids Access.Changes :=
  avoids_orBad _

theorem avoids_loadRawPath (p : Place) : (ctx.loadRawPath p).Avoids Access.Changes := by
  refine .bind (.bind (avoids_readToString p) fun r => ?_) fun data => .lift _
  cases r with
  | ok text => exact .pure text
  | error e => exact .fail _

theorem avoids_loadProject : ctx.loadProject.Avoids Access.Changes :=
  .bind (avoids_readToString _) fun _ => .bind (avoids_readToString _) fun _ => .lift _

theorem avoids_buildInspect : (internal ctx.buildInspect).Avoids Access.Changes :=
  avoids_internal <| .bind ctx.avoids_loadProject fun _ =>
    .bind (ctx.avoids_loadRawPath _).attempt fun _ =>
      .bind (ctx.avoids_loadRawPath _).attempt fun _ =>
        .bind (Interaction.Avoids.perform_iff.mpr id) fun _ => .pure _

theorem avoids_attachIncluded (project : Project) :
    (ctx.attachIncluded project).Avoids Access.Changes := by
  refine .bind (avoids_readToString _) fun types => ?_
  dsimp only
  split
  · exact .pure _
  · exact .pure _

theorem avoids_resolveDrop (d : Drop) (decoded : d.Decoded) :
    (ctx.resolveDrop d decoded).Avoids Access.Changes := by
  unfold resolveDrop
  split
  · exact avoids_orBad _
  · exact .bind (avoids_internal ctx.avoids_loadProject) fun full => avoids_orBad _

theorem avoids_importStubs (ns : List NodeDef) : (importStubs ns).Avoids Access.Changes := by
  induction ns with
  | nil => exact .pure _
  | cons n ns ih => exact .bind (avoids_writeLus _ _) fun _ => ih

theorem avoids_snapshotOf (ps : List Place) : (snapshotOf ps).Avoids Access.Changes := by
  induction ps with
  | nil => exact .pure _
  | cons p ps ih =>
    refine .bind (avoids_readToString p) fun r => ?_
    cases r with
    | ok text => exact .bind ih fun _ => .pure _
    | error e => exact ih

theorem avoids_buildSelected (project : Project) (main : String) :
    (ctx.buildSelected project main).Avoids Access.Changes := by
  refine .bind (avoids_internal (.lift _)) fun sliced => ?_
  dsimp only
  split
  · exact .pure _
  split
  · exact .pure _
  refine .bind (avoids_writeLus _ _) fun r => ?_
  cases r with
  | ok u => exact .pure _
  | error e => exact .fail _

end Looking

/-- A part of a request that saves, and leaves the journal. -/
def Saves (x : Program ε α) : Prop := x.Avoids fun a => a.Changes ∧ ∀ p text, a ≠ .write p text

theorem saves_of_avoids {x : Program ε α} (h : x.Avoids Access.Changes) : Saves x :=
  h.mono fun _ ha => ha.1

theorem saves_saveRawPath (p : Place) (project : Project) : Saves (ctx.saveRawPath p project) := by
  unfold saveRawPath
  split
  · exact saves_of_avoids (.fail _)
  · refine .bind (saves_of_avoids (.lift _)) fun text => ?_
    refine .bind (saves_of_avoids (avoids_readToString p)) fun _ => ?_
    refine .bind (Interaction.Avoids.perform_iff.mpr fun h => h.2 p text rfl) fun r => ?_
    cases r with
    | ok u => exact saves_of_avoids (.pure _)
    | error e => exact saves_of_avoids (.fail _)

theorem saves_internal {x : Attempt α} (h : Saves x) : Saves (internal x) := h.mapError

theorem saves_loadRawPath (p : Place) : Saves (internal (ctx.loadRawPath p)) :=
  saves_of_avoids (avoids_internal (ctx.avoids_loadRawPath p))

theorem saves_importNodes (imported : Imported) : Saves (ctx.importNodes imported) :=
  .bind (saves_loadRawPath _) fun _ => saves_internal (saves_saveRawPath _ _)

theorem saves_importTypes (imported : Imported) : Saves (ctx.importTypes imported) := by
  unfold importTypes
  split
  · exact .bind (saves_loadRawPath _) fun _ => saves_internal (saves_saveRawPath _ _)
  · exact saves_of_avoids (.pure _)

/-- The texts of the files a snapshot is of. -/
def texts (ctx : Ctx) (files : Place → Option String) : Snapshot :=
  ctx.places.filterMap fun p => (files p).map (p, ·)

/-- A workspace whose files are there, readable and writable. -/
structure Steady (ctx : Ctx) (w : World) : Prop where
  reliable : w.Reliable
  readable : ∀ p ∈ ctx.places, (w.files p).isSome

theorem Steady.of_edited {w w' : World} (h : ctx.Steady w) (hedited : w'.edited = w.edited)
    (hreliable : w'.Reliable) : ctx.Steady w' :=
  ⟨hreliable, (World.edited_eq_iff.mp hedited).1 ▸ h.readable⟩

/-- A file that is written is there. -/
theorem Steady.write {w : World} (h : ctx.Steady w) (p : Place) (text : String) :
    ctx.Steady (w.write p text) := by
  refine ⟨h.reliable, fun q hq => ?_⟩
  by_cases hqp : q = p
  · subst hqp
    simp [World.write]
  · simpa [World.write, hqp] using h.readable q hq

theorem run_of_avoids {x : Program ε α} (h : x.Avoids Access.Changes) {w : World} :
    (x.run World.serve w).2.edited = w.edited :=
  h.run_view World.edited (fun _ _ => World.edited_serve) w

theorem Steady.run_of_avoids {w : World} (hw : ctx.Steady w) {x : Program ε α}
    (h : x.Avoids Access.Changes) : ctx.Steady (x.run World.serve w).2 :=
  hw.of_edited (Ctx.run_of_avoids h)
    (x.run_invariant World.serve (fun _ _ => World.Reliable.serve) hw.reliable)

theorem Steady.run_of_saves {w : World} (hw : ctx.Steady w) {x : Program ε α} (h : Saves x) :
    (x.run World.serve w).2.history = w.history ∧ ctx.Steady (x.run World.serve w).2 := by
  refine h.run_keeps (fun w' => w'.history = w.history ∧ ctx.Steady w')
    (fun a w' ha hw' => ?_) ⟨rfl, hw⟩
  by_cases hchanges : a.Changes
  · have hwrite : ∃ p text, a = .write p text := by simpa [hchanges] using ha
    obtain ⟨p, text, rfl⟩ := hwrite
    rw [World.serve, hw'.2.reliable.writing]
    exact ⟨hw'.1, hw'.2.write p text⟩
  · have hedited := World.edited_serve (w := w') hchanges
    exact ⟨(congrArg Prod.snd hedited).trans hw'.1, hw'.2.of_edited hedited hw'.2.reliable.serve⟩

/-- A snapshot is of the texts of the files. -/
theorem run_snapshotOf {w : World} (hw : w.Reliable) (ps : List Place) :
    (snapshotOf ps).run World.serve w
      = (.ok (ps.filterMap fun p => (w.files p).map (p, ·)), w) := by
  have hfault : w.faults 0 = .none := congrFun hw 0
  induction ps with
  | nil => rfl
  | cons p ps ih =>
    cases hp : w.files p with
    | none =>
      have hread : (readToString p : Handler _).run World.serve w
          = (.ok (.error "No such file or directory (os error 2)"), w) := by
        simp [readToString, World.serve, hfault, hp, hw.nextFault]
      rw [snapshotOf, Interaction.run_bind, Stateful.bind_ok hread, ih]
      simp [hp]
    | some text =>
      have hread : (readToString p : Handler _).run World.serve w = (.ok (.ok text), w) := by
        simp [readToString, World.serve, hfault, hp, hw.nextFault]
      rw [snapshotOf, Interaction.run_bind, Stateful.bind_ok hread, Interaction.run_bind,
        Stateful.bind_ok ih]
      simp [hp]

theorem run_takeSnapshot {w : World} (hw : w.Reliable) :
    ctx.takeSnapshot.run World.serve w = (.ok (ctx.texts w.files), w) :=
  run_snapshotOf hw ctx.places

/-- An edit that journals `before`. -/
structure EditsFrom (ctx : Ctx) (before : Snapshot) (x : Handler α) : Prop where
  closes : x.Closes Access.Records Access.Changes
  records : ∀ w, ctx.Steady w → ∀ w', (x.upTo Access.Records).run World.serve w = (.ok (), w') →
    w'.history = w.history.record before ∧ ctx.Steady w'

/-- An edit that journals the texts it found. -/
structure Edits (ctx : Ctx) (x : Handler α) : Prop where
  closes : x.Closes Access.Records Access.Changes
  records : ∀ w, ctx.Steady w → ∀ w', (x.upTo Access.Records).run World.serve w = (.ok (), w') →
    w'.history = w.history.record (ctx.texts w.files) ∧ ctx.Steady w'

theorem avoids_records {x : Program ε α} (h : x.Avoids Access.Changes) :
    x.Avoids Access.Records :=
  h.mono fun _ => Access.Records.changes

theorem Saves.avoids_records {x : Program ε α} (h : Saves x) : x.Avoids Access.Records :=
  h.mono fun a ha => ⟨ha.changes, fun p text heq => by subst heq; exact ha⟩

theorem Edits.fail (e : Refusal) : ctx.Edits (.fail e : Handler α) :=
  ⟨trivial, nofun⟩

theorem Edits.after {x : Handler α} {f : α → Handler β} (hx : x.Avoids Access.Changes)
    (hf : ∀ a, ctx.Edits (f a)) : ctx.Edits (x >>= f) := by
  refine ⟨.after (Ctx.avoids_records hx) fun a => (hf a).closes, fun w hw w'' hrun => ?_⟩
  rw [Interaction.upTo_after (Ctx.avoids_records hx), Interaction.run_bind,
    Stateful.bind_eq_ok] at hrun
  obtain ⟨a, w', hx', hf'⟩ := hrun
  have hedited : w'.edited = w.edited := by simpa [hx'] using run_of_avoids hx (w := w)
  have hw' : ctx.Steady w' := by simpa [hx'] using hw.run_of_avoids hx
  obtain ⟨hfiles, hhist⟩ := World.edited_eq_iff.mp hedited
  rw [← hhist, ← hfiles]
  exact (hf a).records w' hw' w'' hf'

theorem EditsFrom.after {before : Snapshot} {x : Handler α} {f : α → Handler β} (hx : Saves x)
    (hf : ∀ a, ctx.EditsFrom before (f a)) : ctx.EditsFrom before (x >>= f) := by
  refine ⟨.after hx.avoids_records fun a => (hf a).closes, fun w hw w'' hrun => ?_⟩
  rw [Interaction.upTo_after hx.avoids_records, Interaction.run_bind, Stateful.bind_eq_ok] at hrun
  obtain ⟨a, w', hx', hf'⟩ := hrun
  obtain ⟨hhist, hw'⟩ := hw.run_of_saves hx
  rw [hx'] at hhist hw'
  rw [← hhist]
  exact (hf a).records w' hw' w'' hf'

theorem EditsFrom.andThen {before : Snapshot} {x : Handler α} {f : α → Handler β}
    (hx : ctx.EditsFrom before x) (hf : ∀ a, (f a).Avoids Access.Changes) :
    ctx.EditsFrom before (x >>= f) :=
  ⟨hx.closes.andThen hf, fun w hw w' hrun => hx.records w hw w' (hx.closes.upTo_andThen ▸ hrun)⟩

theorem Edits.andThen {x : Handler α} {f : α → Handler β}
    (hx : ctx.Edits x) (hf : ∀ a, (f a).Avoids Access.Changes) : ctx.Edits (x >>= f) :=
  ⟨hx.closes.andThen hf, fun w hw w' hrun => hx.records w hw w' (hx.closes.upTo_andThen ▸ hrun)⟩

theorem Edits.of_snapshot {f : Snapshot → Handler α}
    (hf : ∀ before, ctx.EditsFrom before (f before)) : ctx.Edits (ctx.takeSnapshot >>= f) := by
  have havoids := Ctx.avoids_records (avoids_snapshotOf ctx.places)
  refine ⟨.after havoids fun before => (hf before).closes, fun w hw w' hrun => ?_⟩
  rw [takeSnapshot, Interaction.upTo_after havoids, Interaction.run_bind,
    Stateful.bind_ok (run_snapshotOf hw.reliable _)] at hrun
  exact (hf _).records w hw w' hrun

theorem editsFrom_recordEdit (before : Snapshot) : ctx.EditsFrom before (recordEdit before) := by
  refine ⟨.inl ⟨trivial, fun _ => trivial⟩, fun w hw w' hrun => ?_⟩
  cases hrun
  exact ⟨rfl, hw.reliable, hw.readable⟩

theorem editsFrom_commit (before : Snapshot) (p : Place) (project : Project) :
    ctx.EditsFrom before (ctx.commit before p project) :=
  .after (saves_internal (saves_saveRawPath p project)) fun _ => editsFrom_recordEdit before

section Requests

variable (ctx) (body : String)

theorem edits_applyEditResponseTo (p : Place) (f : EditFn) :
    ctx.Edits (ctx.applyEditResponseTo p body f) := by
  refine .after (ctx.avoids_request body) fun req => .of_snapshot fun before => ?_
  refine .after (saves_loadRawPath p) fun project => ?_
  refine .after (saves_of_avoids (ctx.avoids_attachIncluded project)) fun project => ?_
  refine .after (saves_of_avoids (avoids_orBad _)) fun edited => ?_
  exact .andThen (editsFrom_commit before p _) fun _ => ctx.avoids_buildInspect

theorem edits_addNodeResponse : ctx.Edits (ctx.addNodeResponse body) := by
  refine .andThen (ctx.edits_applyEditResponseTo body _ _) fun resp => ?_
  split
  · exact .bind (avoids_writeLus _ _) fun _ => .pure _
  · exact .pure _

theorem edits_addTo (p : Place) (f : Package → Package) : ctx.Edits (ctx.addTo p f) :=
  .of_snapshot fun before => .after (saves_loadRawPath p) fun _ =>
    .andThen (editsFrom_commit before p _) fun _ => ctx.avoids_buildInspect

theorem edits_addTypeResponse : ctx.Edits (ctx.addTypeResponse body) := by
  refine .after (ctx.avoids_request body) fun req => .after (avoids_orBad _) fun name => ?_
  refine .after (avoids_refuseIf _ _) fun _ => ?_
  refine .after (avoids_internal ctx.avoids_loadProject) fun full => ?_
  refine .after (avoids_refuseIf _ _) fun _ => .after (avoids_orBad _) fun decl => ?_
  exact ctx.edits_addTo _ _

theorem edits_addConstantResponse : ctx.Edits (ctx.addConstantResponse body) := by
  refine .after (ctx.avoids_request body) fun req => .after (avoids_orBad _) fun rawName => ?_
  refine .after (avoids_refuseIf _ _) fun _ => .after (avoids_orBad _) fun tyStr => ?_
  refine .after (avoids_orBad _) fun ty => .after (avoids_orBad _) fun valueStr => ?_
  refine .after (avoids_refuseIf _ _) fun _ => .after (avoids_orBad _) fun value => ?_
  refine .after (avoids_internal ctx.avoids_loadProject) fun full => ?_
  refine .after (avoids_refuseIf _ _) fun _ => .after (avoids_refuseIf _ _) fun _ => ?_
  exact ctx.edits_addTo _ _

theorem edits_removeFrom (has : Package → Bool) (drop : Package → Package) (absent : String)
    (ps : List Place) : ctx.Edits (ctx.removeFrom has drop absent ps) := by
  induction ps with
  | nil => exact .fail _
  | cons p ps ih =>
    refine .after (avoids_internal (ctx.avoids_loadRawPath p)) fun doc => ?_
    split
    · exact .of_snapshot fun before => .andThen (editsFrom_commit before p _) fun _ =>
        ctx.avoids_buildInspect
    · exact ih

theorem edits_removeTypeResponse : ctx.Edits (ctx.removeTypeResponse body) :=
  .after (ctx.avoids_request body) fun _ => .after (avoids_orBad _) fun _ =>
    ctx.edits_removeFrom _ _ _ _

theorem edits_removeConstantResponse : ctx.Edits (ctx.removeConstantResponse body) :=
  .after (ctx.avoids_request body) fun _ => .after (avoids_orBad _) fun _ =>
    ctx.edits_removeFrom _ _ _ _

theorem edits_importLustreResponse : ctx.Edits (ctx.importLustreResponse body) := by
  refine .after (ctx.avoids_request body) fun req => .after (avoids_orBad _) fun text => ?_
  refine .after (avoids_orBad _) fun imported => ?_
  refine .after (avoids_internal ctx.avoids_loadProject) fun full => ?_
  refine .after (avoids_refuseIf _ _) fun _ => .of_snapshot fun before => ?_
  refine .after (saves_importNodes imported) fun _ => .after (saves_importTypes imported) fun _ => ?_
  exact .andThen (editsFrom_recordEdit before) fun _ =>
    .bind (avoids_importStubs _) fun _ => .pure _

theorem edits_dropResponse (d : Drop) : ctx.Edits (ctx.dropResponse d body) := by
  refine .after (ctx.avoids_request body) fun req => .after (avoids_orBad _) fun decoded => ?_
  refine .after (ctx.avoids_resolveDrop d decoded) fun resolved => .of_snapshot fun before => ?_
  refine .after (saves_loadRawPath _) fun project => ?_
  refine .after (saves_of_avoids (avoids_orBad _)) fun project => ?_
  exact .andThen (editsFrom_commit before _ _) fun _ => ctx.avoids_buildInspect

theorem edits_setRoot (main : String) : ctx.Edits (ctx.setRoot main) :=
  .of_snapshot fun before => .after (saves_loadRawPath _) fun _ => editsFrom_commit before _ _

end Requests

/-- An edit that succeeds is journaled once. -/
theorem Edits.journals {x : Handler α} (h : ctx.Edits x) {w w' : World} (hw : ctx.Steady w) {a : α}
    (hrun : x.run World.serve w = (.ok a, w')) :
    w'.history = w.history.record (ctx.texts w.files) ∧ ctx.Steady w' := by
  obtain ⟨w₁, hrun₁, hedited⟩ := h.closes.run_upTo
    (fun _ _ => World.edited_serve) hrun
  obtain ⟨hhist, hw₁⟩ := h.records w hw w₁ hrun₁
  have hreliable : w'.Reliable := by
    simpa [hrun] using x.run_invariant World.serve (fun _ _ => World.Reliable.serve) hw.reliable
  exact ⟨(World.edited_eq_iff.mp hedited).2.trans hhist, hw₁.of_edited hedited hreliable⟩

end Ctx

/-- The requests that are edits, whatever else the server answers. -/
def Request.IsEdit : Request → Prop
  | .undo => False
  | .redo => False
  | .build _ => False
  | _ => True

theorem Request.IsEdit.edits {ctx : Ctx} {r : Request} (h : r.IsEdit) : ctx.Edits (r.handle ctx) := by
  cases r with
  | edit f body => exact ctx.edits_applyEditResponseTo body _ f
  | addNode body => exact ctx.edits_addNodeResponse body
  | addType body => exact ctx.edits_addTypeResponse body
  | removeType body => exact ctx.edits_removeTypeResponse body
  | addConstant body => exact ctx.edits_addConstantResponse body
  | removeConstant body => exact ctx.edits_removeConstantResponse body
  | importLustre body => exact ctx.edits_importLustreResponse body
  | addBlockCall body => exact ctx.edits_dropResponse body _
  | addOperation body => exact ctx.edits_dropResponse body _
  | addTypeOp body => exact ctx.edits_dropResponse body _
  | addExpression body => exact ctx.edits_dropResponse body _
  | undo => exact h.elim
  | redo => exact h.elim
  | build body => exact h.elim

end OpenLustre.Studio
