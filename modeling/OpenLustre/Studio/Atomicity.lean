import OpenLustre.Studio.Journal

/-! What a request that is refused leaves, whichever access failed. -/

namespace OpenLustre.Studio

open OpenLustre.Ir

instance : DecidablePred Access.Changes
  | .read _ => .isFalse id
  | .write _ _ => .isTrue trivial
  | .writeLus _ _ => .isFalse id
  | .pop _ => .isTrue trivial
  | .push _ _ => .isTrue trivial
  | .record _ => .isTrue trivial
  | .depths => .isFalse id

/-- The access changes nothing: the file is not opened for the write, or there is nothing
to undo or redo. -/
def Access.Refused : Access → World → Prop
  | write _ _, w => ∃ e, w.faults 0 = .refused e
  | pop undo, w => w.history.pop undo = none
  | _, _ => False

namespace World

instance {a : Access} {w : World} : Decidable (a.Refused w) :=
  match a with
  | .write _ _ =>
    match h : w.faults 0 with
    | .none => .isFalse fun ⟨_, he⟩ => by cases h.symm.trans he
    | .refused e => .isTrue ⟨e, h⟩
    | .cut _ _ => .isFalse fun ⟨_, he⟩ => by cases h.symm.trans he
  | .pop undo => inferInstanceAs (Decidable (w.history.pop undo = none))
  | .read _ => .isFalse id
  | .writeLus _ _ => .isFalse id
  | .push _ _ => .isFalse id
  | .record _ => .isFalse id
  | .depths => .isFalse id

/-- What a file reads as. -/
def found (w : World) (p : Place) : Except String String := (serve (.read p) w).1

/-- The world some file accesses later. -/
def past (w : World) (n : Nat) : World := { w with faults := fun i => w.faults (i + n) }

end World

/-- The program ends well. -/
def Answers {ε α : Type} (x : Program ε α) (w : World) : Prop :=
  ∃ a w', x.run World.serve w = (.ok a, w')

section Answers

variable {ε α β : Type} {x : Program ε α} {f : α → Program ε β} {w w' : World}

theorem answers_pure (a : α) : Answers (pure a : Program ε α) w := ⟨a, w, rfl⟩

theorem not_answers_fail (e : ε) : ¬ Answers (.fail e : Program ε α) w := nofun

theorem answers_bind {a : α} (h : x.run World.serve w = (.ok a, w')) :
    Answers (x >>= f) w ↔ Answers (f a) w' := by
  rw [Answers, Interaction.run_bind, Stateful.bind_ok h]
  rfl

theorem not_answers_bind {e : ε} (h : x.run World.serve w = (.error e, w')) :
    ¬ Answers (x >>= f) w := by
  rw [Answers, Interaction.run_bind, Stateful.bind_error h]
  exact nofun

theorem answers_internal {x : Attempt α} : Answers (internal x) w ↔ Answers x w := by
  simp only [Answers, internal, Interaction.run_mapError, Prod.mk.injEq, Except.mapError_eq_ok]
  constructor
  · rintro ⟨a, w', h, h'⟩
    exact ⟨a, w', Prod.ext h h'⟩
  · rintro ⟨a, w', h⟩
    exact ⟨a, w', by simp [h]⟩

theorem run_internal {x : Attempt α} {a : α} (h : x.run World.serve w = (.ok a, w')) :
    (internal x).run World.serve w = (.ok a, w') := by
  rw [internal, Interaction.run_mapError, h]
  rfl

theorem run_internal_error {x : Attempt α} {e : String}
    (h : x.run World.serve w = (.error e, w')) :
    (internal x).run World.serve w = (.error ⟨500, e⟩, w') := by
  rw [internal, Interaction.run_mapError, h]
  rfl

end Answers

namespace Ctx

variable {ctx : Ctx} {α β : Type}

/-- The first write goes through, and `late` behind it. -/
def Done (late : World → Prop) : Access → World → Prop
  | .write p text, w => w.faults 0 = .none ∧ late (w.nextFault.write p text)
  | _, _ => False

/-- A request whose first change is refused has changed nothing; once the first change is
made, the request succeeds if and only if `late`. -/
structure Settles (late : Access → World → Prop) (x : Handler α) : Prop where
  refused : ∀ w a w₁, x.first World.serve Access.Changes w = some (a, w₁) → a.Refused w₁ →
    (x.run World.serve w).2.edited = w.edited
  done : ∀ w a w₁, x.first World.serve Access.Changes w = some (a, w₁) → ¬ a.Refused w₁ →
    (Answers x w ↔ late a w₁)

variable {late : Access → World → Prop}

theorem Settles.of_avoids {x : Handler α} (hx : x.Avoids Access.Changes) : Settles late x := by
  refine ⟨fun w a w₁ hfirst => ?_, fun w a w₁ hfirst => ?_⟩ <;>
  · rw [Interaction.first_of_avoids hx] at hfirst
    cases hfirst

theorem Settles.after {x : Handler α} {f : α → Handler β} (hx : x.Avoids Access.Changes)
    (hf : ∀ a, Settles late (f a)) : Settles late (x >>= f) := by
  refine ⟨fun w a w₁ hfirst hrefused => ?_, fun w a w₁ hfirst hmade => ?_⟩ <;>
  obtain ⟨r, w', hrun⟩ : ∃ r w', x.run World.serve w = (r, w') := ⟨_, _, rfl⟩
  · have hedited : w'.edited = w.edited := by simpa [hrun] using run_of_avoids hx (w := w)
    cases r with
    | error e =>
      rw [Interaction.first_bind_of_error hx hrun] at hfirst
      cases hfirst
    | ok b =>
      rw [Interaction.first_bind_of_avoids hx hrun] at hfirst
      rw [Interaction.run_bind, Stateful.bind_ok hrun]
      exact ((hf b).refused w' a w₁ hfirst hrefused).trans hedited
  · cases r with
    | error e =>
      rw [Interaction.first_bind_of_error hx hrun] at hfirst
      cases hfirst
    | ok b =>
      rw [Interaction.first_bind_of_avoids hx hrun] at hfirst
      exact (answers_bind hrun).trans ((hf b).done w' a w₁ hfirst hmade)

/-- What changes nothing and always succeeds does not make a refused request of another. -/
theorem Settles.andThen {x : Handler α} {f : α → Handler β} (hx : Settles late x)
    (hf : ∀ a, (f a).Avoids Access.Changes) (hanswers : ∀ a w, Answers (f a) w) :
    Settles late (x >>= f) := by
  refine ⟨fun w a w₁ hfirst hrefused => ?_, fun w a w₁ hfirst hmade => ?_⟩ <;>
  rw [Interaction.first_bind_avoids hf] at hfirst <;>
  obtain ⟨r, w', hrun⟩ : ∃ r w', x.run World.serve w = (r, w') := ⟨_, _, rfl⟩
  · have hedited : w'.edited = w.edited := by simpa [hrun] using hx.refused w a w₁ hfirst hrefused
    cases r with
    | error e =>
      rw [Interaction.run_bind, Stateful.bind_error hrun]
      exact hedited
    | ok b =>
      rw [Interaction.run_bind, Stateful.bind_ok hrun]
      exact (run_of_avoids (hf b)).trans hedited
  · rw [← hx.done w a w₁ hfirst hmade]
    cases r with
    | error e =>
      refine iff_of_false (not_answers_bind hrun) ?_
      rintro ⟨b, v, h⟩
      simp [hrun] at h
    | ok b => exact iff_of_true ((answers_bind hrun).mpr (hanswers b w')) ⟨b, w', hrun⟩

section Writing

variable {late : World → Prop}

/-- A write whose failure ends the request. -/
theorem answers_writing {x : Handler (Except String Unit)} {write : World → String → World}
    {text : String} {k : Except String Unit → Handler α} {w : World}
    (hx : x.run World.serve w = (.ok (w.writing write text).1, (w.writing write text).2))
    (herror : ∀ e, ∃ r, k (.error e) = .fail r) :
    Answers (x >>= k) w ↔ w.faults 0 = .none ∧ Answers (k (.ok ())) (write w.nextFault text) := by
  rw [answers_bind hx, World.writing]
  cases w.faults 0 with
  | none => exact (and_iff_right rfl).symm
  | refused e =>
    obtain ⟨r, hr⟩ := herror e
    exact iff_of_false (hr ▸ not_answers_fail r) (by simp)
  | cut kept e =>
    obtain ⟨r, hr⟩ := herror e
    exact iff_of_false (hr ▸ not_answers_fail r) (by simp)

theorem run_writing_text (p : Place) (text : String) (w : World) :
    (writeText p text : Handler _).run World.serve w
      = (.ok (w.writing (·.write p) text).1, (w.writing (·.write p) text).2) := rfl

theorem run_writing_lus (name text : String) (w : World) :
    (writeLus name text : Handler _).run World.serve w
      = (.ok (w.writing (·.writeLus name) text).1, (w.writing (·.writeLus name) text).2) := rfl

/-- A write with what comes behind it. -/
theorem settles_writeText {p : Place} {text : String} {k : Except String Unit → Handler α}
    (herror : ∀ e, ∃ r, k (.error e) = .fail r) (hok : ∀ w, Answers (k (.ok ())) w ↔ late w) :
    Settles (Done late) (writeText p text >>= k) := by
  refine ⟨fun w a w₁ hfirst hrefused => ?_, fun w a w₁ hfirst _ => ?_⟩ <;> cases hfirst
  · obtain ⟨e, hfault⟩ := hrefused
    obtain ⟨r, hr⟩ := herror e
    have hwrite : (writeText p text : Handler _).run World.serve w
        = (.ok (.error e), w.nextFault) := by
      simp [writeText, World.serve, World.writing, hfault]
    rw [Interaction.run_bind, Stateful.bind_ok hwrite, hr]
    rfl
  · exact (answers_writing (run_writing_text p text w) herror).trans (and_congr_right fun _ => hok _)

theorem settles_save {p : Place} {project : Project} {f : Unit → Handler α}
    (hok : ctx.native = false → ∀ w, Answers (f ()) w ↔ late w) :
    Settles (Done late) (internal (ctx.saveRawPath p project) >>= f) := by
  unfold saveRawPath
  split
  next => exact .of_avoids trivial
  next hauthored =>
    have hnative : ctx.native = false := by simp at hauthored; exact hauthored.1
    simp only [internal, Interaction.mapError_bind, Interaction.bind_assoc]
    refine .after (avoids_internal (.lift _)) fun text => ?_
    refine .after (avoids_internal (avoids_readToString p)) fun _ => ?_
    exact settles_writeText (fun e => ⟨_, rfl⟩) (hok hnative)

end Writing

/-- The project loads. -/
def Loads (ctx : Ctx) (w : World) : Prop :=
  ∃ project, ctx.load (w.found .model) (w.nextFault.found .types) = .ok project

theorem run_loadProject (w : World) : ctx.loadProject.run World.serve w
    = (ctx.load (w.found .model) (w.nextFault.found .types), w.nextFault.nextFault) := by
  rw [loadProject, Interaction.run_bind]
  change (_ : Program String _).run World.serve w.nextFault = _
  rw [Interaction.run_bind]
  change (_ : Program String _).run World.serve w.nextFault.nextFault = _
  rw [Interaction.run_lift]
  rfl

theorem answers_buildInspect {w : World} :
    Answers (internal ctx.buildInspect) w ↔ ctx.Loads w := by
  rw [answers_internal, buildInspect]
  cases hload : ctx.load (w.found .model) (w.nextFault.found .types) with
  | error e =>
    have hrun : ctx.loadProject.run World.serve w = _ := run_loadProject w
    rw [hload] at hrun
    exact iff_of_false (not_answers_bind hrun) fun h => by simp [Loads, hload] at h
  | ok project =>
    have hrun : ctx.loadProject.run World.serve w = _ := run_loadProject w
    rw [hload] at hrun
    rw [answers_bind hrun, answers_bind (Interaction.run_attempt _ _ _),
      answers_bind (Interaction.run_attempt _ _ _)]
    exact iff_of_true ⟨_, _, rfl⟩ ⟨project, hload⟩

theorem run_recordEdit (before : Snapshot) (w : World) :
    (recordEdit before).run World.serve w
      = (.ok (), { w with history := w.history.record before }) := rfl

theorem settles_commit {before : Snapshot} {p : Place} {project : Project} :
    Settles (Done ctx.Loads)
      (ctx.commit before p project >>= fun _ => internal ctx.buildInspect) := by
  rw [commit, Interaction.bind_assoc]
  exact settles_save fun _ w =>
    (answers_bind (run_recordEdit before w)).trans answers_buildInspect

section Requests

variable (ctx) (body : String)

theorem settles_applyEditResponseTo (p : Place) (f : EditFn) :
    Settles (Done ctx.Loads) (ctx.applyEditResponseTo p body f) := by
  refine .after (ctx.avoids_request body) fun req => ?_
  refine .after (avoids_snapshotOf ctx.places) fun before => ?_
  refine .after (avoids_internal (ctx.avoids_loadRawPath p)) fun project => ?_
  refine .after (ctx.avoids_attachIncluded project) fun project => ?_
  exact .after (avoids_orBad _) fun edited => settles_commit

theorem answers_writeLus {β : Type} {name text : String} {k : Except String Unit → Handler β}
    {w : World} (h : ∀ r w', Answers (k r) w') : Answers (writeLus name text >>= k) w :=
  (answers_bind (Prod.ext rfl rfl)).mpr (h (World.serve (.writeLus name text) w).1 _)

theorem settles_addNodeResponse :
    Settles (Done ctx.Loads) (ctx.addNodeResponse body) := by
  refine .andThen (ctx.settles_applyEditResponseTo body _ _) (fun resp => ?_) fun resp w => ?_
  · split
    · exact .bind (avoids_writeLus _ _) fun _ => .pure _
    · exact .pure _
  · split
    · exact answers_writeLus fun _ _ => answers_pure _
    · exact answers_pure _

theorem settles_addTo (p : Place) (f : Package → Package) :
    Settles (Done ctx.Loads) (ctx.addTo p f) :=
  .after (avoids_snapshotOf ctx.places) fun _ =>
    .after (avoids_internal (ctx.avoids_loadRawPath p)) fun _ => settles_commit

theorem settles_addTypeResponse :
    Settles (Done ctx.Loads) (ctx.addTypeResponse body) := by
  refine .after (ctx.avoids_request body) fun req => .after (avoids_orBad _) fun name => ?_
  refine .after (avoids_refuseIf _ _) fun _ => ?_
  refine .after (avoids_internal ctx.avoids_loadProject) fun full => ?_
  refine .after (avoids_refuseIf _ _) fun _ => .after (avoids_orBad _) fun decl => ?_
  exact ctx.settles_addTo _ _

theorem settles_addConstantResponse :
    Settles (Done ctx.Loads) (ctx.addConstantResponse body) := by
  refine .after (ctx.avoids_request body) fun req => .after (avoids_orBad _) fun rawName => ?_
  refine .after (avoids_refuseIf _ _) fun _ => .after (avoids_orBad _) fun tyStr => ?_
  refine .after (avoids_orBad _) fun ty => .after (avoids_orBad _) fun valueStr => ?_
  refine .after (avoids_refuseIf _ _) fun _ => .after (avoids_orBad _) fun value => ?_
  refine .after (avoids_internal ctx.avoids_loadProject) fun full => ?_
  refine .after (avoids_refuseIf _ _) fun _ => .after (avoids_refuseIf _ _) fun _ => ?_
  exact ctx.settles_addTo _ _

theorem settles_removeFrom (has : Package → Bool) (drop : Package → Package) (absent : String)
    (ps : List Place) : Settles (Done ctx.Loads) (ctx.removeFrom has drop absent ps) := by
  induction ps with
  | nil => exact .of_avoids (.fail _)
  | cons p ps ih =>
    refine .after (avoids_internal (ctx.avoids_loadRawPath p)) fun doc => ?_
    split
    · exact .after (avoids_snapshotOf ctx.places) fun _ => settles_commit
    · exact ih

theorem settles_removeTypeResponse : Settles (Done ctx.Loads) (ctx.removeTypeResponse body) :=
  .after (ctx.avoids_request body) fun _ => .after (avoids_orBad _) fun _ =>
    ctx.settles_removeFrom _ _ _ _

theorem settles_removeConstantResponse :
    Settles (Done ctx.Loads) (ctx.removeConstantResponse body) :=
  .after (ctx.avoids_request body) fun _ => .after (avoids_orBad _) fun _ =>
    ctx.settles_removeFrom _ _ _ _

theorem settles_dropResponse (d : Drop) :
    Settles (Done ctx.Loads) (ctx.dropResponse d body) := by
  refine .after (ctx.avoids_request body) fun req => .after (avoids_orBad _) fun decoded => ?_
  refine .after (ctx.avoids_resolveDrop d decoded) fun resolved => ?_
  refine .after (avoids_snapshotOf ctx.places) fun before => ?_
  refine .after (avoids_internal (ctx.avoids_loadRawPath _)) fun project => ?_
  exact .after (avoids_orBad _) fun project => settles_commit

/-- What a body imports. -/
def Imports (imported : Imported) : Prop :=
  ∃ req text, ctx.parseJson body = .ok req ∧ reqStr req "lustre" = .ok text ∧
    ctx.parseLustre text = .ok imported

/-- The types file takes the imported types and constants, if there are any for it. -/
def TakesTypes (imported : Imported) (w : World) : Prop :=
  ctx.typesFile && (!imported.types.isEmpty || !imported.constants.isEmpty) →
    ∃ text types out, w.found .types = .ok text ∧ ctx.parse .types text = .ok types ∧
      types.resolution = none ∧ ctx.print .types (extendFirst imported.addTypes types) = .ok out ∧
      (w.past 2).faults 0 = .none

/-- What a build slices and, unless it has errors, writes. -/
def Builds (project : Project) (main : String) (w : World) : Prop :=
  ∃ sliced, ctx.sliceForRoot project main = .ok sliced ∧
    ((ctx.buildSlice sliced).errors > 0 ∨ w.faults 0 = .none)

/-- A popped snapshot is written back whole, and loads. -/
def Restores : Access → World → Prop
  | .pop undo, w => ∃ snap h, w.history.pop undo = some (snap, h) ∧
      let w := w.past ctx.places.length
      (∀ i < snap.length, w.faults i = .none) ∧
        ctx.Loads { w.past snap.length with files := restored snap w.files }
  | _, _ => False

variable {ctx body}

theorem Settles.orBad {late : Access → World → Prop} {r : Except String α} {f : α → Handler β}
    (hf : ∀ a, r = .ok a → Settles late (f a)) : Settles late (orBad r >>= f) := by
  cases r with
  | ok a => exact hf a rfl
  | error e => exact .of_avoids trivial

theorem run_loadRawPath (p : Place) (w : World) :
    (ctx.loadRawPath p).run World.serve w
      = ((w.found p).mapError (fun e => s!"reading {ctx.path p}: {e}") >>= ctx.parse p,
        w.nextFault) := by
  have hread : (readToString p : Attempt _).run World.serve w = (.ok (w.found p), w.nextFault) :=
    rfl
  rw [loadRawPath, readFile, Interaction.bind_assoc, Interaction.run_bind, Stateful.bind_ok hread]
  cases w.found p with
  | ok text => exact congrFun (Interaction.run_lift World.serve _) _
  | error e => rfl

theorem answers_saveRawPath {p : Place} {project : Project} {f : Unit → Handler α} {w : World}
    (hnative : ctx.native = false) (hf : ∀ w, Answers (f ()) w) :
    Answers (internal (ctx.saveRawPath p project) >>= f) w ↔
      project.resolution = none ∧ ∃ out, ctx.print p project = .ok out ∧
        w.nextFault.faults 0 = .none := by
  unfold saveRawPath
  rw [hnative, Bool.false_or]
  cases hresolution : project.resolution with
  | some r => exact iff_of_false (not_answers_fail _) (by simp)
  | none =>
    rw [Option.isSome_none, if_neg Bool.false_ne_true, and_iff_right rfl]
    simp only [internal, Interaction.mapError_bind, Interaction.bind_assoc]
    cases ctx.print p project with
    | error e => exact iff_of_false (not_answers_fail _) (by simp)
    | ok out =>
      have hread : (internal (readToString p)).run World.serve w
          = (.ok (w.found p), w.nextFault) := rfl
      refine (answers_bind hread).trans
        ((answers_writing (run_writing_text p out _) fun e => ⟨_, rfl⟩).trans ?_)
      exact ⟨fun h => ⟨out, rfl, h.1⟩, fun h => ⟨h.choose_spec.2, hf _⟩⟩

theorem answers_importTypes (hnative : ctx.native = false) {imported : Imported}
    {f : Unit → Handler α} {w : World} (hf : ∀ w, Answers (f ()) w) :
    Answers (ctx.importTypes imported >>= f) w ↔ ctx.TakesTypes imported w := by
  unfold importTypes TakesTypes
  split
  next hsome =>
    rw [Interaction.bind_assoc, forall_prop_of_true hsome]
    have hload : (ctx.loadRawPath .types).run World.serve w = _ := run_loadRawPath .types w
    cases hfound : w.found .types with
    | error e =>
      rw [hfound] at hload
      exact iff_of_false (not_answers_bind (run_internal_error hload)) (by simp)
    | ok text =>
      cases hparse : ctx.parse .types text with
      | error e =>
        rw [hfound] at hload
        have hfail := run_internal_error (hload.trans (congrArg (·, w.nextFault) hparse))
        exact iff_of_false (not_answers_bind hfail) (by simp [hparse])
      | ok types =>
        rw [hfound] at hload
        have hok := run_internal (hload.trans (congrArg (·, w.nextFault) hparse))
        rw [answers_bind hok, answers_saveRawPath hnative hf]
        have hfree : (extendFirst imported.addTypes types).resolution = types.resolution := by
          unfold extendFirst
          split <;> rfl
        rw [hfree]
        constructor
        · rintro ⟨hresolution, out, hout, hfault⟩
          exact ⟨text, types, out, rfl, hparse, hresolution, hout, hfault⟩
        · rintro ⟨_, _, out, htext, htypes, hresolution, hout, hfault⟩
          cases htext
          cases hparse.symm.trans htypes
          exact ⟨hresolution, out, hout, hfault⟩
  next hnone => exact iff_of_true (hf w) fun h => absurd h hnone

theorem answers_importStubs (ns : List NodeDef) {f : Unit → Handler α}
    (hf : ∀ w, Answers (f ()) w) (w : World) : Answers (importStubs ns >>= f) w := by
  induction ns generalizing w with
  | nil => exact hf w
  | cons n ns ih =>
    rw [importStubs, Interaction.bind_assoc]
    exact answers_writeLus fun _ w' => ih w'

theorem settles_importLustreResponse :
    Settles (Done fun w => ∀ imported, ctx.Imports body imported → ctx.TakesTypes imported w)
      (ctx.importLustreResponse body) := by
  refine .orBad fun req hreq => .orBad fun text htext => .orBad fun imported himported => ?_
  have himports : ctx.Imports body imported :=
    ⟨req, text, Except.mapError_eq_ok.mp hreq, htext, Except.mapError_eq_ok.mp himported⟩
  have hunique : ∀ imported', ctx.Imports body imported' → imported' = imported := by
    rintro imported' ⟨req', text', hreq', htext', himported'⟩
    obtain ⟨_, _, hreq, htext, himported⟩ := himports
    cases hreq.symm.trans hreq'
    cases htext.symm.trans htext'
    cases himported.symm.trans himported'
    rfl
  refine .after (avoids_internal ctx.avoids_loadProject) fun full => ?_
  refine .after (avoids_refuseIf _ _) fun _ => ?_
  refine .after (avoids_snapshotOf ctx.places) fun before => ?_
  rw [importNodes, Interaction.bind_assoc]
  refine .after (avoids_internal (ctx.avoids_loadRawPath _)) fun m => ?_
  -- Without a types file this write is the only one.
  refine settles_save fun hnative w => (answers_importTypes hnative fun w => ?_).trans
    ⟨fun h imported' himports' => hunique imported' himports' ▸ h, fun h => h imported himports⟩
  rw [answers_bind (run_recordEdit before w)]
  refine answers_importStubs imported.nodes (fun _ => ?_) _
  exact answers_pure _

theorem answers_buildSelected {project : Project} {main : String} {w : World}
    (h : project.resolution = none) :
    Answers (ctx.buildSelected project main) w ↔ ctx.Builds project main w := by
  unfold buildSelected Builds
  cases hsliced : ctx.sliceForRoot project main with
  | error e => exact iff_of_false (not_answers_fail _) (by simp)
  | ok sliced =>
    have hrun : (internal (.lift (.ok sliced))).run World.serve w = (.ok sliced, w) := rfl
    rw [answers_bind hrun]
    dsimp only
    split
    next herrors => exact iff_of_true (answers_pure _) ⟨sliced, rfl, .inl herrors⟩
    next herrors =>
      rw [h, Option.isSome_none, if_neg Bool.false_ne_true]
      refine (answers_writing (run_writing_lus main _ w) fun e => ⟨_, rfl⟩).trans ?_
      constructor
      · exact fun hwrite => ⟨sliced, rfl, .inr hwrite.1⟩
      · rintro ⟨_, hslices, hbuilt⟩
        cases hslices
        exact ⟨hbuilt.resolve_left herrors, answers_pure _⟩

/-- Once the root is set, an operator that slices is built. -/
theorem settles_setRoot_buildSelected {project : Project} {main : String}
    (h : project.resolution = none) :
    Settles (Done (ctx.Builds project main))
      (ctx.setRoot main >>= fun _ => ctx.buildSelected project main) := by
  rw [setRoot, Interaction.bind_assoc]
  refine .after (avoids_snapshotOf ctx.places) fun before => ?_
  rw [Interaction.bind_assoc]
  refine .after (avoids_internal (ctx.avoids_loadRawPath _)) fun raw => ?_
  rw [commit, Interaction.bind_assoc]
  exact settles_save fun _ w =>
    (answers_bind (run_recordEdit before w)).trans (answers_buildSelected h)

theorem run_snapshotOf_past (ps : List Place) (w : World) :
    ∃ s, (snapshotOf ps).run World.serve w = (.ok s, w.past ps.length) := by
  induction ps generalizing w with
  | nil => exact ⟨[], rfl⟩
  | cons p ps ih =>
    have hread : (readToString p : Handler _).run World.serve w = (.ok (w.found p), w.nextFault) :=
      rfl
    obtain ⟨s, hs⟩ := ih w.nextFault
    rw [snapshotOf, Interaction.run_bind, Stateful.bind_ok hread]
    cases w.found p with
    | ok text =>
      simp only [Interaction.run_bind]
      exact ⟨(p, text) :: s, (Stateful.bind_ok hs).trans rfl⟩
    | error e => exact ⟨s, hs⟩

theorem answers_restore {s : Snapshot} {f : Unit → Handler α} {w : World} :
    Answers (ctx.restore s >>= f) w ↔
      (∀ i < s.length, w.faults i = .none) ∧
        Answers (f ()) { w.past s.length with files := restored s w.files } := by
  induction s generalizing w with
  | nil => exact (and_iff_right (by simp)).symm
  | cons e s ih =>
    rw [restore, Interaction.bind_assoc]
    refine (answers_writing (run_writing_text e.1 e.2 w) fun e => ⟨_, rfl⟩).trans ?_
    refine (and_congr_right fun _ => ih).trans ?_
    rw [← and_assoc, List.length_cons, Nat.forall_lt_succ_left]
    rfl

theorem settles_historyResponse (undo : Bool) :
    Settles ctx.Restores (ctx.historyResponse undo) := by
  refine ⟨fun w a w₁ hfirst hrefused => ?_, fun w a w₁ hfirst hmade => ?_⟩ <;> cases hfirst
  · exact congrArg World.edited (run_historyResponse_none hrefused)
  · obtain ⟨⟨snap, h⟩, hentry⟩ := Option.ne_none_iff_exists'.mp hmade
    have hread : (popSnapshot undo : Handler _).run World.serve w
        = (.ok (some snap), { w with history := h }) := by
      simp [popSnapshot, World.serve, hentry]
    obtain ⟨current, hcurrent⟩ := run_snapshotOf_past ctx.places { w with history := h }
    have hpush : (pushSnapshot undo current : Handler _).run World.serve
        { w.past ctx.places.length with history := h }
          = (.ok (), { w.past ctx.places.length with history := h.push current undo }) := rfl
    rw [historyResponse, answers_bind hread]
    refine (answers_bind hcurrent).trans ?_
    refine (answers_bind hpush).trans (answers_restore.trans ?_)
    refine (and_congr_right fun _ => answers_buildInspect).trans ?_
    constructor
    · exact fun hrestores => ⟨snap, h, hentry, hrestores⟩
    · rintro ⟨_, _, hentry', hrestores⟩
      cases hentry.symm.trans hentry'
      exact hrestores

end Requests

end Ctx

/-- The example model with these operators, in a file that fails after some reads. -/
def Ctx.failing (names : List String) (undo : List Snapshot) (reads : Nat) : World where
  files
    | .model => some (exampleText names)
    | .types => none
  lustre _ := none
  history := { undo := undo }
  faults n := if n < reads then .none else .refused "Permission denied (os error 13)"

namespace Request

variable (ctx : Ctx) (w : World)

/-- The build of an operator the request makes the root first. -/
def Roots (body : String) (project : Project) (main : String) : Prop :=
  ∃ loaded w' name, ctx.loadProject.run World.serve w = (.ok loaded, w') ∧
    ctx.buildTarget body loaded = some name ∧ Ctx.selectedNodeName loaded name = some main ∧
    project = { loaded with main := some main }

/-- What a request needs of its first change and behind it. -/
def Goes : Request → Access → World → Prop
  | undo => ctx.Restores
  | redo => ctx.Restores
  | importLustre body =>
    Ctx.Done fun w => ∀ imported, ctx.Imports body imported → ctx.TakesTypes imported w
  | build body =>
    Ctx.Done fun w₁ => ∀ project main, Roots ctx w body project main → ctx.Builds project main w₁
  | _ => Ctx.Done ctx.Loads

/-- The request changes nothing, its first change is refused, or all goes well from there. -/
def Settled (r : Request) : Prop :=
  ∀ a w₁, (r.route ctx).first World.serve Access.Changes w = some (a, w₁) →
    a.Refused w₁ ∨ r.Goes ctx w a w₁

variable {ctx w}

theorem Roots.unique {body : String} {project project' : Project} {main main' : String}
    (h : Roots ctx w body project main) (h' : Roots ctx w body project' main') :
    project' = project ∧ main' = main := by
  obtain ⟨loaded, v, name, hload, htarget, hselected, rfl⟩ := h
  obtain ⟨_, _, _, hload', htarget', hselected', rfl⟩ := h'
  cases hload.symm.trans hload'
  cases htarget.symm.trans htarget'
  cases hselected.symm.trans hselected'
  exact ⟨rfl, rfl⟩

/-- A build, at the world it meets. -/
theorem settles_build {body : String} {a : Access} {w₁ : World}
    (hfirst : (ctx.buildModelResponse body).first World.serve Access.Changes w = some (a, w₁)) :
    (a.Refused w₁ → ((ctx.buildModelResponse body).run World.serve w).2.edited = w.edited) ∧
      (¬ a.Refused w₁ →
        (Answers (ctx.buildModelResponse body) w ↔ (build body).Goes ctx w a w₁)) := by
  obtain ⟨r, w', hload⟩ : ∃ r w', ctx.loadProject.run World.serve w = (r, w') := ⟨_, _, rfl⟩
  have hlooks := Ctx.avoids_internal ctx.avoids_loadProject
  rw [Ctx.buildModelResponse] at hfirst ⊢
  cases r with
  | error e =>
    rw [Interaction.first_bind_of_error hlooks (run_internal_error hload)] at hfirst
    cases hfirst
  | ok loaded =>
    have hok := run_internal hload
    have hedited : w'.edited = w.edited := by simpa [hok] using Ctx.run_of_avoids hlooks (w := w)
    rw [Interaction.first_bind_of_avoids hlooks hok] at hfirst
    rw [Interaction.run_bind, Stateful.bind_ok hok, answers_bind hok, ← hedited]
    have hnone {x : Handler Json} (hx : x.Avoids Access.Changes)
        (hfirst : x.first World.serve Access.Changes w' = some (a, w₁)) : False := by
      rw [Interaction.first_of_avoids hx] at hfirst
      cases hfirst
    cases htarget : ctx.buildTarget body loaded with
    | none =>
      simp only [htarget] at hfirst
      exact (hnone (.pure _) hfirst).elim
    | some name =>
      cases hselected : Ctx.selectedNodeName loaded name with
      | none =>
        simp only [htarget, hselected] at hfirst
        exact (hnone (.pure _) hfirst).elim
      | some main =>
        simp only [htarget, hselected] at hfirst ⊢
        split at hfirst
        next => exact (hnone (.pure _) hfirst).elim
        next hauthored =>
          rw [if_neg hauthored]
          split at hfirst
          next hsets =>
            rw [if_pos hsets]
            have hfree : loaded.resolution = none := by simp [Ctx.setsRoot] at hsets; exact hsets.1
            have hsettles : Ctx.Settles _ (ctx.setRoot main >>= fun _ =>
                ctx.buildSelected { loaded with main := some main } main) :=
              Ctx.settles_setRoot_buildSelected hfree
            refine ⟨hsettles.refused w' a w₁ hfirst, fun hmade => ?_⟩
            rw [hsettles.done w' a w₁ hfirst hmade]
            have hroots : Roots ctx w body { loaded with main := some main } main :=
              ⟨loaded, w', name, hload, htarget, hselected, rfl⟩
            cases a with
            | write p text =>
              exact and_congr_right fun _ => ⟨fun h project main' hroots' => by
                obtain ⟨rfl, rfl⟩ := hroots.unique hroots'
                exact h, fun h => h _ _ hroots⟩
            | _ => exact Iff.rfl
          next => exact (hnone (ctx.avoids_buildSelected _ _) hfirst).elim

theorem settles_route {r : Request} {a : Access} {w₁ : World}
    (hfirst : (r.route ctx).first World.serve Access.Changes w = some (a, w₁)) :
    (a.Refused w₁ → (r.respond ctx w).2.edited = w.edited) ∧
      (¬ a.Refused w₁ → (Answers (r.route ctx) w ↔ r.Goes ctx w a w₁)) := by
  have hsettles {late : Access → World → Prop} {x : Handler Json} (hx : Ctx.Settles late x)
      (hfirst : x.first World.serve Access.Changes w = some (a, w₁)) :=
    And.intro (hx.refused w a w₁ hfirst) (hx.done w a w₁ hfirst)
  unfold respond
  unfold route at hfirst ⊢
  split at hfirst
  next hnative => cases hfirst
  next hauthored =>
    rw [if_neg hauthored]
    cases r with
    | edit f body => exact hsettles (ctx.settles_applyEditResponseTo body _ f) hfirst
    | addNode body => exact hsettles (ctx.settles_addNodeResponse body) hfirst
    | addType body => exact hsettles (ctx.settles_addTypeResponse body) hfirst
    | removeType body => exact hsettles (ctx.settles_removeTypeResponse body) hfirst
    | addConstant body => exact hsettles (ctx.settles_addConstantResponse body) hfirst
    | removeConstant body => exact hsettles (ctx.settles_removeConstantResponse body) hfirst
    | importLustre body => exact hsettles Ctx.settles_importLustreResponse hfirst
    | addBlockCall body => exact hsettles (ctx.settles_dropResponse body _) hfirst
    | addOperation body => exact hsettles (ctx.settles_dropResponse body _) hfirst
    | addTypeOp body => exact hsettles (ctx.settles_dropResponse body _) hfirst
    | addExpression body => exact hsettles (ctx.settles_dropResponse body _) hfirst
    | undo => exact hsettles (Ctx.settles_historyResponse true) hfirst
    | redo => exact hsettles (Ctx.settles_historyResponse false) hfirst
    | build body => exact settles_build hfirst

/-- A request that is answered with an error has changed neither the files nor the journal
when its first change was refused or, once it was made, nothing failed; and otherwise it is
answered with an error behind a change it made. -/
theorem refused_unchanged (r : Request) (w : World) :
    (r.Settled ctx w → ∀ e w', r.respond ctx w = (.error e, w') →
        w'.files = w.files ∧ w'.history = w.history) ∧
      (¬ r.Settled ctx w → ∃ e w' a w₁, r.respond ctx w = (.error e, w') ∧
        (r.route ctx).first World.serve Access.Changes w = some (a, w₁) ∧ ¬ a.Refused w₁) := by
  refine ⟨fun hsettled e w' hrun => World.edited_eq_iff.mp ?_, fun hunsettled => ?_⟩
  · cases hfirst : (r.route ctx).first World.serve Access.Changes w with
    | none =>
      have hview := Interaction.run_view_of_first_none World.edited
        (fun _ _ => World.edited_serve) hfirst
      exact (congrArg (·.2.edited) hrun).symm.trans hview
    | some entry =>
      obtain ⟨a, w₁⟩ := entry
      obtain ⟨hrefused, hdone⟩ := settles_route hfirst
      by_cases hmade : a.Refused w₁
      · exact (congrArg (·.2.edited) hrun).symm.trans (hrefused hmade)
      · obtain ⟨reply, v, hreply⟩ :=
          (hdone hmade).mpr ((hsettled a w₁ hfirst).resolve_left hmade)
        cases hrun.symm.trans hreply
  · simp only [Settled, not_forall, not_or] at hunsettled
    obtain ⟨a, w₁, hfirst, hmade, hgoes⟩ := hunsettled
    have hnot : ¬ Answers (r.route ctx) w :=
      fun h => hgoes (((settles_route hfirst).2 hmade).mp h)
    obtain ⟨reply, w', hrun⟩ : ∃ reply w', r.respond ctx w = (reply, w') := ⟨_, _, rfl⟩
    cases reply with
    | ok reply => exact absurd ⟨reply, w', hrun⟩ hnot
    | error e => exact ⟨e, w', a, w₁, hrun, hfirst, hmade⟩

open Ctx in
/-- The model is read and not written. -/
theorem addNode_refused :
    ∃ e w', (addNode (exampleBody "A")).respond exampleCtx (failing [] [] 4) = (.error e, w') ∧
      w'.files = (failing [] [] 4).files ∧ w'.history = (failing [] [] 4).history := by
  have hrefused : (∀ x ∈ ((addNode (exampleBody "A")).route exampleCtx).first World.serve
      Access.Changes (failing [] [] 4), x.1.Refused x.2) ∧
      ((addNode (exampleBody "A")).respond exampleCtx (failing [] [] 4)).1.toOption.isNone := by
    decide +kernel
  obtain ⟨hfirst, herror⟩ := hrefused
  have hsettled : (addNode (exampleBody "A")).Settled exampleCtx (failing [] [] 4) :=
    fun a w₁ h => .inl (hfirst (a, w₁) h)
  rcases hrun : (addNode (exampleBody "A")).respond exampleCtx (failing [] [] 4) with ⟨reply, w'⟩
  rw [hrun] at herror
  cases reply with
  | ok reply => cases herror
  | error e => exact ⟨e, w', rfl, (refused_unchanged _ _).1 hsettled e w' hrun⟩

open Ctx in
/-- An undo that cannot write the model back is refused, and has moved the journal. -/
theorem undo_moves_journal :
    ∃ e w', undo.respond exampleCtx (failing ["A"] [[(.model, exampleText [])]] 1) = (.error e, w') ∧
      w'.history ≠ (failing ["A"] [[(.model, exampleText [])]] 1).history := by
  have hundo : (undo.respond exampleCtx
      (failing ["A"] [[(.model, exampleText [])]] 1)).2.history.undo.length = 0 ∧
      (undo.respond exampleCtx
        (failing ["A"] [[(.model, exampleText [])]] 1)).1.toOption.isNone := by
    decide +kernel
  obtain ⟨hmoves, herror⟩ := hundo
  rcases hrun : undo.respond exampleCtx (failing ["A"] [[(.model, exampleText [])]] 1)
    with ⟨reply, w'⟩
  rw [hrun] at hmoves herror
  cases reply with
  | ok reply => cases herror
  | error e =>
    refine ⟨e, w', rfl, fun heq => ?_⟩
    rw [heq] at hmoves
    cases hmoves

end Request

end OpenLustre.Studio
