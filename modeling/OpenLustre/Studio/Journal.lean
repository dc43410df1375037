import OpenLustre.Lib.Timeline
import OpenLustre.Studio.Commits

/-! Edits, undo and redo on a workspace whose files stay readable and writable. -/

namespace OpenLustre.Studio

open OpenLustre.Ir

namespace Ctx

variable {ctx : Ctx} {ε α β : Type}

theorem run_writeText {w : World} (hw : w.Reliable) (p : Place) (text : String) :
    (writeText p text : Program ε _).run World.serve w = (.ok (.ok ()), w.write p text) := by
  simp [writeText, World.serve, hw.writing]

/-- The journal around the present texts, the nearest texts first. -/
def timeline (ctx : Ctx) (w : World) : Timeline Snapshot :=
  ⟨w.history.undo.reverse, ctx.texts w.files, w.history.redo.reverse⟩

/-- A workspace as requests leave it: the journal holds whole snapshots, at most
`historyCap` of them, and none of a native project. -/
structure Sound (ctx : Ctx) (w : World) : Prop where
  steady : ctx.Steady w
  whole : ∀ s ∈ w.history.undo ++ w.history.redo, s.map (·.1) = ctx.places
  bounded : w.history.undo.length + w.history.redo.length ≤ historyCap
  native : ctx.native → w.history = {}

/-- A workspace that has just been opened. -/
structure Opened (ctx : Ctx) (w : World) : Prop where
  steady : ctx.Steady w
  history : w.history = {}

theorem Opened.sound {w : World} (h : ctx.Opened w) : ctx.Sound w := by
  refine ⟨h.steady, ?_, ?_, fun _ => h.history⟩ <;> simp [h.history]

theorem map_fst_texts {files : Place → Option String} {ps : List Place}
    (h : ∀ p ∈ ps, (files p).isSome) :
    (ps.filterMap fun p => (files p).map (p, ·)).map (·.1) = ps := by
  induction ps with
  | nil => rfl
  | cons p ps ih =>
    obtain ⟨text, htext⟩ := Option.isSome_iff_exists.mp (h p List.mem_cons_self)
    simp [htext, ih fun q hq => h q (List.mem_cons_of_mem _ hq)]

/-- Nothing is saved to a native project. -/
theorem setRoot_of_native (h : ctx.native = true) {main : String} {w w' : World} {u : Unit}
    (hrun : (ctx.setRoot main).run World.serve w = (.ok u, w')) : False := by
  have hcommit : ∀ before p project, ctx.commit before p project
      = .fail ⟨500, "cannot save transient native resolution as an authored model"⟩ := by
    intro before p project
    simp only [commit, saveRawPath, h, Bool.true_or, if_true]
    rfl
  simp only [setRoot, Interaction.run_bind, Stateful.bind_eq_ok, hcommit,
    Interaction.run_fail] at hrun
  obtain ⟨_, _, -, _, _, -, hfail⟩ := hrun
  cases hfail

theorem nodup_places : ctx.places.Nodup := by
  unfold places
  split <;> simp

/-- The files with a snapshot written back. -/
def restored (s : Snapshot) (files : Place → Option String) : Place → Option String :=
  s.foldl (fun files e => Function.update files e.1 (some e.2)) files

theorem run_restore {w : World} (hw : w.Reliable) (s : Snapshot) :
    (ctx.restore s).run World.serve w = (.ok (), { w with files := restored s w.files }) := by
  induction s generalizing w with
  | nil => rfl
  | cons e s ih =>
    rw [restore, Interaction.run_bind, Stateful.bind_ok (run_writeText hw e.1 e.2)]
    exact ih hw

section Restored

variable {s : Snapshot} {files : Place → Option String}

theorem isSome_restored {p : Place} (h : (files p).isSome) : (restored s files p).isSome := by
  induction s generalizing files with
  | nil => exact h
  | cons e s ih =>
    apply ih
    by_cases hp : p = e.1
    · subst hp
      simp
    · simpa [hp] using h

theorem restored_of_not_mem {p : Place} (h : p ∉ s.map (·.1)) : restored s files p = files p := by
  induction s generalizing files with
  | nil => rfl
  | cons e s ih =>
    rw [List.map_cons, List.mem_cons, not_or] at h
    exact (ih h.2).trans (Function.update_of_ne h.1 _ _)

theorem restored_of_mem (hs : (s.map (·.1)).Nodup) {e : Place × String} (he : e ∈ s) :
    restored s files e.1 = some e.2 := by
  induction s generalizing files with
  | nil => cases he
  | cons f s ih =>
    rw [List.map_cons, List.nodup_cons] at hs
    rcases List.mem_cons.mp he with rfl | he
    · exact (restored_of_not_mem hs.1).trans (Function.update_self _ _ _)
    · exact ih hs.2 he

/-- Writing a whole snapshot back leaves its texts. -/
theorem texts_restored (hs : s.map (·.1) = ctx.places) : ctx.texts (restored s files) = s := by
  have hnodup : (s.map (·.1)).Nodup := hs ▸ nodup_places
  calc ctx.texts (restored s files)
      = s.filterMap fun e => (restored s files e.1).map (e.1, ·) := by
        rw [texts, ← hs, List.filterMap_map]
        rfl
    _ = s.filterMap some :=
        List.filterMap_congr fun e he => by rw [restored_of_mem hnodup he, Option.map_some]
    _ = s := List.filterMap_some

end Restored

/-- The workspace undo or redo leaves before it is inspected: the entry it popped is written
back, and the texts it found are on the other stack. -/
def moved (ctx : Ctx) (w : World) (undo : Bool) (snap : Snapshot) (h : History) : World :=
  { w with
    files := restored snap w.files
    history := h.push (ctx.texts w.files) undo }

theorem run_historyResponse_some {w : World} (hw : w.Reliable) {undo : Bool} {snap : Snapshot}
    {h : History} (hpop : w.history.pop undo = some (snap, h)) :
    (ctx.historyResponse undo).run World.serve w
      = (internal ctx.buildInspect).run World.serve (ctx.moved w undo snap h) := by
  have hread : (popSnapshot undo : Handler _).run World.serve w
      = (.ok (some snap), { w with history := h }) := by
    simp [popSnapshot, World.serve, hpop]
  have hsnap : ctx.takeSnapshot.run World.serve { w with history := h }
      = (.ok (ctx.texts w.files), { w with history := h }) := run_takeSnapshot hw
  have hpush : (pushSnapshot undo (ctx.texts w.files) : Handler _).run World.serve
      { w with history := h } = (.ok (), { w with history := h.push (ctx.texts w.files) undo }) :=
    rfl
  have hrestore : (ctx.restore snap).run World.serve
      { w with history := h.push (ctx.texts w.files) undo }
        = (.ok (), ctx.moved w undo snap h) :=
    run_restore (w := { w with history := h.push (ctx.texts w.files) undo }) hw snap
  rw [historyResponse, Interaction.run_bind, Stateful.bind_ok hread, Interaction.run_bind,
    Stateful.bind_ok hsnap, Interaction.run_bind, Stateful.bind_ok hpush, Interaction.run_bind,
    Stateful.bind_ok hrestore]

theorem run_historyResponse {w : World} (hw : w.Reliable) {undo : Bool} {snap : Snapshot}
    {h : History} (hpop : w.history.pop undo = some (snap, h)) :
    ((ctx.historyResponse undo).run World.serve w).2.edited
      = (restored snap w.files, h.push (ctx.texts w.files) undo) := by
  rw [run_historyResponse_some hw hpop]
  exact run_of_avoids ctx.avoids_buildInspect

theorem run_historyResponse_none {w : World} {undo : Bool} (hpop : w.history.pop undo = none) :
    ((ctx.historyResponse undo).run World.serve w).2 = w := by
  have hread : (popSnapshot undo : Handler _).run World.serve w = (.ok none, w) := by
    simp [popSnapshot, World.serve, hpop]
  rw [historyResponse, Interaction.run_bind, Stateful.bind_ok hread]
  rfl

/-- The last entry of a stack, and the stack without it. -/
theorem dropLast_append_of_getLast? {s : Snapshot} {stack : List Snapshot}
    (h : stack.getLast? = some s) : stack = stack.dropLast ++ [s] := by
  obtain ⟨rest, rfl⟩ := List.getLast?_eq_some_iff.mp h
  simp

/-- What is popped leaves its stack for the other one. -/
theorem pop_spec {h j : History} {undo : Bool} {snap s : Snapshot}
    (hpop : h.pop undo = some (snap, j)) :
    snap ∈ h.undo ++ h.redo ∧
      (∀ r ∈ (j.push s undo).undo ++ (j.push s undo).redo, r = s ∨ r ∈ h.undo ++ h.redo) ∧
      (j.push s undo).undo.length + (j.push s undo).redo.length
        = h.undo.length + h.redo.length := by
  cases undo with
  | true =>
    obtain ⟨r, hlast, heq⟩ := Option.map_eq_some_iff.mp hpop
    cases heq
    have hstack := dropLast_append_of_getLast? hlast
    generalize h.undo.dropLast = rest at hstack
    simp only [History.push, hstack, List.mem_append, List.mem_singleton, List.length_append,
      List.length_singleton]
    exact ⟨by simp, by grind, by omega⟩
  | false =>
    obtain ⟨r, hlast, heq⟩ := Option.map_eq_some_iff.mp hpop
    cases heq
    have hstack := dropLast_append_of_getLast? hlast
    generalize h.redo.dropLast = rest at hstack
    simp only [History.push, hstack, List.mem_append, List.mem_singleton, List.length_append,
      List.length_singleton]
    exact ⟨by simp, by grind, by omega⟩

theorem sound_historyResponse {w : World} (h : ctx.Sound w) (undo : Bool) :
    ctx.Sound ((ctx.historyResponse undo).run World.serve w).2 := by
  cases hpop : w.history.pop undo with
  | none => rwa [run_historyResponse_none hpop]
  | some e =>
    obtain ⟨snap, j⟩ := e
    obtain ⟨hmem, hentries, hlength⟩ := pop_spec hpop (s := ctx.texts w.files)
    have hreliable := (ctx.historyResponse undo).run_invariant World.serve
      (fun _ _ => World.Reliable.serve) h.steady.reliable
    have hedited : ((ctx.historyResponse undo).run World.serve w).2.edited = _ :=
      run_historyResponse h.steady.reliable hpop
    obtain ⟨hfiles, hhist⟩ := Prod.ext_iff.mp hedited
    simp only [World.edited] at hfiles hhist
    refine
      { steady :=
          ⟨hreliable, fun p hp => hfiles ▸ isSome_restored (h.steady.readable p hp)⟩
        whole := fun s hs => ?_
        bounded := hhist ▸ hlength.trans_le h.bounded
        native := fun hnative => ?_ }
    · rw [hhist] at hs
      rcases hentries s hs with rfl | hs
      · exact map_fst_texts h.steady.readable
      · exact h.whole s hs
    · rw [h.native hnative] at hmem
      cases hmem

theorem timeline_eq {w : World} {files : Place → Option String} {h : History}
    (hedited : w.edited = (files, h)) :
    ctx.timeline w = ⟨h.undo.reverse, ctx.texts files, h.redo.reverse⟩ := by
  obtain ⟨rfl, rfl⟩ := Prod.mk.inj hedited
  rfl

theorem Sound.of_edited {w w' : World} (h : ctx.Sound w) (hedited : w'.edited = w.edited)
    (hreliable : w'.Reliable) : ctx.Sound w' := by
  obtain ⟨hfiles, hhist⟩ := World.edited_eq_iff.mp hedited
  exact ⟨h.steady.of_edited hedited hreliable, hhist ▸ h.whole, hhist ▸ h.bounded,
    hhist ▸ h.native⟩

theorem timeline_undo {w : World} (h : ctx.Sound w) :
    ctx.timeline ((ctx.historyResponse true).run World.serve w).2 = (ctx.timeline w).undo := by
  cases hlast : w.history.undo.getLast? with
  | none =>
    have hnil : w.history.undo = [] := List.getLast?_eq_none_iff.mp hlast
    rw [run_historyResponse_none (by simp [History.pop, hlast])]
    simp [timeline, hnil, Timeline.undo]
  | some snap =>
    have hmem := List.mem_append_left w.history.redo (List.mem_of_getLast? hlast)
    have hpop : w.history.pop true
        = some (snap, { w.history with undo := w.history.undo.dropLast }) := by
      rw [History.pop, hlast]
      rfl
    rw [timeline_eq (run_historyResponse h.steady.reliable hpop)]
    simp only [timeline, History.push, texts_restored (h.whole snap hmem)]
    rw [dropLast_append_of_getLast? hlast]
    simp [Timeline.undo]

theorem timeline_redo {w : World} (h : ctx.Sound w) :
    ctx.timeline ((ctx.historyResponse false).run World.serve w).2 = (ctx.timeline w).redo := by
  cases hlast : w.history.redo.getLast? with
  | none =>
    have hnil : w.history.redo = [] := List.getLast?_eq_none_iff.mp hlast
    rw [run_historyResponse_none (by simp [History.pop, hlast])]
    simp [timeline, hnil, Timeline.redo]
  | some snap =>
    have hmem := List.mem_append_right w.history.undo (List.mem_of_getLast? hlast)
    have hpop : w.history.pop false
        = some (snap, { w.history with redo := w.history.redo.dropLast }) := by
      rw [History.pop, hlast]
      rfl
    rw [timeline_eq (run_historyResponse h.steady.reliable hpop)]
    simp only [timeline, History.push, texts_restored (h.whole snap hmem)]
    rw [dropLast_append_of_getLast? hlast]
    simp [Timeline.redo]

theorem record_undo {h : History} (hlength : h.undo.length ≤ historyCap) (before : Snapshot) :
    (h.record before).undo.reverse = (before :: h.undo.reverse).take historyCap := by
  have hreverse : (h.undo ++ [before]).reverse = before :: h.undo.reverse := by simp
  simp only [History.record]
  split
  next hover =>
    have hfull : (h.undo ++ [before]).reverse.length - 1 = historyCap := by
      simp only [List.length_append, List.length_singleton] at hover
      simp
      omega
    rw [← List.dropLast_reverse, List.dropLast_eq_take, hfull, hreverse]
  next hunder =>
    rw [hreverse, List.take_of_length_le]
    simp only [List.length_append, List.length_singleton] at hunder
    simp
    omega

theorem redo_record (h : History) (before : Snapshot) : (h.record before).redo = [] := rfl

/-- A recorded edit is an edit of the timeline. -/
theorem timeline_record {w w' : World} (h : ctx.Sound w)
    (hhist : w'.history = w.history.record (ctx.texts w.files)) :
    ctx.timeline w' = (ctx.timeline w).edit historyCap (ctx.texts w'.files) := by
  have hlength : w.history.undo.length ≤ historyCap := (Nat.le_add_right _ _).trans h.bounded
  rw [timeline, hhist, record_undo hlength]
  rfl

theorem sound_record {w w' : World} (h : ctx.Sound w) (hsteady : ctx.Steady w')
    (hhist : w'.history = w.history.record (ctx.texts w.files)) (hnative : ctx.native = false) :
    ctx.Sound w' := by
  have hlength : w.history.undo.length ≤ historyCap := (Nat.le_add_right _ _).trans h.bounded
  have hrecord := record_undo hlength (ctx.texts w.files)
  refine
    { steady := hsteady
      whole := fun s hs => ?_
      bounded := ?_
      native := fun htrue => by simp [hnative] at htrue }
  · rw [hhist, redo_record, List.append_nil, ← List.mem_reverse, hrecord] at hs
    rcases List.mem_cons.mp (List.mem_of_mem_take hs) with rfl | hs
    · exact map_fst_texts h.steady.readable
    · exact h.whole s (List.mem_append_left _ (List.mem_reverse.mp hs))
  · rw [hhist, redo_record, ← List.length_reverse, hrecord]
    exact List.length_take_le _ _

end Ctx

namespace Request

variable (ctx : Ctx)

/-- Whether a build makes its operator the root of the model first. -/
def setsRoot (body : String) (w : World) : Bool :=
  match ctx.loadProject.run World.serve w with
  | (.ok project, _) =>
    match ctx.buildTarget body project with
    | some name =>
      match Ctx.selectedNodeName project name with
      | some main => Ctx.setsRoot project main
      | none => false
    | none => false
  | (.error _, _) => false

/-- A request as an operation of the two-stack editor: an edit makes the texts it leaves
the present ones. -/
def op (r : Request) (w : World) : Timeline.Op Snapshot :=
  let saved := .edit (ctx.texts (r.respond ctx w).2.files)
  match r with
  | undo => .undo
  | redo => .redo
  | build body => if setsRoot ctx body w then saved else .rest
  | _ => saved

/-- Undo and redo may be refused; every other request is answered with status 200. -/
def Succeeds (r : Request) (w : World) : Prop :=
  match r with
  | undo => True
  | redo => True
  | _ => ∃ reply, (r.respond ctx w).1 = .ok reply

variable {ctx} {w : World}

/-- A build journals its setting of the root, and nothing else. -/
theorem build_spec (hw : ctx.Steady w) {body : String} {reply : Json} {w' : World}
    (hrun : (ctx.buildModelResponse body).run World.serve w = (.ok reply, w')) :
    (setsRoot ctx body w = true →
        w'.history = w.history.record (ctx.texts w.files) ∧ ctx.Steady w' ∧ ctx.native = false) ∧
      (setsRoot ctx body w = false → w'.edited = w.edited ∧ ctx.Steady w') := by
  rw [Ctx.buildModelResponse, Interaction.run_bind, Stateful.bind_eq_ok] at hrun
  obtain ⟨project, w₁, hload, hrun⟩ := hrun
  have hlooks := Ctx.avoids_internal ctx.avoids_loadProject
  have hedited : w₁.edited = w.edited := by
    simpa [hload] using Ctx.run_of_avoids hlooks (w := w)
  have hw₁ : ctx.Steady w₁ := by simpa [hload] using hw.run_of_avoids hlooks
  obtain ⟨hfiles, hhist⟩ := World.edited_eq_iff.mp hedited
  have hkeeps {x : Handler Json} (hx : x.Avoids Access.Changes)
      (hrun : x.run World.serve w₁ = (.ok reply, w')) : w'.edited = w.edited ∧ ctx.Steady w' := by
    have hedited' : w'.edited = w₁.edited := by simpa [hrun] using Ctx.run_of_avoids hx (w := w₁)
    exact ⟨hedited'.trans hedited, by simpa [hrun] using hw₁.run_of_avoids hx⟩
  rw [internal, Interaction.run_mapError, Prod.mk.injEq, Except.mapError_eq_ok] at hload
  have hproject : ctx.loadProject.run World.serve w = (.ok project, w₁) := Prod.ext hload.1 hload.2
  simp only [setsRoot, hproject]
  cases htarget : ctx.buildTarget body project with
  | none =>
    simp only [htarget] at hrun ⊢
    exact ⟨nofun, fun _ => hkeeps (.pure _) hrun⟩
  | some name =>
    simp only [htarget] at hrun ⊢
    cases hselected : Ctx.selectedNodeName project name with
    | none =>
      simp only [hselected] at hrun ⊢
      exact ⟨nofun, fun _ => hkeeps (.pure _) hrun⟩
    | some main =>
      simp only [hselected] at hrun ⊢
      split at hrun
      next hnative =>
        have hsets : Ctx.setsRoot project main = false := by
          simp only [Bool.and_eq_true] at hnative
          simp [Ctx.setsRoot, Option.isNone_eq_false_iff.mpr hnative.1]
        rw [hsets]
        exact ⟨nofun, fun _ => hkeeps (.pure _) hrun⟩
      next =>
        split at hrun
        next hsets =>
          rw [hsets]
          refine ⟨fun _ => ?_, nofun⟩
          have hedits : ctx.Edits (ctx.setRoot main >>= fun _ =>
              ctx.buildSelected { project with main := some main } main) :=
            .andThen (ctx.edits_setRoot main) fun _ => ctx.avoids_buildSelected _ _
          obtain ⟨hrecord, hsteady⟩ := hedits.journals hw₁ hrun
          refine ⟨hhist ▸ hfiles ▸ hrecord, hsteady, ?_⟩
          by_contra hnative
          rw [Interaction.run_bind, Stateful.bind_eq_ok] at hrun
          obtain ⟨_, _, hroot, -⟩ := hrun
          exact Ctx.setRoot_of_native (by simpa using hnative) hroot
        next hsets =>
          rw [Bool.eq_false_iff.mpr hsets]
          exact ⟨nofun, fun _ => hkeeps (ctx.avoids_buildSelected _ _) hrun⟩

theorem respond_native {r : Request} (hnative : ctx.native = true) (hbuild : r.isBuild = false) :
    ∃ e, r.respond ctx w = (.error e, w) := by
  simp only [respond, route, hnative, hbuild, Bool.not_false, Bool.true_and, if_true]
  exact ⟨_, rfl⟩

theorem respond_authored {r : Request} (h : ctx.native = false ∨ r.isBuild = true) :
    r.respond ctx w = (r.handle ctx).run World.serve w := by
  rcases h with h | h <;> simp [respond, route, h]

theorem IsEdit.isBuild {r : Request} (h : r.IsEdit) : r.isBuild = false := by
  cases r with
  | build body => exact h.elim
  | _ => rfl

/-- An edit that is answered with success is journaled once. -/
theorem step_edit (hw : ctx.Sound w) {r : Request} (hr : r.IsEdit) {reply : Json} {w' : World}
    (hrun : r.respond ctx w = (.ok reply, w')) :
    ctx.timeline w' = (ctx.timeline w).edit historyCap (ctx.texts w'.files) ∧ ctx.Sound w' := by
  cases hnative : ctx.native with
  | true =>
    obtain ⟨e, he⟩ := respond_native (w := w) hnative hr.isBuild
    rw [he] at hrun
    cases hrun
  | false =>
    rw [respond_authored (.inl hnative)] at hrun
    obtain ⟨hhist, hsteady⟩ := hr.edits.journals hw.steady hrun
    exact ⟨Ctx.timeline_record hw hhist, Ctx.sound_record hw hsteady hhist hnative⟩

theorem step_build (hw : ctx.Sound w) {body : String} {reply : Json} {w' : World}
    (hrun : (build body).respond ctx w = (.ok reply, w')) :
    ctx.timeline w' = Timeline.step historyCap
        (if setsRoot ctx body w then .edit (ctx.texts w'.files) else .rest) (ctx.timeline w) ∧
      ctx.Sound w' := by
  rw [respond_authored (.inr rfl)] at hrun
  obtain ⟨hset, hkeep⟩ := build_spec hw.steady hrun
  cases hsets : setsRoot ctx body w with
  | true =>
    obtain ⟨hhist, hsteady, hnative⟩ := hset hsets
    exact ⟨Ctx.timeline_record hw hhist, Ctx.sound_record hw hsteady hhist hnative⟩
  | false =>
    obtain ⟨hedited, hsteady⟩ := hkeep hsets
    exact ⟨Ctx.timeline_eq hedited, hw.of_edited hedited hsteady.reliable⟩

/-- In a native project there is nothing to undo. -/
theorem timeline_native (hw : ctx.Sound w) (hnative : ctx.native = true) :
    (ctx.timeline w).undo = ctx.timeline w ∧ (ctx.timeline w).redo = ctx.timeline w := by
  simp [Ctx.timeline, hw.native hnative, Timeline.undo, Timeline.redo]

theorem op_edit {r : Request} (hr : r.IsEdit) :
    r.op ctx w = .edit (ctx.texts (r.respond ctx w).2.files) ∧
      (r.Succeeds ctx w ↔ ∃ reply, (r.respond ctx w).1 = .ok reply) := by
  cases r with
  | undo => exact hr.elim
  | redo => exact hr.elim
  | build body => exact hr.elim
  | _ => exact ⟨rfl, Iff.rfl⟩

theorem step_undo (hw : ctx.Sound w) :
    ctx.timeline (undo.respond ctx w).2 = (ctx.timeline w).undo ∧
      ctx.Sound (undo.respond ctx w).2 := by
  cases hnative : ctx.native with
  | true =>
    obtain ⟨e, he⟩ := respond_native (r := undo) (w := w) hnative rfl
    rw [he]
    exact ⟨(timeline_native hw hnative).1.symm, hw⟩
  | false =>
    rw [respond_authored (.inl hnative)]
    exact ⟨Ctx.timeline_undo hw, Ctx.sound_historyResponse hw true⟩

theorem step_redo (hw : ctx.Sound w) :
    ctx.timeline (redo.respond ctx w).2 = (ctx.timeline w).redo ∧
      ctx.Sound (redo.respond ctx w).2 := by
  cases hnative : ctx.native with
  | true =>
    obtain ⟨e, he⟩ := respond_native (r := redo) (w := w) hnative rfl
    rw [he]
    exact ⟨(timeline_native hw hnative).2.symm, hw⟩
  | false =>
    rw [respond_authored (.inl hnative)]
    exact ⟨Ctx.timeline_redo hw, Ctx.sound_historyResponse hw false⟩

/-- Every request does to the texts and the journal what it does to the two-stack editor. -/
theorem step_op (hw : ctx.Sound w) {r : Request} (hr : r.Succeeds ctx w) :
    ctx.timeline (r.respond ctx w).2 = Timeline.step historyCap (r.op ctx w) (ctx.timeline w) ∧
      ctx.Sound (r.respond ctx w).2 := by
  by_cases hedit : r.IsEdit
  · have hop : r.op ctx w = _ ∧ (r.Succeeds ctx w ↔ _) := op_edit hedit
    obtain ⟨reply, hreply⟩ := hop.2.mp hr
    rw [hop.1]
    exact step_edit hw hedit (Prod.ext hreply rfl)
  · cases r with
    | undo => exact step_undo hw
    | redo => exact step_redo hw
    | build body =>
      obtain ⟨reply, hreply⟩ := hr
      exact step_build hw (Prod.ext hreply rfl)
    | _ => exact absurd trivial hedit

variable (ctx)

/-- The workspace some requests leave, handled one after another. -/
def run (rs : List Request) (w : World) : World :=
  rs.foldl (fun w r => (r.respond ctx w).2) w

/-- The requests as operations of the two-stack editor. -/
def ops : List Request → World → List (Timeline.Op Snapshot)
  | [], _ => []
  | r :: rs, w => r.op ctx w :: ops rs (r.respond ctx w).2

/-- Every edit is answered with success. -/
def AllSucceed : List Request → World → Prop
  | [], _ => True
  | r :: rs, w => r.Succeeds ctx w ∧ AllSucceed rs (r.respond ctx w).2

variable {ctx}

theorem run_ops (hw : ctx.Sound w) {rs : List Request} (hrs : AllSucceed ctx rs w) :
    ctx.timeline (run ctx rs w) = Timeline.run historyCap (ops ctx rs w) (ctx.timeline w) ∧
      ctx.Sound (run ctx rs w) := by
  induction rs generalizing w with
  | nil => exact ⟨rfl, hw⟩
  | cons r rs ih =>
    obtain ⟨hstep, hsound⟩ := step_op hw hrs.1
    obtain ⟨hrun, hsound'⟩ := ih hsound hrs.2
    refine ⟨?_, hsound'⟩
    rw [ops, Timeline.run, List.foldl_cons, ← hstep]
    exact hrun

theorem run_undo (hw : ctx.Sound w) (k : Nat) :
    ctx.timeline (run ctx (List.replicate k .undo) w) = Timeline.undo^[k] (ctx.timeline w) ∧
      ctx.Sound (run ctx (List.replicate k .undo) w) := by
  induction k generalizing w with
  | zero => exact ⟨rfl, hw⟩
  | succ k ih =>
    obtain ⟨hstep, hsound⟩ := step_undo hw
    rw [Function.iterate_succ_apply, ← hstep]
    exact ih hsound

theorem run_redo (hw : ctx.Sound w) (k : Nat) :
    ctx.timeline (run ctx (List.replicate k .redo) w) = Timeline.redo^[k] (ctx.timeline w) ∧
      ctx.Sound (run ctx (List.replicate k .redo) w) := by
  induction k generalizing w with
  | zero => exact ⟨rfl, hw⟩
  | succ k ih =>
    obtain ⟨hstep, hsound⟩ := step_redo hw
    rw [Function.iterate_succ_apply, ← hstep]
    exact ih hsound

/-- Edits, undo and redo on an opened workspace are those of the two-stack editor that
forgets all but the last `historyCap` states: an edit is journaled once; as many redos as
undos lead back; and undoing the edits still done of up to `historyCap` gives back the
texts they started from. -/
theorem journal_two_stacks (hw : ctx.Opened w) {rs : List Request} (hrs : AllSucceed ctx rs w) :
    let w' := run ctx rs w
    ctx.timeline w' = Timeline.run historyCap (ops ctx rs w) ⟨[], ctx.texts w.files, []⟩ ∧
    (∀ k ≤ w'.history.undo.length,
      ctx.timeline (run ctx (List.replicate k .undo ++ List.replicate k .redo) w')
        = ctx.timeline w') ∧
    ∀ later, AllSucceed ctx later w' → ∀ done undone,
      Timeline.balance (ops ctx later w') (0, 0) = some (done, undone) →
      Timeline.edits (ops ctx later w') ≤ historyCap →
      ctx.texts (run ctx (later ++ List.replicate done .undo) w').files = ctx.texts w'.files := by
  have htimeline : ctx.timeline w = ⟨[], ctx.texts w.files, []⟩ := by
    simp [Ctx.timeline, hw.history]
  obtain ⟨hrun, hsound⟩ := run_ops hw.sound hrs
  refine ⟨htimeline ▸ hrun, fun k hk => ?_, fun later hlater done undone hbalance hedits => ?_⟩
  · obtain ⟨hback, hsound'⟩ := run_undo hsound k
    rw [run, List.foldl_append]
    refine ((run_redo hsound' k).1.trans ?_)
    rw [hback]
    exact Timeline.redo_iterate_undo (by simpa [Ctx.timeline] using hk)
  · obtain ⟨hlaterRun, hsound'⟩ := run_ops hsound hlater
    rw [run, List.foldl_append]
    have hpresent := congrArg Timeline.present (run_undo hsound' done).1
    refine hpresent.trans (Timeline.present_iterate_undo ?_)
    rw [hlaterRun]
    exact Timeline.back_run rfl (Nat.zero_le _) (by omega) hbalance

end Request

/-! A workspace of operators without ports, saved as YAML. -/

namespace Ctx

def exampleNode (name : String) : NodeDef :=
  { name := name, kind := .operator, inputs := [], outputs := [], locals := [], equations := [] }

def exampleNodeText (name : String) : String :=
  "  - name: " ++ name ++ "\n    kind: Operator\n    inputs: []\n    outputs: []\n" ++
    "    locals: []\n    equations: []\n    contract: null\n    diagram:\n      notes: null\n"

/-- The model `m` with operators of these names. -/
def exampleText (names : List String) : String :=
  "format_version: 1\nname: m\npackages:\n- name: user\n  types: []\n  constants: []\n" ++
    (if names.isEmpty then "  nodes: []\n" else "  nodes:\n") ++
    String.join (names.map exampleNodeText) ++
    "  contracts: []\n  imported_operators: []\n  state_machines: []\nmain: null\nincludes: []\n"

def exampleParse (text : String) : Except String Project :=
  match [[], ["A"], ["B"], ["A", "B"], ["B", "A"]].find? fun names => exampleText names = text with
  | some names => .ok { packages := [{ name := "user", nodes := names.map exampleNode }] }
  | none => .error "YAML"

def noDrop : Drop where
  Decoded := Unit
  Resolved := Unit
  decode := fun _ => .error "missing string field `node`"
  resolve := fun _ => .inl (.ok ())
  place := fun _ => .ok

def exampleCtx : Ctx where
  path
    | .model => "m.yaml"
    | .types => "types.json"
  lusPath name := name ++ ".lus"
  typesFile := false
  native := false
  parseJson body :=
    match ["A", "B"].find? fun name => "\x7b\"name\":\"" ++ name ++ "\"\x7d" = body with
    | some name => .ok (.obj [("name", .str name)])
    | none => .error "expected value"
  parse _ := exampleParse
  print _ p := .ok (exampleText (p.allNodes.map (·.name)))
  load model _ := model.bind exampleParse
  included _ _ := []
  inspect _ _ _ _ := .obj [("schema_version", .num "1")]
  isIdentifier s :=
    match s.toList with
    | [] => false
    | c :: cs => (c.isAlpha || c = '_') && cs.all fun c => c.isAlphanum || c = '_'
  toUppercase s := s.toUpper
  trim s := s.trimAscii.toString
  parseType _ := .error "type"
  parseExpr _ := .error "expression"
  parseLustre _ := .error "declaration"
  sliceForRoot p _ := .ok p
  buildSlice _ := ⟨0, 0, ""⟩
  blockCall := noDrop
  operation := noDrop
  typeOp := noDrop
  expression := noDrop

/-- The request that adds an operator. -/
def exampleBody (name : String) : String := "\x7b\"name\":\"" ++ name ++ "\"\x7d"

def exampleWorld : World where
  files
    | .model => some (exampleText [])
    | .types => none
  lustre _ := none
  history := {}
  faults _ := .none

theorem opened_exampleWorld : exampleCtx.Opened exampleWorld :=
  ⟨⟨rfl, by decide⟩, rfl⟩

end Ctx

open Ctx in
/-- Adding an operator and undoing it restores the empty model. -/
theorem Request.undo_addNode_restores :
    exampleCtx.texts
        (run exampleCtx [.addNode (exampleBody "A"), .undo] exampleWorld).files
      = exampleCtx.texts exampleWorld.files := by
  have hsucceeds : AllSucceed exampleCtx [.addNode (exampleBody "A")] exampleWorld := by
    refine ⟨?_, trivial⟩
    have hok : ((addNode (exampleBody "A")).respond exampleCtx exampleWorld).1.toOption.isSome := by
      decide +kernel
    cases hreply : ((addNode (exampleBody "A")).respond exampleCtx exampleWorld).1 with
    | ok reply => exact ⟨reply, hreply⟩
    | error e => simp [hreply, Except.toOption] at hok
  have hnone : AllSucceed exampleCtx [] exampleWorld := trivial
  exact (journal_two_stacks opened_exampleWorld hnone).2.2
    [.addNode (exampleBody "A")] hsucceeds 1 0 rfl (by decide)

end OpenLustre.Studio
