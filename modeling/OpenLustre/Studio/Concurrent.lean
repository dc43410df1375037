import Mathlib.Data.List.FinRange
import OpenLustre.Lib.Interleaving
import OpenLustre.Studio.Journal

/-! Requests on threads of their own, an access at a time, on files that stay readable and
writable. -/

namespace OpenLustre.Studio

open Interaction

/-- A workspace on which no access fails. -/
abbrev ReliableWorld := { w : World // w.Reliable }

namespace ReliableWorld

def serve (a : Access) (w : ReliableWorld) : a.Result × ReliableWorld :=
  ((World.serve a w.1).1, ⟨(World.serve a w.1).2, w.2.serve⟩)

def edited (w : ReliableWorld) : (Place → Option String) × History := w.1.edited

theorem run_serve {ε α : Type} (x : Program ε α) (w : ReliableWorld) :
    (x.run serve w).1 = (x.run World.serve w.1).1 ∧
      (x.run serve w).2.1 = (x.run World.serve w.1).2 := by
  induction x generalizing w with
  | done a => exact ⟨rfl, rfl⟩
  | fail e => exact ⟨rfl, rfl⟩
  | act a next ih => exact ih _ (serve a w).2

theorem edited_serve {a : Access} {w : ReliableWorld} (h : ¬ a.Changes) :
    (serve a w).2.edited = w.edited := World.edited_serve h

/-- What an access does depends only on the editable files and the journal. -/
theorem serve_congr (a : Access) {w v : ReliableWorld} (h : w.edited = v.edited) :
    (serve a w).1 = (serve a v).1 ∧ (serve a w).2.edited = (serve a v).2.edited := by
  obtain ⟨w, hw⟩ := w
  obtain ⟨v, hv⟩ := v
  obtain ⟨hfiles, hhist⟩ : w.files = v.files ∧ w.history = v.history := Prod.ext_iff.mp h
  simp only [serve, edited]
  cases a with
  | read p =>
    have hwfault : w.faults 0 = .none := congrFun hw 0
    have hvfault : v.faults 0 = .none := congrFun hv 0
    exact ⟨by simp [World.serve, hwfault, hvfault, hfiles], h⟩
  | write p text =>
    simp only [World.serve, hw.writing, hv.writing]
    exact ⟨trivial, by simp [World.edited, World.write, hfiles, hhist]⟩
  | writeLus name text =>
    simp only [World.serve, hw.writing, hv.writing]
    exact ⟨trivial, h⟩
  | pop undo =>
    simp only [World.serve, hhist]
    cases v.history.pop undo with
    | none => exact ⟨rfl, h⟩
    | some e => exact ⟨rfl, by simp [World.edited, hfiles]⟩
  | push undo s => exact ⟨rfl, by simp [World.serve, World.edited, hfiles, hhist]⟩
  | record before => exact ⟨rfl, by simp [World.serve, World.edited, hfiles, hhist]⟩
  | depths => exact ⟨by simp [World.serve, hhist], h⟩

end ReliableWorld

namespace Request

variable (ctx : Ctx)

/-- The requests at work, each in its thread, after some turns. -/
def concurrently (rs : List Request) (w : ReliableWorld) (turns : List (Fin rs.length)) :
    Turns Access Access.Result Refusal Json (Fin rs.length) ReliableWorld :=
  .run ReliableWorld.serve Access.Records turns (.start (fun i => (rs.get i).route ctx) w)

/-- No request makes an access while another is between its first access and the push of
its journal entry. -/
def OneAtATime (rs : List Request) (w : ReliableWorld) (turns : List (Fin rs.length)) : Prop :=
  Turns.Exclusive ReliableWorld.serve Access.Records turns
    (.start (fun i => (rs.get i).route ctx) w)

def AllAnswered (rs : List Request) (w : ReliableWorld) (turns : List (Fin rs.length)) : Prop :=
  ∀ i, ∃ reply, (concurrently ctx rs w turns).rest i = .done reply

variable {ctx}

theorem closes_route {r : Request} (hr : r.IsEdit) :
    (r.route ctx).Closes Access.Records Access.Changes := by
  unfold route
  split
  · trivial
  · exact hr.edits.closes

/-- What an edit leaves where it has journaled. -/
theorem step_section {r : Request} (hr : r.IsEdit) {w w₁ : ReliableWorld} (hw : ctx.Sound w.1)
    (hrun : ((r.route ctx).upTo Access.Records).run ReliableWorld.serve w = (.ok (), w₁)) :
    ctx.timeline w₁.1
        = (ctx.timeline w.1).edit historyCap (ctx.texts w₁.1.files) ∧ ctx.Sound w₁.1 := by
  have hnative : ctx.native = false := by
    by_contra hnative
    simp only [route, hr.isBuild, Bool.eq_true_of_not_eq_false hnative, Bool.not_false,
      Bool.and_self, if_true] at hrun
    cases hrun
  have hroute : r.route ctx = r.handle ctx := by simp [route, hnative]
  obtain ⟨hresult, hstate⟩ := ReliableWorld.run_serve ((r.route ctx).upTo Access.Records) w
  rw [hrun, hroute] at hresult hstate
  obtain ⟨hhist, hsteady⟩ := hr.edits.records w.1 hw.steady w₁.1
    (Prod.ext hresult.symm hstate.symm)
  exact ⟨Ctx.timeline_record hw hhist, Ctx.sound_record hw hsteady hhist hnative⟩

/-- An edit that journals leaves the same wherever the files and the journal are the same. -/
theorem edited_respond {r : Request} (hr : r.IsEdit) {w w₁ v : ReliableWorld}
    (hv : v.edited = w.edited)
    (hrun : ((r.route ctx).upTo Access.Records).run ReliableWorld.serve w = (.ok (), w₁)) :
    (r.respond ctx v.1).2.edited = w₁.edited := by
  obtain ⟨hresult, hstate⟩ := run_congr ReliableWorld.serve
    (fun a _ _ => ReliableWorld.serve_congr a) ((r.route ctx).upTo Access.Records) hv
  rw [hrun] at hresult hstate
  have hrunv : ((r.route ctx).upTo Access.Records).run ReliableWorld.serve v
      = (.ok (), (((r.route ctx).upTo Access.Records).run ReliableWorld.serve v).2) :=
    Prod.ext hresult rfl
  have hclosed := (closes_route hr).view_run (fun _ _ => ReliableWorld.edited_serve) hrunv
  rw [respond, ← (ReliableWorld.run_serve (r.route ctx) v).2]
  exact hclosed.trans hstate

/-- Edits one after another, each up to where it has journaled, are edits of the timeline,
and leave what the requests leave. -/
theorem run_sections {rs : List Request} (hedits : ∀ r ∈ rs, r.IsEdit)
    {order : List (Fin rs.length)} {w v base : ReliableWorld} (hw : ctx.Sound w.1)
    (hv : v.edited = w.edited)
    (hsections : Turns.sections ReliableWorld.serve Access.Records
      (fun i => (rs.get i).route ctx) order w = some base) :
    (run ctx (order.map rs.get) v.1).edited = base.edited ∧ ctx.Sound base.1 ∧
      ∃ saved : List Snapshot, saved.length = order.length ∧
        ctx.timeline base.1 = Timeline.run historyCap (saved.map .edit) (ctx.timeline w.1) := by
  induction order generalizing w v with
  | nil =>
    cases hsections
    exact ⟨hv, hw, [], rfl, rfl⟩
  | cons i order ih =>
    rw [Turns.sections] at hsections
    split at hsections
    next w₁ hrun =>
      have hr : (rs.get i).IsEdit := hedits _ (List.get_mem rs i)
      obtain ⟨htimeline, hsound⟩ := step_section hr hw hrun
      have hv₁ := edited_respond hr hv hrun
      have hreliable : ((rs.get i).respond ctx v.1).2.Reliable :=
        ((rs.get i).route ctx).run_invariant World.serve (fun _ _ => World.Reliable.serve) v.2
      obtain ⟨hrest, hbase, saved, hlength, hsaved⟩ :=
        ih (v := ⟨_, hreliable⟩) hsound hv₁ hsections
      refine ⟨hrest, hbase, ctx.texts w₁.1.files :: saved, congrArg (· + 1) hlength, ?_⟩
      rw [hsaved, htimeline]
      rfl
    next => cases hsections

/-- Edits whose sections do not overlap, and that are all answered with success, leave what
they leave one after another in some order; and as many undos give back the texts before. -/
theorem edits_serialize {rs : List Request} (hedits : ∀ r ∈ rs, r.IsEdit)
    (hlength : rs.length ≤ historyCap) {w : ReliableWorld} (hw : ctx.Sound w.1)
    {turns : List (Fin rs.length)} (hturns : OneAtATime ctx rs w turns)
    (hanswered : AllAnswered ctx rs w turns) :
    let after := (concurrently ctx rs w turns).state.1
    (∃ order : List (Fin rs.length), order.Perm (List.finRange rs.length) ∧
      after.files = (run ctx (order.map rs.get) w.1).files) ∧
    ctx.texts (run ctx (List.replicate rs.length .undo) after).files = ctx.texts w.1.files := by
  obtain ⟨order, base, hnodup, hmem, hsections, hstate⟩ :=
    Turns.serial_of_exclusive (fun a _ _ => ReliableWorld.serve_congr a)
      (fun _ _ => ReliableWorld.edited_serve)
      (fun i => closes_route (hedits _ (List.get_mem rs i))) hturns hanswered
  obtain ⟨hrun, hbase, saved, hsaved, htimeline⟩ := run_sections hedits hw rfl hsections
  have hperm : order.Perm (List.finRange rs.length) :=
    (List.perm_ext_iff_of_nodup hnodup (List.nodup_finRange _)).mpr fun i => by simp [hmem i]
  refine ⟨⟨order, hperm, (Prod.ext_iff.mp (hstate.trans hrun.symm)).1⟩, ?_⟩
  have hafter : ctx.Sound (concurrently ctx rs w turns).state.1 :=
    hbase.of_edited hstate (concurrently ctx rs w turns).state.2
  have hundone := congrArg Timeline.present (run_undo hafter rs.length).1
  have hcount : saved.length = rs.length := by
    rw [hsaved, hperm.length_eq, List.length_finRange]
  refine hundone.trans (Timeline.present_iterate_undo ?_)
  have htexts : ctx.timeline (concurrently ctx rs w turns).state.1 = ctx.timeline base.1 :=
    Ctx.timeline_eq hstate
  rw [htexts, htimeline]
  have hback : (ctx.timeline w.1).back 0 = some (ctx.texts w.1.files) := rfl
  have hbalance := Timeline.balance_map_edit saved 0
  rw [hcount, Nat.zero_add] at hbalance
  refine Timeline.back_run hback (Nat.zero_le _) ?_ hbalance
  rw [Timeline.edits_map_edit, hcount]
  omega

instance (rs : List Request) (w : ReliableWorld) (turns : List (Fin rs.length)) :
    Decidable (OneAtATime ctx rs w turns) :=
  Turns.decidableExclusive ReliableWorld.serve Access.Records turns _

open Ctx in
/-- Two operators are added, one behind the other, and both additions undone. -/
theorem undo_two_addNodes :
    exampleCtx.texts (run exampleCtx [.undo, .undo]
        (concurrently exampleCtx [.addNode (exampleBody "A"), .addNode (exampleBody "B")]
          ⟨exampleWorld, rfl⟩ (List.replicate 12 0 ++ List.replicate 12 1)).state.1).files
      = exampleCtx.texts exampleWorld.files := by
  have hfinished : OneAtATime exampleCtx [.addNode (exampleBody "A"), .addNode (exampleBody "B")]
      ⟨exampleWorld, rfl⟩ (List.replicate 12 0 ++ List.replicate 12 1) ∧
      ∀ i, ((concurrently exampleCtx [.addNode (exampleBody "A"), .addNode (exampleBody "B")]
        ⟨exampleWorld, rfl⟩ (List.replicate 12 0 ++ List.replicate 12 1)).rest i).isDone := by
    decide +kernel
  obtain ⟨halone, hanswered⟩ := hfinished
  exact (edits_serialize (by simp [IsEdit]) (by decide) opened_exampleWorld.sound halone
    fun i => exists_done (hanswered i)).2

open Ctx in
/-- Two operators are added at once, both from the empty model: both requests are answered
with success, and only one of the operators is there. -/
theorem addNodes_lost_update :
    let rs : List Request := [.addNode (exampleBody "A"), .addNode (exampleBody "B")]
    let turns : List (Fin rs.length) :=
      List.replicate 4 0 ++ List.replicate 4 1 ++ List.replicate 8 0 ++ List.replicate 8 1
    AllAnswered exampleCtx rs ⟨exampleWorld, rfl⟩ turns ∧
      ∀ order : List (Fin rs.length), order.Perm (List.finRange rs.length) →
        (concurrently exampleCtx rs ⟨exampleWorld, rfl⟩ turns).state.1.files .model
          ≠ (run exampleCtx (order.map rs.get) exampleWorld).files .model := by
  intro rs turns
  have hfinished : (∀ i, ((concurrently exampleCtx rs ⟨exampleWorld, rfl⟩ turns).rest i).isDone) ∧
      ∀ i j : Fin rs.length, i ≠ j →
        (concurrently exampleCtx rs ⟨exampleWorld, rfl⟩ turns).state.1.files .model
          ≠ (run exampleCtx ([i, j].map rs.get) exampleWorld).files .model := by
    decide +kernel
  obtain ⟨hanswered, horders⟩ := hfinished
  refine ⟨fun i => exists_done (hanswered i), fun order horder => ?_⟩
  have hnodup : order.Nodup := horder.nodup_iff.mpr (List.nodup_finRange _)
  match order, horder.length_eq, hnodup with
  | [i, j], _, hnodup => exact horders i j (by simpa using hnodup)

end Request

end OpenLustre.Studio
