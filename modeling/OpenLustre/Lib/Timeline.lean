import Mathlib.Data.List.Basic
import Mathlib.Logic.Function.Iterate

/-! The two-stack editor: the states before and after the present one, the nearest first. -/

structure Timeline (α : Type) where
  past : List α
  present : α
  future : List α

namespace Timeline

variable {α : Type}

/-- A new present; what was undone is forgotten, and so is the past beyond `cap` states. -/
def edit (cap : Nat) (a : α) (t : Timeline α) : Timeline α :=
  ⟨(t.present :: t.past).take cap, a, []⟩

def undo : Timeline α → Timeline α
  | ⟨[], a, future⟩ => ⟨[], a, future⟩
  | ⟨b :: past, a, future⟩ => ⟨past, b, a :: future⟩

def redo : Timeline α → Timeline α
  | ⟨past, a, []⟩ => ⟨past, a, []⟩
  | ⟨past, a, b :: future⟩ => ⟨a :: past, b, future⟩

theorem redo_undo {t : Timeline α} (h : t.past ≠ []) : redo (undo t) = t := by
  match t with
  | ⟨[], _, _⟩ => exact absurd rfl h
  | ⟨_ :: _, _, _⟩ => rfl

theorem undo_redo {t : Timeline α} (h : t.future ≠ []) : undo (redo t) = t := by
  match t with
  | ⟨_, _, []⟩ => exact absurd rfl h
  | ⟨_, _, _ :: _⟩ => rfl

/-- Undo after an edit gives back the state the edit was made in. -/
theorem undo_edit_present {cap : Nat} (hcap : 0 < cap) (a : α) (t : Timeline α) :
    (undo (edit cap a t)).present = t.present := by
  cases cap with
  | zero => exact absurd hcap (Nat.lt_irrefl 0)
  | succ cap => rfl

@[simp] theorem length_past_undo (t : Timeline α) : (undo t).past.length = t.past.length - 1 := by
  match t with
  | ⟨[], _, _⟩ => rfl
  | ⟨_ :: _, _, _⟩ => rfl

/-- As many steps forward as back lead to where one was. -/
theorem redo_iterate_undo {t : Timeline α} {k : Nat} (h : k ≤ t.past.length) :
    redo^[k] (undo^[k] t) = t := by
  induction k generalizing t with
  | zero => rfl
  | succ k ih =>
    have hpast : t.past ≠ [] := fun hnil => by simp [hnil] at h
    rw [Function.iterate_succ_apply', Function.iterate_succ_apply,
      ih (by rw [length_past_undo]; exact Nat.le_sub_of_add_le h), redo_undo hpast]

inductive Op (α : Type)
  | edit (a : α)
  | undo
  | redo
  | rest

def step (cap : Nat) : Op α → Timeline α → Timeline α
  | .edit a => edit cap a
  | .undo => undo
  | .redo => redo
  | .rest => id

def run (cap : Nat) (ops : List (Op α)) (t : Timeline α) : Timeline α :=
  ops.foldl (fun t op => step cap op t) t

/-- The number of edits among some operations. -/
def edits : List (Op α) → Nat
  | [] => 0
  | .edit _ :: ops => edits ops + 1
  | _ :: ops => edits ops

/-- How many of the edits among the operations are done and how many are undone after
them, the counts so far given; none once they undo or redo an edit made before them. -/
def balance : List (Op α) → Nat × Nat → Option (Nat × Nat)
  | [], counts => some counts
  | .edit _ :: ops, (done, _) => balance ops (done + 1, 0)
  | .undo :: ops, (done + 1, undone) => balance ops (done, undone + 1)
  | .undo :: _, (0, _) => none
  | .redo :: ops, (done, undone + 1) => balance ops (done + 1, undone)
  | .redo :: _, (_, 0) => none
  | .rest :: ops, counts => balance ops counts

/-- The state before the last `n` edits that are done, the present one for none. -/
def back (t : Timeline α) (n : Nat) : Option α := (t.present :: t.past)[n]?

theorem present_iterate_undo {t : Timeline α} {n : Nat} {a : α} (h : t.back n = some a) :
    (undo^[n] t).present = a := by
  induction n generalizing t with
  | zero => exact Option.some.inj h
  | succ n ih =>
    rw [Function.iterate_succ_apply]
    apply ih
    match t with
    | ⟨[], _, _⟩ => cases h
    | ⟨_ :: _, _, _⟩ => exact h

theorem back_edit {cap n : Nat} {a b : α} {t : Timeline α} (h : t.back n = some b)
    (hn : n < cap) : (edit cap a t).back (n + 1) = some b := by
  rw [back, edit, List.getElem?_cons_succ, List.getElem?_take_of_lt hn]
  exact h

theorem back_undo {n : Nat} {b : α} {t : Timeline α} (h : t.back (n + 1) = some b) :
    (undo t).back n = some b ∧ (undo t).future.length = t.future.length + 1 := by
  match t with
  | ⟨[], _, _⟩ => cases h
  | ⟨_ :: _, _, _⟩ => exact ⟨h, rfl⟩

theorem back_redo {n : Nat} {b : α} {t : Timeline α} (h : t.back n = some b)
    (hfuture : 0 < t.future.length) :
    (redo t).back (n + 1) = some b ∧ (redo t).future.length = t.future.length - 1 := by
  match t with
  | ⟨_, _, []⟩ => exact absurd hfuture (Nat.lt_irrefl 0)
  | ⟨_, _, _ :: _⟩ => exact ⟨h, rfl⟩

/-- As long as no more than `cap` edits are made and none from before is undone, the state
all this started in is not forgotten. -/
theorem back_run {cap : Nat} {ops : List (Op α)} {t : Timeline α} {a : α}
    {done undone done' undone' : Nat} (h : t.back done = some a)
    (hfuture : undone ≤ t.future.length) (hcap : done + undone + edits ops ≤ cap)
    (hbalance : balance ops (done, undone) = some (done', undone')) :
    (run cap ops t).back done' = some a := by
  induction ops generalizing t done undone with
  | nil =>
    cases hbalance
    exact h
  | cons op ops ih =>
    cases op with
    | edit b =>
      simp only [edits] at hcap
      exact ih (back_edit h (by omega)) (Nat.zero_le _) (by omega) hbalance
    | undo =>
      cases done with
      | zero => cases hbalance
      | succ done =>
        obtain ⟨hback, hlength⟩ := back_undo h
        simp only [edits] at hcap
        exact ih (t := undo t) hback (by omega) (by omega) hbalance
    | redo =>
      cases undone with
      | zero => cases hbalance
      | succ undone =>
        obtain ⟨hback, hlength⟩ := back_redo h (Nat.lt_of_lt_of_le (Nat.succ_pos _) hfuture)
        simp only [edits] at hcap
        exact ih (t := redo t) hback (by omega) (by omega) hbalance
    | rest => exact ih h hfuture hcap hbalance

theorem edits_map_edit (as : List α) : edits (as.map .edit) = as.length := by
  induction as with
  | nil => rfl
  | cons a as ih => exact congrArg (· + 1) ih

theorem balance_map_edit (as : List α) (done : Nat) :
    balance (as.map .edit) (done, 0) = some (done + as.length, 0) := by
  induction as generalizing done with
  | nil => rfl
  | cons a as ih =>
    rw [List.map_cons, balance, ih, List.length_cons, Nat.add_assoc, Nat.add_comm 1]

end Timeline
