import Mathlib.Data.List.Sort
import OpenLustre.Lib.Dependency

/-! Kahn's algorithm: nodes are placed as their last dependency is, the least of those that
are ready first. -/

namespace Dependency

section Kahn

variable (deps : Nat → List Nat) (size : Nat)

/-- The nodes that are ready, the number of dependencies each node still waits for, and the
nodes placed. -/
structure Progress where
  ready : List Nat
  indegrees : Nat → Nat
  order : List Nat

def consumers (j : Nat) : List Nat := (List.range size).filter fun i => j ∈ deps i

/-- A dependency of `consumer` has been placed. -/
def Progress.release (s : Progress) (consumer : Nat) : Progress :=
  let degree := s.indegrees consumer - 1
  { s with
    indegrees := Function.update s.indegrees consumer degree
    ready := if degree = 0 then s.ready.orderedInsert (· ≤ ·) consumer else s.ready }

/-- Place the ready nodes, the least first, until there is none. -/
def drain : Nat → Progress → Progress
  | 0, s => s
  | fuel + 1, s =>
    match s.ready with
    | [] => s
    | i :: ready =>
      drain fuel ((consumers deps size i).foldl Progress.release
        { s with ready := ready, order := s.order ++ [i] })

def Progress.initial : Progress where
  ready := (List.range size).filter fun i => (deps i).length = 0
  indegrees i := (deps i).length
  order := []

def kahn : Progress := drain deps size (size + 1) (.initial deps size)

/-- What every step preserves: degrees count the dependencies that are not placed, and a node
is ready when it waits for none. -/
structure Progress.Valid (s : Progress) : Prop where
  placed : Placed deps size s.order
  degrees : ∀ i < size, s.indegrees i = (deps i).countP (· ∉ s.order)
  mem_ready : ∀ i, i ∈ s.ready ↔ i < size ∧ i ∉ s.order ∧ s.indegrees i = 0
  nodup : s.ready.Nodup

variable {deps size}

@[simp] theorem mem_consumers {i j : Nat} : i ∈ consumers deps size j ↔ i < size ∧ j ∈ deps i := by
  simp [consumers]

theorem nodup_consumers (j : Nat) : (consumers deps size j).Nodup := List.nodup_range.filter _

theorem foldl_release {cs : List Nat} (hcs : cs.Nodup) {s : Progress} (hready : s.ready.Nodup)
    (hnew : ∀ c ∈ cs, c ∉ s.ready) :
    (cs.foldl Progress.release s).order = s.order ∧
    (cs.foldl Progress.release s).ready.Nodup ∧
    (∀ i, (cs.foldl Progress.release s).indegrees i =
      if i ∈ cs then s.indegrees i - 1 else s.indegrees i) ∧
    ∀ i, i ∈ (cs.foldl Progress.release s).ready ↔
      i ∈ s.ready ∨ i ∈ cs ∧ s.indegrees i - 1 = 0 := by
  induction cs generalizing s with
  | nil => simp [hready]
  | cons c cs ih =>
    obtain ⟨hc, hcs⟩ := List.nodup_cons.mp hcs
    obtain ⟨hcnew, hnew⟩ := List.forall_mem_cons.mp hnew
    have hmem (i : Nat) : i ∈ (s.release c).ready ↔ i ∈ s.ready ∨ i = c ∧ s.indegrees c - 1 = 0 := by
      simp only [Progress.release]
      split
      case isTrue h =>
        rw [List.mem_orderedInsert]
        simp [h, or_comm]
      case isFalse h => simp [h]
    have hnodup : (s.release c).ready.Nodup := by
      simp only [Progress.release]
      split
      · exact (List.perm_orderedInsert _ _ _).nodup_iff.mpr (List.nodup_cons.mpr ⟨hcnew, hready⟩)
      · exact hready
    have hdegree (i : Nat) : (s.release c).indegrees i =
        if i = c then s.indegrees c - 1 else s.indegrees i := by
      simp [Progress.release, Function.update_apply]
    obtain ⟨horder, hready', hdegrees, hmems⟩ := ih hcs hnodup fun d hd => by
      rw [hmem]
      rintro (h | ⟨rfl, -⟩)
      · exact hnew d hd h
      · exact hc hd
    rw [List.foldl_cons]
    refine ⟨horder, hready', fun i => ?_, fun i => ?_⟩
    · rw [hdegrees, hdegree]
      by_cases hi : i = c
      · subst hi
        simp [hc]
      · simp [hi]
    · rw [hmems, hmem, hdegree]
      by_cases hi : i = c
      · subst hi
        simp [hc]
      · simp [hi]

theorem countP_of_snoc {js order : List Nat} {i : Nat} (hjs : js.Nodup) (hi : i ∉ order) :
    js.countP (· ∉ order ++ [i]) = if i ∈ js then js.countP (· ∉ order) - 1 else
      js.countP (· ∉ order) := by
  induction js with
  | nil => rfl
  | cons j js ih =>
    obtain ⟨hj, hjs⟩ := List.nodup_cons.mp hjs
    rw [List.countP_cons, List.countP_cons, ih hjs]
    by_cases hij : i = j
    · subst hij
      simp [hj, hi]
    · have hmem : i ∈ j :: js ↔ i ∈ js := by simp [hij]
      have hout : j ∉ order ++ [i] ↔ j ∉ order := by simp [Ne.symm hij]
      simp only [hmem, hout]
      split
      case isTrue h =>
        have : 0 < js.countP (· ∉ order) := List.countP_pos_iff.mpr ⟨i, h, by simpa using hi⟩
        omega
      case isFalse => rfl

theorem Progress.Valid.initial : (Progress.initial deps size).Valid deps size where
  placed := .nil
  degrees := by simp [Progress.initial]
  mem_ready := by simp [Progress.initial]
  nodup := List.nodup_range.filter _

theorem Progress.Valid.step (hnodup : ∀ i, (deps i).Nodup) {s : Progress} (h : s.Valid deps size)
    {i : Nat} {ready : List Nat} (hready : s.ready = i :: ready) :
    ((consumers deps size i).foldl Progress.release
      { s with ready := ready, order := s.order ++ [i] }).Valid deps size := by
  obtain ⟨hi, hinew, hzero⟩ := (h.mem_ready i).mp (hready ▸ List.mem_cons_self)
  have hrest := List.nodup_cons.mp (hready ▸ h.nodup)
  have hdeps : ∀ j ∈ deps i, j ∈ s.order := by
    have hcount := (h.degrees i hi).symm.trans hzero
    simpa using List.countP_eq_zero.mp hcount
  -- a node that waits for `i` is not ready, and not placed
  have hwaits {c : Nat} (hc : c < size) (hic : i ∈ deps c) : 0 < s.indegrees c := by
    rw [h.degrees c hc]
    exact List.countP_pos_iff.mpr ⟨i, hic, by simpa using hinew⟩
  have hwaits' {c : Nat} (hic : i ∈ deps c) : c ∉ s.order := fun hc => hinew (by
    obtain ⟨before, after, horder⟩ := List.append_of_mem hc
    exact horder ▸ List.mem_append_left _ (h.placed.deps_before before c after horder i hic))
  obtain ⟨horder, hready', hdegrees, hmem⟩ := foldl_release (nodup_consumers i)
    (s := { s with ready := ready, order := s.order ++ [i] }) hrest.2 fun c hc hcr => by
      obtain ⟨hc, hic⟩ := mem_consumers.mp hc
      have := ((h.mem_ready c).mp (hready ▸ List.mem_cons_of_mem _ hcr)).2.2
      exact absurd this (hwaits hc hic).ne'
  have hdegree {c : Nat} (hc : c < size) : (if c ∈ consumers deps size i then s.indegrees c - 1
      else s.indegrees c) = (deps c).countP (· ∉ s.order ++ [i]) := by
    rw [countP_of_snoc (hnodup c) hinew, h.degrees c hc]
    simp [hc]
  refine ⟨?_, ?_, fun c => ?_, hready'⟩
  · exact horder ▸ h.placed.snoc hi hinew hdeps
  · intro c hc
    rw [hdegrees, horder]
    exact hdegree hc
  · rw [hmem, horder, hdegrees]
    have hold := h.mem_ready c
    rw [hready, List.mem_cons] at hold
    by_cases hic : i ∈ deps c
    · have hci : c ≠ i := fun hci => hinew (hdeps i (hci ▸ hic))
      by_cases hc : c < size
      · have := hwaits hc hic
        have hnot : c ∉ ready := fun hcr => by
          have := (hold.mp (.inr hcr)).2.2
          omega
        simp [hc, hic, hnot, hwaits' hic, hci]
      · have hnot : c ∉ ready := fun hcr => hc (hold.mp (.inr hcr)).1
        simp [hc, hnot]
    · by_cases hci : c = i
      · subst hci
        simp [hic, hrest.1]
      · simpa [hic, hci] using hold

theorem Progress.Valid.of_drain (hnodup : ∀ i, (deps i).Nodup) {fuel : Nat} {s : Progress}
    (h : s.Valid deps size) (hfuel : size < s.order.length + fuel) :
    (drain deps size fuel s).Valid deps size ∧ (drain deps size fuel s).ready = [] := by
  induction fuel generalizing s with
  | zero => exact absurd h.placed.length_le (by omega)
  | succ fuel ih =>
    rw [drain]
    split
    case h_1 hready => exact ⟨h, hready⟩
    case h_2 i ready hready =>
      have hnext := h.step hnodup hready
      refine ih hnext ?_
      have hlen : ∀ (cs : List Nat) (t : Progress),
          (cs.foldl Progress.release t).order = t.order := by
        intro cs
        induction cs with
        | nil => exact fun _ => rfl
        | cons c cs ih => exact fun t => ih _
      rw [hlen, List.length_append, List.length_singleton]
      omega

/-- The algorithm ends with the nodes placed in order, and places every node exactly when
none depends on itself. -/
theorem kahn_spec (hnodup : ∀ i, (deps i).Nodup) (hdom : ∀ i, ∀ j ∈ deps i, i < size ∧ j < size) :
    Placed deps size (kahn deps size).order ∧
    ((kahn deps size).order.length = size ↔ ¬ Cyclic fun i j => j ∈ deps i) := by
  have hinitial : (Progress.initial deps size).Valid deps size := .initial
  have hfuel : size < (Progress.initial deps size).order.length + (size + 1) := by
    simp [Progress.initial]
  obtain ⟨h, hready⟩ := hinitial.of_drain hnodup hfuel
  refine ⟨h.placed, fun hlen => h.placed.acyclic hlen.ge hdom, fun acyclic => ?_⟩
  by_contra hne
  refine acyclic (cyclic_of_stuck (fun i j hj => (hdom i j hj).2)
    (lt_of_le_of_ne h.placed.length_le hne) fun i hi hnew => ?_)
  by_contra hnone
  have hzero : (kahn deps size).indegrees i = 0 := by
    rw [kahn, h.degrees i hi]
    refine List.countP_eq_zero.mpr fun j hj => ?_
    simpa using fun hmissing => hnone ⟨j, hj, hmissing⟩
  have := (h.mem_ready i).mpr ⟨hi, hnew, hzero⟩
  simp [hready] at this

end Kahn

end Dependency
