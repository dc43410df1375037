import Mathlib.Algebra.BigOperators.Group.List.Basic
import Mathlib.Algebra.GroupWithZero.Nat
import Mathlib.Algebra.Order.BigOperators.Group.List
import Mathlib.Algebra.Order.Group.Nat

/-! What is reached from a list of items by repeatedly taking the first one out and queueing
the items it leads to. -/

namespace Worklist

variable {α : Type} [DecidableEq α] (next : α → List α)

/-- Add the items reached from the queue to those already visited, the latest first; at most
`fuel` items are taken out. -/
def gather : Nat → List α → List α → List α
  | 0, visited, _ | _ + 1, visited, [] => visited
  | fuel + 1, visited, x :: queue =>
    if x ∈ visited then gather fuel visited queue
    else gather fuel (x :: visited) (queue ++ next x)

/-- As many items as can come into the queue, when those that lead to others are in
`sources`. -/
def gatherFuel (sources queue : List α) : Nat :=
  queue.length + ((queue ++ sources).map fun x => (next x).length).sum

/-- As many items as those of `items` not visited yet can bring into the queue. -/
def pending (items visited : List α) : Nat :=
  ((items.filter (· ∉ visited)).map fun x => (next x).length).sum

/-- Nothing is missed: what a visited item leads to is visited or waits. -/
structure Tracked (items visited queue : List α) : Prop where
  queued : ∀ x ∈ queue, x ∈ items
  leads : ∀ x ∈ items, ∀ y ∈ next x, y ∈ items
  visited : ∀ x ∈ visited, ∀ y ∈ next x, y ∈ visited ∨ y ∈ queue

structure Closed (visited : List α) : Prop where
  next : ∀ x ∈ visited, ∀ y ∈ next x, y ∈ visited

section

variable {next} {items visited queue : List α} {fuel : Nat}

theorem pending_visit {x : α} (hx : x ∈ items) (hnew : x ∉ visited) :
    pending next items (x :: visited) + (next x).length ≤ pending next items visited := by
  unfold pending
  induction items with
  | nil => cases hx
  | cons y items ih =>
    have hmono : ((items.filter (· ∉ x :: visited)).map fun x => (next x).length).sum ≤
        ((items.filter (· ∉ visited)).map fun x => (next x).length).sum := by
      refine List.Sublist.sum_le_sum (List.Sublist.map _ ?_) fun _ _ => Nat.zero_le _
      exact List.monotone_filter_right items fun z hz => by simp_all
    by_cases hyx : y = x
    · subst hyx
      rw [List.filter_cons_of_neg (by simp), List.filter_cons_of_pos (by simpa using hnew),
        List.map_cons, List.sum_cons]
      omega
    · have hmem : x ∈ items := (List.mem_cons.mp hx).resolve_left (Ne.symm hyx)
      by_cases hy : y ∈ visited
      · rw [List.filter_cons_of_neg (by simp [hy]), List.filter_cons_of_neg (by simpa using hy)]
        exact ih hmem
      · rw [List.filter_cons_of_pos (by simp [hy, hyx]), List.filter_cons_of_pos (by simpa using hy),
          List.map_cons, List.map_cons, List.sum_cons, List.sum_cons]
        have := ih hmem
        omega

omit [DecidableEq α] in
theorem Tracked.skip {x : α} (h : Tracked next items visited (x :: queue)) (hx : x ∈ visited) :
    Tracked next items visited queue := by
  refine ⟨fun y hy => h.queued y (List.mem_cons_of_mem _ hy), h.leads, fun y hy z hz => ?_⟩
  rcases h.visited y hy z hz with hz | hz
  · exact .inl hz
  · rcases List.mem_cons.mp hz with rfl | hz
    · exact .inl hx
    · exact .inr hz

omit [DecidableEq α] in
theorem Tracked.visit {x : α} (h : Tracked next items visited (x :: queue)) :
    Tracked next items (x :: visited) (queue ++ next x) := by
  constructor
  · intro y hy
    rcases List.mem_append.mp hy with hy | hy
    · exact h.queued y (List.mem_cons_of_mem _ hy)
    · exact h.leads x (h.queued x List.mem_cons_self) y hy
  · exact h.leads
  · intro y hy z hz
    rcases List.mem_cons.mp hy with rfl | hy
    · exact .inr (List.mem_append_right _ hz)
    · rcases h.visited y hy z hz with hz | hz
      · exact .inl (List.mem_cons_of_mem _ hz)
      · rcases List.mem_cons.mp hz with rfl | hz
        · exact .inl List.mem_cons_self
        · exact .inr (List.mem_append_left _ hz)

theorem visited_subset_gather : visited ⊆ gather next fuel visited queue := by
  fun_induction gather next fuel visited queue with
  | case1 => exact List.Subset.refl _
  | case2 => exact List.Subset.refl _
  | case3 fuel visited x queue hx ih => exact ih
  | case4 fuel visited x queue hx ih => exact fun y hy => ih (List.mem_cons_of_mem _ hy)

/-- With fuel for all that can come into the queue, it runs empty. -/
theorem gather_tracked (h : Tracked next items visited queue)
    (hfuel : queue.length + pending next items visited ≤ fuel) :
    queue ⊆ gather next fuel visited queue ∧ Closed next (gather next fuel visited queue) := by
  fun_induction gather next fuel visited queue with
  | case1 visited queue =>
    obtain rfl : queue = [] := List.eq_nil_of_length_eq_zero (by omega)
    exact ⟨List.nil_subset _, ⟨fun x hx y hy => (h.visited x hx y hy).resolve_right List.not_mem_nil⟩⟩
  | case2 fuel visited =>
    exact ⟨List.nil_subset _, ⟨fun x hx y hy => (h.visited x hx y hy).resolve_right List.not_mem_nil⟩⟩
  | case3 fuel visited x queue hx ih =>
    rw [List.length_cons] at hfuel
    obtain ⟨hqueue, hclosed⟩ := ih (h.skip hx) (by omega)
    exact ⟨List.cons_subset.mpr ⟨visited_subset_gather hx, hqueue⟩, hclosed⟩
  | case4 fuel visited x queue hx ih =>
    have hpending : pending next items (x :: visited) + (next x).length ≤
        pending next items visited := pending_visit (h.queued x List.mem_cons_self) hx
    rw [List.length_cons] at hfuel
    obtain ⟨hqueue, hclosed⟩ := ih h.visit (by rw [List.length_append]; omega)
    exact ⟨List.cons_subset.mpr ⟨visited_subset_gather List.mem_cons_self,
      fun y hy => hqueue (List.mem_append_left _ hy)⟩, hclosed⟩

/-- The items gathered with the fuel for `sources` are closed, when all that is led to is
among these. -/
theorem gather_closed {sources : List α} (hsources : ∀ x, ∀ y ∈ next x, y ∈ sources)
    (hvisited : Closed next visited) (queue : List α) :
    queue ⊆ gather next (gatherFuel next sources queue) visited queue ∧
      Closed next (gather next (gatherFuel next sources queue) visited queue) := by
  have htracked : Tracked next (queue ++ sources) visited queue :=
    ⟨fun x hx => List.mem_append_left _ hx, fun x _ y hy => List.mem_append_right _ (hsources x y hy),
      fun x hx y hy => .inl (hvisited.next x hx y hy)⟩
  refine gather_tracked htracked ?_
  refine Nat.add_le_add_left ?_ _
  exact List.Sublist.sum_le_sum (List.Sublist.map _ List.filter_sublist) fun _ _ => Nat.zero_le _

end

end Worklist
