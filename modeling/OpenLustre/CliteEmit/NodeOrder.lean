import Mathlib.Data.List.Perm.Subperm
import OpenLustre.Ir.Project

/-! The order in which the emitter writes nodes: callees first, by a depth-first walk. -/

namespace OpenLustre.CliteEmit

open OpenLustre.Ir

/-- The names of the nodes visited, and the nodes in the order they are emitted in. -/
structure Visits where
  visited : List String
  order : List NodeDef

def callTargets (n : NodeDef) : List String := n.equations.flatMap (·.rhs.applied)

section

variable (p : Project)

/-- Visit a node and, before it is emitted, the nodes it applies; `none` when the walk nests
more than `fuel` deep. -/
def visitNode : Nat → NodeDef → Visits → Option Visits
  | 0, _, _ => none
  | fuel + 1, n, s =>
    if s.visited.contains n.name then some s
    else do
      let s ← (callTargets n).foldlM (fun s f =>
        match p.findNode f with
        | some c => visitNode fuel c s
        | none => some s) ⟨n.name :: s.visited, s.order⟩
      some ⟨s.visited, s.order ++ [n]⟩

/-- A walk nests no deeper than there are nodes. -/
def topoSortNodes : Option (List NodeDef) :=
  (p.allNodes.foldlM (fun s n => visitNode p (p.allNodes.length + 1) n s) ⟨[], []⟩).map (·.order)

/-- Names of nodes of the project, none of them twice. -/
structure Visits.Within (s : Visits) : Prop where
  nodup : s.visited.Nodup
  subset : s.visited ⊆ p.allNodes.map (·.name)

variable {p}

theorem Visits.Within.length_le {s : Visits} (h : s.Within p) :
    s.visited.length ≤ p.allNodes.length := by
  simpa using (h.nodup.subperm h.subset).length_le

/-- What a walk that ends has done. -/
def Visits.Ends (s : Visits) (r : Option Visits) : Prop :=
  ∃ s', r = some s' ∧ s'.Within p ∧ s.visited.length ≤ s'.visited.length

theorem foldlM_ends {α : Type} {f : Visits → α → Option Visits} {xs : List α} (least : Nat)
    (hf : ∀ x ∈ xs, ∀ s : Visits, s.Within p → least ≤ s.visited.length → s.Ends (p := p) (f s x))
    {s : Visits} (hs : s.Within p) (hleast : least ≤ s.visited.length) :
    s.Ends (p := p) (xs.foldlM f s) := by
  induction xs generalizing s with
  | nil => exact ⟨s, rfl, hs, le_rfl⟩
  | cons x xs ih =>
    obtain ⟨hx, hxs⟩ := List.forall_mem_cons.mp hf
    obtain ⟨s₁, h₁, hs₁, hlen₁⟩ := hx s hs hleast
    obtain ⟨s₂, h₂, hs₂, hlen₂⟩ := ih hxs hs₁ (hleast.trans hlen₁)
    refine ⟨s₂, ?_, hs₂, hlen₁.trans hlen₂⟩
    rw [List.foldlM_cons, h₁]
    exact h₂

theorem visitNode_ends {fuel : Nat} {n : NodeDef} (hn : n ∈ p.allNodes) {s : Visits}
    (hs : s.Within p) (hfuel : p.allNodes.length < fuel + s.visited.length) :
    s.Ends (p := p) (visitNode p fuel n s) := by
  induction fuel generalizing n s with
  | zero => exact absurd hs.length_le (by omega)
  | succ fuel ih =>
    rw [visitNode]
    split
    case isTrue => exact ⟨s, rfl, hs, le_rfl⟩
    case isFalse hnew =>
      have hnext : Visits.Within p ⟨n.name :: s.visited, s.order⟩ :=
        ⟨List.nodup_cons.mpr ⟨by simpa using hnew, hs.nodup⟩,
          List.cons_subset.mpr ⟨List.mem_map_of_mem hn, hs.subset⟩⟩
      let visit (s : Visits) (f : String) : Option Visits :=
        match p.findNode f with
        | some c => visitNode p fuel c s
        | none => some s
      have hvisit : ∀ f ∈ callTargets n, ∀ t : Visits, t.Within p →
          s.visited.length + 1 ≤ t.visited.length → t.Ends (p := p) (visit t f) := by
        intro f _ t ht hleast
        simp only [visit]
        split
        case h_1 c hc => exact ih (Project.mem_of_findNode hc) ht (by omega)
        case h_2 => exact ⟨t, rfl, ht, le_rfl⟩
      obtain ⟨s', h', hs', hlen⟩ := foldlM_ends (s.visited.length + 1) hvisit hnext le_rfl
      refine ⟨⟨s'.visited, s'.order ++ [n]⟩, ?_, ⟨hs'.nodup, hs'.subset⟩,
        (Nat.le_succ _).trans hlen⟩
      simp only [visit] at h'
      rw [h']
      rfl

/-- The walk ends on every project, also where nodes call each other in a circle. -/
theorem topoSortNodes_ends (p : Project) : ∃ order, topoSortNodes p = some order := by
  have hvisit : ∀ n ∈ p.allNodes, ∀ s : Visits, s.Within p → 0 ≤ s.visited.length →
      s.Ends (p := p) (visitNode p (p.allNodes.length + 1) n s) :=
    fun n hn s hs _ => visitNode_ends hn hs (by omega)
  have hempty : Visits.Within p ⟨[], []⟩ := ⟨List.nodup_nil, List.nil_subset _⟩
  obtain ⟨s, hs, -⟩ := foldlM_ends 0 hvisit hempty le_rfl
  exact ⟨s.order, by rw [topoSortNodes, hs]; rfl⟩

end

end OpenLustre.CliteEmit
