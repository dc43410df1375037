import Mathlib.Data.List.Nodup
import OpenLustre.Ir.Slice

/-! A slice keeps all that what it keeps refers to. -/

namespace OpenLustre.Ir

open Worklist

namespace Project

variable {p : Project} {k : Kept} {queue : List String}

theorem mem_appliedNames_of_appliedBy {f g : String} (h : g ∈ p.appliedBy f) :
    g ∈ p.appliedNames := by
  unfold appliedBy at h
  unfold appliedNames
  cases hn : p.findNode f with
  | none => simp [hn] at h
  | some n =>
    simp only [hn, List.mem_append] at h
    rcases h with h | h
    · exact List.mem_append_left _ (List.mem_append_left _
        (List.mem_flatMap.mpr ⟨n, mem_of_findNode hn, h⟩))
    · cases hc : n.contract with
      | none => simp [hc] at h
      | some c =>
        simp only [hc] at h
        refine List.mem_append_left _ (List.mem_append_right _ ?_)
        cases hfind : p.findContract c with
        | none => simp [contractExprs, hfind] at h
        | some d =>
          have hname : d.name = c := by simpa using List.find?_some hfind
          exact List.mem_flatMap.mpr ⟨d, List.mem_of_find?_eq_some hfind, hname ▸ h⟩

/-- The nodes are closed under application, and what their bodies mention is noted. -/
structure Kept.Gathered (p : Project) (k : Kept) : Prop where
  closed : Closed p.appliedBy k.nodes
  freeVars : ∀ f ∈ k.nodes, ∀ n ∈ p.findNode f, ∀ eq ∈ n.equations, eq.rhs.freeVars ⊆ k.freeVars
  types : ∀ f ∈ k.nodes, ∀ n ∈ p.findNode f, ∀ port ∈ n.declared, port.ty ∈ k.types

/-- What the value of a kept constant mentions is noted, or waits. -/
structure Kept.Constant (k : Kept) (queue : List String) (c : ConstDef) : Prop where
  freeVars : c.value.freeVars ⊆ k.freeVars
  type : c.ty ∈ k.types
  applied : ∀ f ∈ c.value.applied, f ∈ k.nodes ∨ f ∈ queue

def Kept.Constants (p : Project) (k : Kept) (queue : List String) : Prop :=
  ∀ c ∈ p.allConstants, c.name ∈ k.constants → k.Constant queue c

/-- Every constant that is referred to is kept. -/
def Kept.Settled (p : Project) (k : Kept) : Prop :=
  ∀ c ∈ p.allConstants, c.name ∈ k.freeVars → c.name ∈ k.constants

/-- More is kept, of the same nodes. -/
structure Kept.Grows (k l : Kept) : Prop where
  nodes : l.nodes = k.nodes
  freeVars : k.freeVars ⊆ l.freeVars
  constants : k.constants ⊆ l.constants
  types : k.types ⊆ l.types

/-- The constants that are not kept. -/
def Kept.missing (p : Project) (k : Kept) : Nat :=
  (p.allConstants.filter (·.name ∉ k.constants)).length

theorem Kept.Grows.refl (k : Kept) : k.Grows k :=
  ⟨rfl, List.Subset.refl _, List.Subset.refl _, List.Subset.refl _⟩

theorem Kept.Grows.trans {k l j : Kept} (h : k.Grows l) (h' : l.Grows j) : k.Grows j :=
  ⟨h'.nodes.trans h.nodes, List.Subset.trans h.freeVars h'.freeVars,
    List.Subset.trans h.constants h'.constants, List.Subset.trans h.types h'.types⟩

theorem Kept.Grows.gathered {k l : Kept} (h : k.Grows l) (hk : k.Gathered p) : l.Gathered p := by
  constructor
  · rw [h.nodes]
    exact hk.closed
  · rw [h.nodes]
    exact fun f hf n hn eq heq => List.Subset.trans (hk.freeVars f hf n hn eq heq) h.freeVars
  · rw [h.nodes]
    exact fun f hf n hn port hport => h.types (hk.types f hf n hn port hport)

theorem Kept.Constant.grows {k l : Kept} {c : ConstDef} (hc : k.Constant queue c)
    (h : k.Grows l) {queue' : List String} (hqueue : queue ⊆ queue') : l.Constant queue' c :=
  ⟨List.Subset.trans hc.freeVars h.freeVars, h.types hc.type, fun f hf => by
    rw [h.nodes]
    exact (hc.applied f hf).imp_right fun hf => hqueue hf⟩

theorem Kept.Grows.missing_le {k l : Kept} (h : k.Grows l) : l.missing p ≤ k.missing p := by
  refine List.Sublist.length_le (List.monotone_filter_right _ fun c hc => ?_)
  simp only [decide_eq_true_eq] at hc ⊢
  exact fun hmem => hc (h.constants hmem)

theorem Kept.Grows.missing_lt {k l : Kept} (h : k.Grows l) {c : ConstDef}
    (hc : c ∈ p.allConstants) (hnew : c.name ∉ k.constants) (hkept : c.name ∈ l.constants) :
    l.missing p < k.missing p := by
  refine Nat.lt_of_le_of_ne h.missing_le fun heq => ?_
  have hsub : (p.allConstants.filter (·.name ∉ l.constants)).Sublist
      (p.allConstants.filter (·.name ∉ k.constants)) := by
    refine List.monotone_filter_right _ fun c hc => ?_
    simp only [decide_eq_true_eq] at hc ⊢
    exact fun hmem => hc (h.constants hmem)
  have hmem : c ∈ p.allConstants.filter (·.name ∉ l.constants) := by
    rw [hsub.eq_of_length heq]
    exact List.mem_filter.mpr ⟨hc, by simpa using hnew⟩
  exact absurd hkept (by simpa using (List.mem_filter.mp hmem).2)

section Nodes

theorem keepNodes_nodes (hclosed : Closed p.appliedBy k.nodes) (queue : List String) :
    k.nodes ⊆ (p.keepNodes queue k).nodes ∧ queue ⊆ (p.keepNodes queue k).nodes := by
  obtain ⟨hqueue, -⟩ := gather_closed (fun _ _ h => mem_appliedNames_of_appliedBy h) hclosed queue
  exact ⟨visited_subset_gather, hqueue⟩

theorem keepNodes_gathered (hclosed : Closed p.appliedBy k.nodes) (queue : List String) :
    (p.keepNodes queue k).Gathered p := by
  obtain ⟨-, hgathered⟩ := gather_closed (fun _ _ h => mem_appliedNames_of_appliedBy h) hclosed queue
  have hbody {f : String} {n : NodeDef} (hf : f ∈ (p.keepNodes queue k).nodes)
      (hn : n ∈ p.findNode f) : n ∈ (p.keepNodes queue k).nodes.filterMap p.findNode :=
    List.mem_filterMap.mpr ⟨f, hf, hn⟩
  refine ⟨hgathered, fun f hf n hn eq heq x hx => ?_, fun f hf n hn port hport => ?_⟩
  · exact List.mem_append_left _ (List.mem_append_right _ (List.mem_flatMap.mpr
      ⟨n, hbody hf hn, List.mem_flatMap.mpr ⟨eq, heq, hx⟩⟩))
  · exact List.mem_append_left _ (List.mem_append_right _ (List.mem_flatMap.mpr
      ⟨n, hbody hf hn, List.mem_map_of_mem hport⟩))

theorem keepNodes_constant (hclosed : Closed p.appliedBy k.nodes) {c : ConstDef}
    (h : k.Constant queue c) : (p.keepNodes queue k).Constant [] c := by
  obtain ⟨hnodes, hqueue⟩ := keepNodes_nodes hclosed queue
  refine ⟨fun x hx => ?_, ?_, fun f hf => .inl ((h.applied f hf).elim (hnodes ·) (hqueue ·))⟩
  · exact List.mem_append_left _ (List.mem_append_left _ (h.freeVars hx))
  · exact List.mem_append_left _ (List.mem_append_left _ h.type)

end Nodes

section Constants

/-- What one pass over some of the constants does. -/
structure Pass (p : Project) (cs : List ConstDef) (s t : Kept × List String × Bool) : Prop where
  grows : s.1.Grows t.1
  queue : s.2.1 ⊆ t.2.1
  constants : s.1.Constants p s.2.1 → t.1.Constants p t.2.1
  same : t.2.2 = false → t = s ∧ ∀ c ∈ cs, c.name ∈ s.1.freeVars → c.name ∈ s.1.constants
  more : t.2.2 = true → s.2.2 = true ∨ t.1.missing p < s.1.missing p

theorem pass_keepConstant (hnodup : (p.allConstants.map (·.name)).Nodup) {c : ConstDef}
    (hc : c ∈ p.allConstants) (s : Kept × List String × Bool) :
    Pass p [c] s (p.keepConstant s c) := by
  obtain ⟨k, queue, round⟩ := s
  unfold keepConstant
  dsimp only
  split
  · next hmem =>
    refine ⟨.refl k, List.Subset.refl _, id, fun _ => ⟨rfl, fun d hd _ => ?_⟩, .inl⟩
    obtain rfl := List.mem_singleton.mp hd
    simpa using hmem
  · next hnew =>
    split
    · next hreferred =>
      have hgrows : k.Grows { k with
          constants := c.name :: k.constants
          types := k.types ++ [c.ty]
          freeVars := k.freeVars ++ c.value.freeVars } :=
        ⟨rfl, List.subset_append_left _ _, List.subset_cons_self _ _, List.subset_append_left _ _⟩
      refine ⟨hgrows, List.subset_append_left _ _, fun hk d hd hkept => ?_, by simp, fun _ => .inr ?_⟩
      · rcases List.mem_cons.mp hkept with heq | hkept
        · obtain rfl : d = c := List.inj_on_of_nodup_map hnodup hd hc heq
          exact ⟨List.subset_append_right _ _, List.mem_append_right _ List.mem_cons_self,
            fun f hf => .inr (List.mem_append_right _ hf)⟩
        · exact (hk d hd hkept).grows hgrows (List.subset_append_left _ _)
      · exact hgrows.missing_lt hc (by simpa using hnew) List.mem_cons_self
    · next hfree =>
      refine ⟨.refl k, List.Subset.refl _, id, fun _ => ⟨rfl, fun d hd hread => ?_⟩, .inl⟩
      obtain rfl := List.mem_singleton.mp hd
      simp [hread] at hfree

theorem Pass.nil (s : Kept × List String × Bool) : Pass p [] s s :=
  ⟨.refl _, List.Subset.refl _, id, fun _ => ⟨rfl, by simp⟩, .inl⟩

theorem Pass.cons {c : ConstDef} {cs : List ConstDef} {s t u : Kept × List String × Bool}
    (h : Pass p [c] s t) (h' : Pass p cs t u) : Pass p (c :: cs) s u := by
  refine ⟨h.grows.trans h'.grows, List.Subset.trans h.queue h'.queue,
    fun hs => h'.constants (h.constants hs), fun hu => ?_, fun hu => ?_⟩
  · obtain ⟨rfl, hcs⟩ := h'.same hu
    obtain ⟨rfl, hc⟩ := h.same hu
    exact ⟨rfl, fun d hd => (List.mem_cons.mp hd).elim
      (fun heq => hc d (heq ▸ List.mem_cons_self)) (hcs d)⟩
  · rcases h'.more hu with ht | hlt
    · exact (h.more ht).imp_right fun hlt => Nat.lt_of_le_of_lt h'.grows.missing_le hlt
    · exact .inr (Nat.lt_of_lt_of_le hlt h.grows.missing_le)

theorem pass_constants (hnodup : (p.allConstants.map (·.name)).Nodup) {cs : List ConstDef}
    (hcs : ∀ c ∈ cs, c ∈ p.allConstants) (s : Kept × List String × Bool) :
    Pass p cs s (cs.foldl p.keepConstant s) := by
  induction cs generalizing s with
  | nil => exact .nil s
  | cons c cs ih =>
    rw [List.forall_mem_cons] at hcs
    exact (pass_keepConstant hnodup hcs.1 s).cons (ih hcs.2 _)

/-- Passing until nothing is kept any more. -/
structure Passes (p : Project) (k : Kept) (queue : List String) (grew : Bool)
    (t : Kept × List String × Bool) : Prop where
  grows : k.Grows t.1
  constants : k.Constants p queue → t.1.Constants p t.2.1
  settled : t.1.Settled p
  done : t = (k, queue, grew) ∨ t.2.2 = true ∧ t.1.missing p < k.missing p

theorem passes_keepConstants (hnodup : (p.allConstants.map (·.name)).Nodup) {fuel : Nat}
    (hfuel : k.missing p < fuel) (queue : List String) (grew : Bool) :
    Passes p k queue grew (p.keepConstants fuel k queue grew) := by
  induction fuel generalizing k queue grew with
  | zero => omega
  | succ fuel ih =>
    have hpass := pass_constants hnodup (fun c hc => hc) (k, queue, false)
    unfold keepConstants
    revert hpass
    generalize p.allConstants.foldl p.keepConstant (k, queue, false) = s
    obtain ⟨l, queue', round⟩ := s
    intro hpass
    dsimp only
    cases round with
    | true =>
      have hlt : l.missing p < k.missing p := (hpass.more rfl).resolve_left (by simp)
      have hrest : Passes p l queue' true (p.keepConstants fuel l queue' true) :=
        ih (by omega) queue' true
      refine ⟨hpass.grows.trans hrest.grows, fun hk => hrest.constants (hpass.constants hk),
        hrest.settled, .inr ?_⟩
      rcases hrest.done with heq | ⟨hgrew, hless⟩
      · rw [if_pos rfl, heq]
        exact ⟨rfl, hlt⟩
      · exact ⟨hgrew, Nat.lt_trans hless hlt⟩
    | false =>
      obtain ⟨heq, hsettled⟩ := hpass.same rfl
      obtain ⟨rfl, rfl⟩ : l = k ∧ queue' = queue := by simpa using heq
      exact ⟨.refl _, id, hsettled, .inl rfl⟩

end Constants

/-- All that is kept for a root is closed. -/
structure Kept.Complete (p : Project) (root : String) (k : Kept) : Prop where
  root : root ∈ k.nodes
  gathered : k.Gathered p
  settled : k.Settled p
  constants : k.Constants p []

theorem keep_complete (hnodup : (p.allConstants.map (·.name)).Nodup) {root : String} {fuel : Nat}
    (hfuel : k.missing p < fuel) (hclosed : Closed p.appliedBy k.nodes)
    (hconstants : k.Constants p queue) (hroot : root ∈ k.nodes ∨ root ∈ queue) :
    (p.keep fuel k queue).Complete p root := by
  induction fuel generalizing k queue with
  | zero => omega
  | succ fuel ih =>
    have hlength : (p.keepNodes queue k).missing p < p.allConstants.length + 1 :=
      Nat.lt_succ_of_le (List.length_filter_le _ _)
    have hpasses := passes_keepConstants hnodup hlength [] false
    have hgathered := keepNodes_gathered hclosed queue
    have hstart : (p.keepNodes queue k).Constants p [] := fun c hc hkept =>
      keepNodes_constant hclosed (hconstants c hc hkept)
    obtain ⟨hnodes, hqueue⟩ := keepNodes_nodes hclosed queue
    have hmem : root ∈ (p.keepNodes queue k).nodes := hroot.elim (hnodes ·) (hqueue ·)
    have hmissing : (p.keepNodes queue k).missing p = k.missing p := rfl
    unfold keep
    revert hpasses
    generalize p.keepConstants (p.allConstants.length + 1) (p.keepNodes queue k) [] false = s
    obtain ⟨l, queue', grew⟩ := s
    intro hpasses
    dsimp only
    rcases hpasses.done with heq | ⟨hgrew, hless⟩
    · obtain ⟨rfl, rfl, rfl⟩ : l = p.keepNodes queue k ∧ queue' = [] ∧ grew = false := by
        simpa using heq
      exact ⟨hmem, hgathered, hpasses.settled, hstart⟩
    · obtain rfl : grew = true := hgrew
      rw [Bool.not_true, Bool.and_false]
      have hl : l.nodes = (p.keepNodes queue k).nodes := hpasses.grows.nodes
      have hlt : l.missing p < (p.keepNodes queue k).missing p := hless
      exact ih (by omega) (hl ▸ hgathered.closed) (hpasses.constants hstart) (.inl (hl ▸ hmem))

theorem keptFor_complete (hnodup : (p.allConstants.map (·.name)).Nodup) (root : String) :
    (p.keptFor root).Complete p root := by
  refine keep_complete hnodup (Nat.lt_succ_of_le ?_) ⟨by simp⟩ (fun c _ h => ?_) (.inr ?_)
  · exact Nat.le_succ_of_le (List.length_filter_le _ _)
  · exact absurd h List.not_mem_nil
  · exact List.mem_singleton_self root

section Types

variable (k)

/-- The named types of what is kept, with all that they refer to. -/
structure TypesClosed (p : Project) (k : Kept) (types : List String) : Prop where
  used : ∀ ty ∈ k.types, ty.named? ⊆ types
  variant : ∀ t ∈ p.allTypes, ∀ e, t.body = .enum e → ∀ v ∈ e.variants, v ∈ k.freeVars →
    e.name ∈ types
  refs : Closed p.typeRefs types

theorem keepTypes_closed : TypesClosed p k (p.keepTypes k) := by
  have hsources (x y : String) (hy : y ∈ p.typeRefs x) :
      y ∈ p.allTypes.flatMap fun t => t.name :: p.typeRefs t.name := by
    obtain ⟨t, ht, -⟩ := List.mem_flatMap.mp hy
    obtain ⟨hmem, hname⟩ := List.mem_filter.mp ht
    obtain rfl : t.name = x := by simpa using hname
    exact List.mem_flatMap.mpr ⟨t, hmem, List.mem_cons_of_mem _ hy⟩
  have hnone : Closed p.typeRefs [] := ⟨by simp⟩
  have hgather : _ ⊆ p.keepTypes k ∧ Closed p.typeRefs (p.keepTypes k) :=
    gather_closed hsources hnone _
  obtain ⟨hqueue, hclosed⟩ := hgather
  refine ⟨fun ty hty x hx => hqueue ?_, fun t ht e he v hv hread => hqueue ?_, hclosed⟩
  · exact List.mem_append_left _ (List.mem_flatMap.mpr ⟨ty, hty, hx⟩)
  · refine List.mem_append_right _ (List.mem_filterMap.mpr ⟨t, ht, ?_⟩)
    have hany : e.variants.any (k.freeVars.contains ·) = true :=
      List.any_eq_true.mpr ⟨v, hv, by simpa using hread⟩
    simp only [he, if_pos hany]

end Types

end Project

end OpenLustre.Ir
