import Mathlib.Data.Fintype.Card
import Mathlib.Data.List.Basic
import Mathlib.Logic.Relation
import Mathlib.Data.Set.Finite.Basic
import Mathlib.Order.WellFounded

/-! Finite dependency graphs: cycles, the search for one, and the order in which
repeated passes over the nodes place them. -/

namespace Dependency

open Relation

section Relation

variable {α : Type*} {r s : α → α → Prop}

/-- Some element depends on itself. -/
def Cyclic (r : α → α → Prop) : Prop := ∃ a, TransGen r a a

theorem Cyclic.mono (h : ∀ a b, r a b → s a b) : Cyclic r → Cyclic s :=
  fun ⟨a, ha⟩ => ⟨a, TransGen.mono h _ _ ha⟩

/-- A nonempty finite set in which every element has a successor holds a cycle. -/
theorem cyclic_of_finite {t : Set α} (hfin : t.Finite) (ht : t.Nonempty)
    (h : ∀ a ∈ t, ∃ b ∈ t, r a b) : Cyclic r := by
  by_contra acyclic
  have finite := hfin.to_subtype
  let below : t → t → Prop := fun b a => TransGen r a b
  have irrefl : Std.Irrefl below := ⟨fun a ha => acyclic ⟨a, ha⟩⟩
  have trans : IsTrans t below := ⟨fun _ _ _ hab hbc => TransGen.trans hbc hab⟩
  have wf : WellFounded below := Finite.wellFounded_of_trans_of_irrefl below
  obtain ⟨a, ha⟩ := ht
  obtain ⟨m, -, hm⟩ := wf.has_min Set.univ ⟨⟨a, ha⟩, trivial⟩
  obtain ⟨b, hb, hr⟩ := h m m.2
  exact hm ⟨b, hb⟩ trivial (.single hr)

/-- Without a cycle, and with finitely many elements that have a successor, an element can be
reached by induction from its successors. -/
theorem wellFounded_of_acyclic (hfin : {a | ∃ b, r a b}.Finite) (acyclic : ¬ Cyclic r) :
    WellFounded fun b a => r a b := by
  refine WellFounded.wellFounded_iff_has_min.mpr fun t ht => ?_
  by_contra hmin
  push Not at hmin
  have hnext (a : α) (ha : a ∈ t) : ∃ b ∈ t, r a b := hmin a ha
  refine acyclic (cyclic_of_finite (hfin.subset fun a ha => ?_) ht hnext)
  obtain ⟨b, -, hb⟩ := hnext a ha
  exact ⟨b, hb⟩

/-- A path over two relations stays in the first one or takes a step of the
second. -/
theorem transGen_or {a b : α} (h : TransGen (fun x y => r x y ∨ s x y) a b) :
    TransGen r a b ∨ ∃ x y, ReflTransGen (fun x y => r x y ∨ s x y) a x ∧ s x y ∧
      ReflTransGen (fun x y => r x y ∨ s x y) y b := by
  induction h with
  | @single b hab =>
    cases hab with
    | inl hr => exact .inl (.single hr)
    | inr hs => exact .inr ⟨a, b, .refl, hs, .refl⟩
  | @tail b c hab hbc ih =>
    cases hbc with
    | inl hr =>
      cases ih with
      | inl hab => exact .inl (hab.tail hr)
      | inr hs =>
        obtain ⟨x, y, hax, hs, hyb⟩ := hs
        exact .inr ⟨x, y, hax, hs, hyb.tail (.inl hr)⟩
    | inr hs => exact .inr ⟨b, c, hab.to_reflTransGen, hs, .refl⟩

/-- A cycle over two relations is a cycle of the first one or closes a step of
the second. -/
theorem cyclic_or :
    Cyclic (fun x y => r x y ∨ s x y) ↔
      Cyclic r ∨ ∃ x y, s x y ∧ ReflTransGen (fun x y => r x y ∨ s x y) y x := by
  constructor
  · rintro ⟨a, ha⟩
    cases transGen_or ha with
    | inl hr => exact .inl ⟨a, hr⟩
    | inr hs =>
      obtain ⟨x, y, hax, hs, hya⟩ := hs
      exact .inr ⟨x, y, hs, hya.trans hax⟩
  · rintro (hr | ⟨x, y, hs, hyx⟩)
    · exact hr.mono fun _ _ => .inl
    · exact ⟨x, .head' (.inr hs) hyx⟩

end Relation

section Search

variable {α : Type*} [DecidableEq α] (succ : α → List α)

/-- Depth-first search for a node already on `path`, the nodes being visited
with the latest last.  It answers the part of the path that closes. -/
def search : Nat → List α → α → Option (List α)
  | 0, _, _ => none
  | fuel + 1, path, a =>
    if path.contains a then some (path.dropWhile (· ≠ a) ++ [a])
    else (succ a).findSome? (search fuel (path ++ [a]))

variable {succ}

theorem cyclic_of_search {fuel : Nat} {path : List α} {a : α}
    (hpath : ∀ u ∈ path, TransGen (fun x y => y ∈ succ x) u a)
    (h : (search succ fuel path a).isSome) : Cyclic fun x y => y ∈ succ x := by
  induction fuel generalizing path a with
  | zero => simp [search] at h
  | succ fuel ih =>
    simp only [search] at h
    split at h
    case isTrue hmem => exact ⟨a, hpath a (by simpa using hmem)⟩
    case isFalse =>
      obtain ⟨b, hb, hsome⟩ := List.findSome?_isSome_iff.mp h
      refine ih (fun u hu => ?_) hsome
      cases List.mem_append.mp hu with
      | inl hu => exact (hpath u hu).tail hb
      | inr hu =>
        rw [List.mem_singleton.mp hu]
        exact .single hb

/-- An exhausted search reaches no node of its path, when the nodes that have
successors are among `nodes` and the fuel covers them. -/
theorem not_mem_path_of_search {nodes : List α} (hnodes : ∀ a, succ a ≠ [] → a ∈ nodes)
    {fuel : Nat} {path : List α} {a : α} (hnodup : path.Nodup) (hsub : path ⊆ nodes)
    (hfuel : nodes.length < path.length + fuel)
    (h : search succ fuel path a = none) {u : α}
    (hu : ReflTransGen (fun x y => y ∈ succ x) a u) : u ∉ path := by
  induction fuel generalizing path a with
  | zero =>
    have := (hnodup.subperm hsub).length_le
    omega
  | succ fuel ih =>
    simp only [search] at h
    split at h
    case isTrue => simp at h
    case isFalse hmem =>
      have hmem : a ∉ path := by simpa using hmem
      cases ReflTransGen.cases_head hu with
      | inl hau => rwa [← hau]
      | inr hau =>
        obtain ⟨b, hb, hbu⟩ := hau
        have hnone := List.findSome?_eq_none_iff.mp h b hb
        have hsub' : path ++ [a] ⊆ nodes := by
          intro x hx
          cases List.mem_append.mp hx with
          | inl hx => exact hsub hx
          | inr hx =>
            rw [List.mem_singleton.mp hx]
            exact hnodes a (List.ne_nil_of_mem hb)
        have hnodup' : (path ++ [a]).Nodup := by
          rw [List.nodup_append]
          exact ⟨hnodup, List.nodup_singleton a, by
            rintro x hx y hy rfl
            exact hmem (List.mem_singleton.mp hy ▸ hx)⟩
        have := ih hnodup' hsub' (by simp; omega) hnone hbu
        exact fun hu => this (List.mem_append_left _ hu)

/-- The search from every node that has successors finds a cycle exactly when
there is one. -/
theorem search_isSome_iff {nodes : List α} (hnodes : ∀ a, succ a ≠ [] → a ∈ nodes)
    {fuel : Nat} (hfuel : nodes.length < fuel) :
    (nodes.findSome? (search succ fuel [])).isSome ↔ Cyclic fun x y => y ∈ succ x := by
  constructor
  · intro h
    obtain ⟨a, -, hsome⟩ := List.findSome?_isSome_iff.mp h
    exact cyclic_of_search (by simp) hsome
  · rintro ⟨a, ha⟩
    by_contra hnone
    obtain ⟨b, hab, hba⟩ := TransGen.head'_iff.mp ha
    have hsearch : search succ fuel [] a = none := by
      have hnone : nodes.findSome? (search succ fuel []) = none := by simpa using hnone
      exact List.findSome?_eq_none_iff.mp hnone a (hnodes a (List.ne_nil_of_mem hab))
    cases fuel with
    | zero => omega
    | succ fuel =>
      simp only [search, List.contains_nil, Bool.false_eq_true, if_false,
        List.findSome?_eq_none_iff] at hsearch
      have hb := hsearch b hab
      have hmem := hnodes a (List.ne_nil_of_mem hab)
      exact not_mem_path_of_search hnodes (by simp) (by simpa using hmem) (by simp; omega) hb hba
        (by simp)

end Search

section Passes

variable (deps : Nat → List Nat) (size : Nat)

/-- Append a node that is not placed and whose dependencies are. -/
def place (order : List Nat) (i : Nat) : List Nat :=
  if !order.contains i && (deps i).all order.contains then order ++ [i] else order

/-- One pass over the nodes below `size`. -/
def pass (order : List Nat) : List Nat := (List.range size).foldl (place deps) order

/-- Repeat passes until every node is placed; `none` when a pass places nothing.
Each pass but the last places a node, so `fuel` passes are enough when it exceeds
their number. -/
def passes : Nat → List Nat → Option (List Nat)
  | 0, _ => none
  | fuel + 1, order =>
    if order.length < size then
      let order' := pass deps size order
      if order' = order then none else passes fuel order'
    else some order

/-- What every pass preserves: the placed nodes are distinct and each comes
after its dependencies. -/
structure Placed (order : List Nat) : Prop where
  nodup : order.Nodup
  lt : ∀ i ∈ order, i < size
  deps_before : ∀ before i after, order = before ++ i :: after → ∀ j ∈ deps i, j ∈ before

/-- Node `j` is placed before node `i`. -/
def Before (order : List Nat) (j i : Nat) : Prop :=
  ∃ before after, order = before ++ i :: after ∧ j ∈ before

variable {deps size}

theorem place_of_ready {order : List Nat} {i : Nat} (hnew : i ∉ order)
    (hdeps : ∀ j ∈ deps i, j ∈ order) : place deps order i = order ++ [i] := by
  have hall : (deps i).all order.contains = true := by simpa [List.all_eq_true] using hdeps
  simp [place, hnew, hall]

theorem place_of_not_ready {order : List Nat} {i : Nat}
    (h : i ∈ order ∨ ∃ j ∈ deps i, j ∉ order) : place deps order i = order := by
  refine if_neg fun ready => ?_
  simp only [Bool.and_eq_true, Bool.not_eq_true', List.contains_eq_mem, decide_eq_false_iff_not,
    List.all_eq_true, decide_eq_true_eq] at ready
  rcases h with h | ⟨j, hj, hnew⟩
  · exact ready.1 h
  · exact hnew (ready.2 j hj)

theorem place_cases (deps : Nat → List Nat) (order : List Nat) (i : Nat) :
    (i ∉ order ∧ (∀ j ∈ deps i, j ∈ order) ∧ place deps order i = order ++ [i]) ∨
      place deps order i = order := by
  by_cases h : i ∈ order ∨ ∃ j ∈ deps i, j ∉ order
  · exact .inr (place_of_not_ready h)
  · push Not at h
    exact .inl ⟨h.1, h.2, place_of_ready h.1 h.2⟩

theorem prefix_foldl_place (is order : List Nat) : order <+: is.foldl (place deps) order := by
  induction is generalizing order with
  | nil => exact List.prefix_refl order
  | cons i is ih =>
    rw [List.foldl_cons]
    rcases place_cases deps order i with ⟨-, -, h⟩ | h
    · exact (h ▸ List.prefix_append order [i]).trans (ih _)
    · exact h.symm ▸ ih order

theorem prefix_pass (order : List Nat) : order <+: pass deps size order :=
  prefix_foldl_place _ order

theorem Placed.nil : Placed deps size [] where
  nodup := List.nodup_nil
  lt := by simp
  deps_before := by simp

theorem Placed.snoc {order : List Nat} {i : Nat} (h : Placed deps size order) (hi : i < size)
    (hnew : i ∉ order) (hdeps : ∀ j ∈ deps i, j ∈ order) : Placed deps size (order ++ [i]) where
  nodup := by
    rw [List.nodup_append]
    refine ⟨h.nodup, List.nodup_singleton i, ?_⟩
    rintro a ha b hb rfl
    exact hnew (List.mem_singleton.mp hb ▸ ha)
  lt := by
    intro j hj
    rcases List.mem_append.mp hj with hj | hj
    · exact h.lt j hj
    · rwa [List.mem_singleton.mp hj]
  deps_before := by
    intro before k after heq j hj
    rcases List.eq_nil_or_concat after with rfl | ⟨after, last, rfl⟩
    · obtain ⟨rfl, hki⟩ := List.append_inj' heq rfl
      obtain rfl : i = k := by simpa using hki
      exact hdeps j hj
    · have heq : order ++ [i] = (before ++ k :: after) ++ [last] := by simpa using heq
      exact h.deps_before before k after (List.append_inj' heq rfl).1 j hj

theorem Placed.of_place {order : List Nat} {i : Nat} (h : Placed deps size order) (hi : i < size) :
    Placed deps size (place deps order i) := by
  rcases place_cases deps order i with ⟨hnew, hdeps, heq⟩ | heq
  · exact heq ▸ h.snoc hi hnew hdeps
  · exact heq.symm ▸ h

theorem Placed.of_pass {order : List Nat} (h : Placed deps size order) :
    Placed deps size (pass deps size order) :=
  List.foldlRecOn _ _ h fun _ h _ hi => h.of_place (List.mem_range.mp hi)

theorem Placed.length_le {order : List Nat} (h : Placed deps size order) : order.length ≤ size := by
  have hsub : order ⊆ List.range size := fun i hi => List.mem_range.mpr (h.lt i hi)
  simpa using (h.nodup.subperm hsub).length_le

/-- A complete order is a permutation of the nodes. -/
theorem Placed.perm {order : List Nat} (h : Placed deps size order) (hlen : size ≤ order.length) :
    order.Perm (List.range size) := by
  have hsub : order ⊆ List.range size := fun i hi => List.mem_range.mpr (h.lt i hi)
  exact (h.nodup.subperm hsub).perm_of_length_le (by simpa using hlen)

theorem Placed.before {order : List Nat} (h : Placed deps size order) {i j : Nat}
    (hi : i ∈ order) (hj : j ∈ deps i) : Before order j i := by
  obtain ⟨before, after, rfl⟩ := List.append_of_mem hi
  exact ⟨before, after, rfl, h.deps_before before i after rfl j hj⟩

theorem not_mem_left_of_nodup {before after : List Nat} {i : Nat}
    (h : (before ++ i :: after).Nodup) : i ∉ before := by
  rw [List.nodup_append] at h
  exact fun hi => h.2.2 i hi i List.mem_cons_self rfl

theorem Before.idxOf_lt {order : List Nat} {i j : Nat} (h : Before order j i)
    (hnodup : order.Nodup) : order.idxOf j < order.idxOf i := by
  obtain ⟨before, after, rfl, hj⟩ := h
  rw [List.idxOf_append_of_mem hj, List.idxOf_append_of_notMem (not_mem_left_of_nodup hnodup)]
  exact Nat.lt_add_right _ (List.idxOf_lt_length_of_mem hj)

theorem Before.mem_left {before after : List Nat} {i j : Nat}
    (h : Before (before ++ i :: after) j i) (hnodup : (before ++ i :: after).Nodup) :
    j ∈ before := by
  by_contra hj
  have hlt := h.idxOf_lt hnodup
  rw [List.idxOf_append_of_notMem hj,
    List.idxOf_append_of_notMem (not_mem_left_of_nodup hnodup), List.idxOf_cons_self] at hlt
  omega

/-- A pass that places nothing leaves every missing node with a missing
dependency. -/
theorem stuck_of_pass_eq {order : List Nat} (h : pass deps size order = order) {i : Nat}
    (hi : i < size) (hnew : i ∉ order) : ∃ j ∈ deps i, j ∉ order := by
  by_contra hready
  push Not at hready
  obtain ⟨is, js, hrange⟩ := List.append_of_mem (List.mem_range.mpr hi)
  let mid := is.foldl (place deps) order
  have hpass : pass deps size order = js.foldl (place deps) (place deps mid i) := by
    simp only [pass, hrange, List.foldl_append, List.foldl_cons, mid]
  have hmid : mid = order := by
    have h1 : order <+: mid := prefix_foldl_place is order
    have h2 : mid <+: order := by
      rw [← h, hpass]
      exact (prefix_foldl_place [i] mid).trans (prefix_foldl_place js _)
    exact h2.eq_of_length_le h1.length_le
  have hlen : (place deps mid i).length ≤ (js.foldl (place deps) (place deps mid i)).length :=
    (prefix_foldl_place js _).length_le
  rw [← hpass, h, hmid, place_of_ready hnew hready, List.length_append] at hlen
  exact absurd hlen (by simp)

theorem Placed.of_passes {fuel : Nat} {order final : List Nat} (h : Placed deps size order)
    (hfinal : passes deps size fuel order = some final) :
    Placed deps size final ∧ size ≤ final.length := by
  induction fuel generalizing order with
  | zero => simp [passes] at hfinal
  | succ fuel ih =>
    simp only [passes] at hfinal
    split at hfinal
    case isTrue =>
      split at hfinal
      case isTrue => simp at hfinal
      case isFalse => exact ih h.of_pass hfinal
    case isFalse hlen =>
      obtain rfl : order = final := by simpa using hfinal
      exact ⟨h, by omega⟩

/-- Passes that give up stop before a pass that places nothing. -/
theorem Placed.stuck_of_passes {fuel : Nat} {order : List Nat} (h : Placed deps size order)
    (hfuel : size < order.length + fuel) (hnone : passes deps size fuel order = none) :
    ∃ stuck, Placed deps size stuck ∧ stuck.length < size ∧ pass deps size stuck = stuck := by
  induction fuel generalizing order with
  | zero => exact absurd h.length_le (by omega)
  | succ fuel ih =>
    simp only [passes] at hnone
    split at hnone
    case isTrue hlen =>
      split at hnone
      case isTrue heq => exact ⟨order, h, hlen, heq⟩
      case isFalse hne =>
        have hgrows : order.length < (pass deps size order).length := by
          refine lt_of_le_of_ne (prefix_pass order).length_le fun heq => hne ?_
          exact ((prefix_pass order).eq_of_length heq).symm
        exact ih h.of_pass (by omega) hnone
    case isFalse => simp at hnone

/-- Nodes in a complete order do not depend on themselves. -/
theorem Placed.acyclic {order : List Nat} (h : Placed deps size order) (hlen : size ≤ order.length)
    (hdom : ∀ i, ∀ j ∈ deps i, i < size ∧ j < size) : ¬ Cyclic fun i j => j ∈ deps i := by
  rintro ⟨i, hi⟩
  have hmem {i : Nat} (hi : i < size) : i ∈ order :=
    (h.perm hlen).mem_iff.mpr (List.mem_range.mpr hi)
  have hlt {i j : Nat} (hij : TransGen (fun i j => j ∈ deps i) i j) :
      order.idxOf j < order.idxOf i := by
    have step {i j : Nat} (hij : j ∈ deps i) : order.idxOf j < order.idxOf i :=
      (h.before (hmem (hdom i j hij).1) hij).idxOf_lt h.nodup
    induction hij with
    | single hij => exact step hij
    | tail _ hjk ih => exact (step hjk).trans ih
  exact lt_irrefl _ (hlt hi)

/-- When every missing node has a missing dependency, there is a cycle. -/
theorem cyclic_of_stuck {order : List Nat} (hdom : ∀ i, ∀ j ∈ deps i, j < size)
    (hlen : order.length < size) (hstuck : ∀ i < size, i ∉ order → ∃ j ∈ deps i, j ∉ order) :
    Cyclic fun i j => j ∈ deps i := by
  have hfin : {i | i < size ∧ i ∉ order}.Finite := (Set.finite_lt_nat size).subset fun _ h => h.1
  refine cyclic_of_finite hfin ?_ ?_
  · by_contra hempty
    rw [Set.not_nonempty_iff_eq_empty, Set.eq_empty_iff_forall_notMem] at hempty
    have hsub : List.range size ⊆ order := fun i hi => by
      by_contra hnew
      exact hempty i ⟨List.mem_range.mp hi, hnew⟩
    have := (List.nodup_range.subperm hsub).length_le
    simp only [List.length_range] at this
    omega
  · rintro i ⟨hi, hnew⟩
    obtain ⟨j, hj, hmissing⟩ := hstuck i hi hnew
    exact ⟨j, ⟨hdom i j hj, hmissing⟩, hj⟩

/-- The passes place every node exactly when no node depends on itself. -/
theorem passes_isSome_iff (hdom : ∀ i, ∀ j ∈ deps i, i < size ∧ j < size) :
    (passes deps size (size + 1) []).isSome ↔ ¬ Cyclic fun i j => j ∈ deps i := by
  constructor
  · intro hsome
    obtain ⟨order, horder⟩ := Option.isSome_iff_exists.mp hsome
    obtain ⟨hplaced, hlen⟩ := Placed.nil.of_passes horder
    exact hplaced.acyclic hlen hdom
  · intro acyclic
    by_contra hnone
    have hnone : passes deps size (size + 1) [] = none := by simpa using hnone
    obtain ⟨stuck, -, hlen, hpass⟩ := Placed.nil.stuck_of_passes (by simp) hnone
    exact acyclic (cyclic_of_stuck (fun i j hj => (hdom i j hj).2) hlen fun _ =>
      stuck_of_pass_eq hpass)

end Passes

section Layers

variable (deps : Nat → List Nat) (size : Nat)

/-- The largest number of references to a node at the same place or later, over
the dependency paths from `i` of at most the given length. -/
def backRefs : Nat → Nat → Nat
  | 0, _ => 0
  | steps + 1, i =>
    (deps i).foldr (fun j most => max (backRefs steps j + if i ≤ j then 1 else 0) most) 0

/-- The order in which passes place nodes: by references to later nodes, then by
position. -/
def Precedes (rank : Nat → Nat) (j i : Nat) : Prop := rank j < rank i ∨ rank j = rank i ∧ j < i

instance (rank : Nat → Nat) (j i : Nat) : Decidable (Precedes rank j i) :=
  inferInstanceAs (Decidable (_ ∨ _))

/-- A rank satisfies the recursion of `backRefs` at every node. -/
structure IsRank (rank : Nat → Nat) : Prop where
  le : ∀ i < size, ∀ j ∈ deps i, rank j + (if i ≤ j then 1 else 0) ≤ rank i
  attained : ∀ i < size, rank i = 0 ∨ ∃ j ∈ deps i, rank i = rank j + if i ≤ j then 1 else 0

/-- The nodes of rank below `k`, by rank. -/
def layers (rank : Nat → Nat) (k : Nat) : List Nat :=
  (List.range k).flatMap fun r => (List.range size).filter (rank · = r)

variable {deps size} {rank : Nat → Nat}

theorem Precedes.asymm {i j : Nat} (h : Precedes rank j i) : ¬ Precedes rank i j := by
  unfold Precedes at *
  omega

theorem Precedes.total (rank : Nat → Nat) (i j : Nat) :
    Precedes rank i j ∨ i = j ∨ Precedes rank j i := by
  unfold Precedes
  omega

@[simp] theorem mem_layers {k i : Nat} : i ∈ layers size rank k ↔ i < size ∧ rank i < k := by
  simp [layers, and_comm]

theorem layers_succ (k : Nat) :
    layers size rank (k + 1) = layers size rank k ++ (List.range size).filter (rank · = k) := by
  simp [layers, List.range_succ]

theorem layers_pairwise (k : Nat) : (layers size rank k).Pairwise (Precedes rank) := by
  induction k with
  | zero => exact List.Pairwise.nil
  | succ k ih =>
    rw [layers_succ, List.pairwise_append]
    refine ⟨ih, ?_, fun i hi j hj => ?_⟩
    · refine List.Pairwise.imp_of_mem ?_ (List.pairwise_lt_range.filter (rank · = k))
      intro i j hi hj hlt
      simp only [List.mem_filter, decide_eq_true_eq] at hi hj
      exact .inr ⟨hi.2.trans hj.2.symm, hlt⟩
    · simp only [mem_layers, List.mem_filter, decide_eq_true_eq] at hi hj
      exact .inl (hj.2 ▸ hi.2)

/-- Whether the next node is placed depends on its rank alone. -/
theorem IsRank.place (h : IsRank deps size rank) (hdom : ∀ i, ∀ j ∈ deps i, j < size)
    {k m : Nat} (hm : m < size) :
    place deps (layers size rank k ++ (List.range m).filter (rank · = k)) m =
      layers size rank k ++ (List.range (m + 1)).filter (rank · = k) := by
  have hmem (j : Nat) : j ∈ layers size rank k ++ (List.range m).filter (rank · = k) ↔
      (j < size ∧ rank j < k) ∨ (j < m ∧ rank j = k) := by simp
  rw [List.range_succ, List.filter_append, ← List.append_assoc]
  rcases lt_trichotomy (rank m) k with hlt | heq | hgt
  · rw [place_of_not_ready (.inl ((hmem m).mpr (.inl ⟨hm, hlt⟩)))]
    simp [hlt.ne]
  · have hdeps : ∀ j ∈ deps m, j ∈ layers size rank k ++ (List.range m).filter (rank · = k) := by
      intro j hj
      have hle := h.le m hm j hj
      have hlt := hdom m j hj
      rw [hmem]
      split at hle <;> omega
    rw [place_of_ready (by rw [hmem]; omega) hdeps]
    simp [heq]
  · have hmissing : ∃ j ∈ deps m, j ∉ layers size rank k ++ (List.range m).filter (rank · = k) := by
      rcases h.attained m hm with hzero | ⟨j, hj, heq⟩
      · omega
      · refine ⟨j, hj, ?_⟩
        rw [hmem]
        split at heq <;> omega
    rw [place_of_not_ready (.inr hmissing)]
    simp [hgt.ne']

/-- One pass places the next layer. -/
theorem IsRank.pass (h : IsRank deps size rank) (hdom : ∀ i, ∀ j ∈ deps i, j < size) (k : Nat) :
    pass deps size (layers size rank k) = layers size rank (k + 1) := by
  have upto (m : Nat) (hm : m ≤ size) : (List.range m).foldl (Dependency.place deps) (layers size rank k) =
      layers size rank k ++ (List.range m).filter (rank · = k) := by
    induction m with
    | zero => simp
    | succ m ih =>
      rw [← h.place hdom (by omega), ← ih (by omega)]
      simp [List.range_succ]
  rw [layers_succ]
  exact upto size le_rfl

theorem IsRank.passes (h : IsRank deps size rank) (hdom : ∀ i, ∀ j ∈ deps i, j < size)
    {fuel k : Nat} {order : List Nat}
    (horder : passes deps size fuel (layers size rank k) = some order) :
    ∃ k, order = layers size rank k := by
  induction fuel generalizing k with
  | zero => simp [Dependency.passes] at horder
  | succ fuel ih =>
    simp only [Dependency.passes, h.pass hdom] at horder
    split at horder
    case isTrue =>
      split at horder
      case isTrue => simp at horder
      case isFalse => exact ih horder
    case isFalse => exact ⟨k, by simpa using horder.symm⟩

theorem le_foldr_max {f : Nat → Nat} {js : List Nat} {j : Nat} (hj : j ∈ js) :
    f j ≤ js.foldr (fun j most => max (f j) most) 0 := by
  induction js with
  | nil => simp at hj
  | cons i js ih =>
    rcases List.mem_cons.mp hj with rfl | hj
    · exact le_max_left _ _
    · exact (ih hj).trans (le_max_right _ _)

theorem foldr_max_attained (f : Nat → Nat) (js : List Nat) :
    js.foldr (fun j most => max (f j) most) 0 = 0 ∨
      ∃ j ∈ js, js.foldr (fun j most => max (f j) most) 0 = f j := by
  induction js with
  | nil => exact .inl rfl
  | cons i js ih =>
    rw [List.foldr_cons]
    rcases max_choice (f i) (js.foldr (fun j most => max (f j) most) 0) with heq | heq
    · exact .inr ⟨i, List.mem_cons_self, heq⟩
    · rw [heq]
      rcases ih with hzero | ⟨j, hj, hmax⟩
      · exact .inl hzero
      · exact .inr ⟨j, List.mem_cons_of_mem _ hj, hmax⟩

theorem backRefs_congr {steps steps' i : Nat}
    (h : ∀ j ∈ deps i, backRefs deps steps j = backRefs deps steps' j) :
    backRefs deps (steps + 1) i = backRefs deps (steps' + 1) i := by
  have hfold (js : List Nat) (hjs : ∀ j ∈ js, backRefs deps steps j = backRefs deps steps' j) :
      js.foldr (fun j most => max (backRefs deps steps j + if i ≤ j then 1 else 0) most) 0 =
        js.foldr (fun j most => max (backRefs deps steps' j + if i ≤ j then 1 else 0) most) 0 := by
    induction js with
    | nil => rfl
    | cons j js ih =>
      rw [List.foldr_cons, List.foldr_cons, hjs j List.mem_cons_self,
        ih fun j hj => hjs j (List.mem_cons_of_mem _ hj)]
  exact hfold (deps i) h

/-- Paths from a placed node are shorter than its place in the order. -/
theorem backRefs_stable {order : List Nat}
    (h : ∀ before i after, order = before ++ i :: after → ∀ j ∈ deps i, j ∈ before)
    {i steps : Nat} (hi : i ∈ order) (hsteps : order.length ≤ steps) :
    backRefs deps steps i = backRefs deps order.length i := by
  induction order using List.reverseRecOn generalizing i steps with
  | nil => simp at hi
  | append_singleton order last ih =>
    have hbefore : ∀ before i after, order = before ++ i :: after → ∀ j ∈ deps i, j ∈ before := by
      rintro before i after rfl
      exact h before i (after ++ [last]) (by simp)
    simp only [List.length_append, List.length_singleton] at hsteps ⊢
    rcases List.mem_append.mp hi with hi | hi
    · rw [ih hbefore hi (by omega), ih hbefore hi (Nat.le_succ _)]
    · obtain rfl := List.mem_singleton.mp hi
      obtain ⟨steps, rfl⟩ : ∃ k, steps = k + 1 := ⟨steps - 1, by omega⟩
      exact backRefs_congr fun j hj => ih hbefore (h order i [] rfl j hj) (by omega)

theorem Placed.isRank {order : List Nat} (h : Placed deps size order)
    (hlen : size ≤ order.length) : IsRank deps size (backRefs deps size) := by
  have hsize : order.length = size := le_antisymm h.length_le hlen
  have hunfold : ∀ i < size, backRefs deps size i = backRefs deps (size + 1) i := by
    intro i hi
    have hmem : i ∈ order := (h.perm hlen).mem_iff.mpr (List.mem_range.mpr hi)
    rw [← hsize, backRefs_stable h.deps_before hmem (Nat.le_succ _)]
  constructor
  · intro i hi j hj
    rw [hunfold i hi]
    exact le_foldr_max (f := fun j => backRefs deps size j + if i ≤ j then 1 else 0) hj
  · intro i hi
    rw [hunfold i hi]
    exact foldr_max_attained (fun j => backRefs deps size j + if i ≤ j then 1 else 0) (deps i)

theorem before_iff_of_pairwise {order : List Nat} (h : order.Pairwise (Precedes rank))
    {i j : Nat} (hi : i ∈ order) (hj : j ∈ order) : Before order j i ↔ Precedes rank j i := by
  constructor
  · rintro ⟨before, after, rfl, hbefore⟩
    exact (List.pairwise_append.mp h).2.2 j hbefore i List.mem_cons_self
  · intro hji
    obtain ⟨before, after, rfl⟩ := List.append_of_mem hi
    have hafter := (List.pairwise_cons.mp (List.pairwise_append.mp h).2.1).1
    rcases List.mem_append.mp hj with hj | hj
    · exact ⟨before, after, rfl, hj⟩
    · rcases List.mem_cons.mp hj with rfl | hj
      · exact absurd hji hji.asymm
      · exact absurd hji (hafter j hj).asymm

/-- When the passes place every node, they place by the number of references to
later nodes and then by position. -/
theorem before_iff_precedes (hdom : ∀ i, ∀ j ∈ deps i, j < size) {fuel : Nat} {order : List Nat}
    (horder : passes deps size fuel [] = some order) {i j : Nat} (hi : i < size) (hj : j < size) :
    Before order j i ↔ Precedes (backRefs deps size) j i := by
  obtain ⟨hplaced, hlen⟩ := Placed.nil.of_passes horder
  have hmem {i : Nat} (hi : i < size) : i ∈ order :=
    (hplaced.perm hlen).mem_iff.mpr (List.mem_range.mpr hi)
  obtain ⟨k, rfl⟩ := (hplaced.isRank hlen).passes hdom (k := 0) horder
  exact before_iff_of_pairwise (layers_pairwise k) (hmem hi) (hmem hj)

end Layers

end Dependency
