import Mathlib.Data.Finset.Card
import Mathlib.Logic.Relation

/-! Depth-first descent along a relation with the nodes on the way at hand: it can go on
from every node just when it meets no cycle and only nodes that are known.  Where the nodes it
came back from are kept too, it meets each one once. -/

namespace Descent

variable {α : Type} (r : α → α → Prop) (known : α → Prop)

open Relation

/-- The nodes on a way down from the root, the last one first. -/
inductive Way (root : α) : List α → Prop
  | start : Way root [root]
  | step {a b : α} {way : List α} : Way root (a :: way) → r a b → Way root (b :: a :: way)

/-- Every node that the descent meets is known, and new on its way. -/
inductive Descends : List α → α → Prop
  | intro {way : List α} {a : α} : (∀ b, r a b → known b) → (∀ b, r a b → b ∉ way) →
    (∀ b, r a b → Descends (b :: way) b) → Descends way a

/-- A cycle can be reached. -/
def Cyclic (root : α) : Prop := ∃ a, ReflTransGen r root a ∧ TransGen r a a

/-- A node that is not known, or a cycle, can be reached. -/
def Blocked (root : α) : Prop :=
  (∃ a b, ReflTransGen r root a ∧ r a b ∧ ¬ known b) ∨ Cyclic r root

variable {r known} {root a b : α} {way : List α}

theorem Way.reached (h : Way r root (a :: way)) : ReflTransGen r root a := by
  generalize hw : a :: way = w at h
  induction h generalizing a way with
  | start =>
    obtain ⟨rfl, -⟩ := List.cons.inj hw
    exact .refl
  | step _ hab ih =>
    obtain ⟨rfl, -⟩ := List.cons.inj hw
    exact (ih rfl).tail hab

theorem Way.root_mem (h : Way r root way) : root ∈ way := by
  induction h with
  | start => exact List.mem_cons_self
  | step _ _ ih => exact List.mem_cons_of_mem _ ih

/-- From a node on the way there is a way to its end. -/
theorem Way.onward (h : Way r root (a :: way)) (hb : b ∈ a :: way) : ReflTransGen r b a := by
  generalize hw : a :: way = w at h
  induction h generalizing a way with
  | start =>
    obtain ⟨rfl, rfl⟩ := List.cons.inj hw
    rw [List.mem_singleton.mp hb]
  | step _ hab ih =>
    obtain ⟨rfl, rfl⟩ := List.cons.inj hw
    rcases List.mem_cons.mp hb with rfl | hb
    · exact .refl
    · exact (ih hb rfl).tail hab

/-- A way that comes back to a node on it closes a cycle. -/
theorem Way.cyclic (h : Way r root (b :: way)) (hb : b ∈ way) : Cyclic r root := by
  cases h with
  | start => cases hb
  | step h hab => exact ⟨b, h.reached.tail hab, TransGen.tail' (h.onward hb) hab⟩

theorem Way.blocked (h : Way r root (a :: way)) (hab : r a b) (hb : b ∈ a :: way) :
    Blocked r known root := .inr ((h.step hab).cyclic hb)

theorem Way.unknown (h : Way r root (a :: way)) (hab : r a b) (hb : ¬ known b) :
    Blocked r known root := .inl ⟨a, b, h.reached, hab, hb⟩

theorem Descends.onward (h : Descends r known way a) (hab : TransGen r a b) :
    known b ∧ b ∉ way ∧ ∃ way', way ⊆ way' ∧ b ∈ way' ∧ Descends r known way' b := by
  induction hab with
  | single hab =>
    obtain ⟨knows, new, next⟩ := h
    exact ⟨knows _ hab, new _ hab, _, List.subset_cons_self _ _, List.mem_cons_self, next _ hab⟩
  | tail _ hbc ih =>
    obtain ⟨-, -, way', hsub, -, ⟨knows, new, next⟩⟩ := ih
    exact ⟨knows _ hbc, fun hmem => new _ hbc (hsub hmem), _,
      fun x hx => List.mem_cons_of_mem _ (hsub hx), List.mem_cons_self, next _ hbc⟩

theorem Descends.not_blocked (h : Descends r known [root] root) : ¬ Blocked r known root := by
  rintro (⟨a, b, hreach, hab, hunknown⟩ | ⟨a, hreach, hcycle⟩)
  · exact hunknown (h.onward (TransGen.tail' hreach hab)).1
  · rcases reflTransGen_iff_eq_or_transGen.mp hreach with rfl | hreach
    · exact (h.onward hcycle).2.1 List.mem_cons_self
    · obtain ⟨-, -, way', -, hmem, hdesc⟩ := h.onward hreach
      exact (hdesc.onward hcycle).2.1 hmem

section

variable [DecidableEq α]

/-- How many of the nodes are not on the way. -/
def left (nodes way : List α) : Nat := (nodes.toFinset \ way.toFinset).card

theorem left_lt {nodes : List α} (hb : b ∈ nodes) (hnew : b ∉ way) :
    left nodes (b :: way) < left nodes way := by
  refine Finset.card_lt_card ⟨fun x hx => ?_, fun hsub => ?_⟩
  · simp only [Finset.mem_sdiff, List.mem_toFinset, List.mem_cons, not_or] at hx ⊢
    exact ⟨hx.1, hx.2.2⟩
  · have hmem : b ∈ nodes.toFinset \ way.toFinset := by simp [hb, hnew]
    have hnot := hsub hmem
    simp at hnot

theorem left_le (nodes way : List α) : left nodes way ≤ nodes.length :=
  (Finset.card_le_card Finset.sdiff_subset).trans nodes.toFinset_card_le

end

section

variable (r)

/-- Nodes in the order that the descent came back from them, the last one first. -/
inductive Finished : List α → Prop
  | nil : Finished []
  | cons {a : α} {done : List α} : Finished done → a ∉ done → (∀ b, r a b → b ∈ done) →
    Finished (a :: done)

/-- What the descent to some nodes adds to those that it came back from. -/
structure Explored (way done new targets : List α) : Prop where
  finished : Finished r (new ++ done)
  found : ∀ b ∈ targets, b ∈ new ++ done
  reached : ∀ c ∈ new, ∃ b ∈ targets, ReflTransGen r b c
  apart : ∀ c ∈ new, c ∉ way

end

variable {done new new' targets : List α}

theorem Finished.nodup (h : Finished r done) : done.Nodup := by
  induction h with
  | nil => exact List.nodup_nil
  | cons _ hnew _ ih => exact List.nodup_cons.mpr ⟨hnew, ih⟩

theorem Finished.closed (h : Finished r done) (ha : a ∈ done) (hab : ReflTransGen r a b) :
    b ∈ done := by
  have hstep : ∀ a ∈ done, ∀ b, r a b → b ∈ done := by
    clear ha hab
    induction h with
    | nil => exact fun _ ha => nomatch ha
    | cons _ _ hall ih =>
      rintro a (_ | ⟨_, ha⟩) b hab
      · exact List.mem_cons_of_mem _ (hall b hab)
      · exact List.mem_cons_of_mem _ (ih a ha b hab)
  induction hab with
  | refl => exact ha
  | tail _ hbc ih => exact hstep _ ih _ hbc

/-- No cycle leads through a node that the descent came back from. -/
theorem Finished.acyclic (h : Finished r done) (ha : a ∈ done) : ¬ TransGen r a a := by
  induction h with
  | nil => cases ha
  | @cons c done h hnew hall ih =>
    rcases List.mem_cons.mp ha with rfl | ha
    · intro hcycle
      obtain ⟨b, hab, hba⟩ := TransGen.head'_iff.mp hcycle
      exact hnew (h.closed (hall b hab) hba)
    · exact ih ha

theorem Explored.nil (h : Finished r done) : Explored r way done [] [] where
  finished := h
  found _ hb := by cases hb
  reached _ hc := by cases hc
  apart _ hc := by cases hc

/-- A node that the descent came back from is not met again. -/
theorem Explored.again (h : Finished r done) (ha : a ∈ done) : Explored r way done [] [a] where
  finished := h
  found _ hb := List.mem_singleton.mp hb ▸ ha
  reached _ hc := by cases hc
  apart _ hc := by cases hc

theorem Explored.cons (h : Explored r way done new [b])
    (hrest : Explored r way (new ++ done) new' targets) :
    Explored r way done (new' ++ new) (b :: targets) := by
  refine ⟨by simpa using hrest.finished, ?_, ?_, ?_⟩
  · rintro c (_ | ⟨_, hc⟩)
    · have hfound := h.found b List.mem_cons_self
      simp only [List.mem_append] at hfound ⊢
      tauto
    · simpa using hrest.found c hc
  · intro c hc
    rcases List.mem_append.mp hc with hc | hc
    · obtain ⟨d, hd, hreach⟩ := hrest.reached c hc
      exact ⟨d, List.mem_cons_of_mem _ hd, hreach⟩
    · obtain ⟨d, hd, hreach⟩ := h.reached c hc
      exact ⟨d, List.mem_singleton.mp hd ▸ List.mem_cons_self, hreach⟩
  · intro c hc
    rcases List.mem_append.mp hc with hc | hc
    · exact hrest.apart c hc
    · exact h.apart c hc

/-- The descent comes back from a node once it came back from those that it leads to. -/
theorem Explored.node (h : Explored r (a :: way) done new targets) (hdone : a ∉ done)
    (hway : a ∉ way) (hall : ∀ b, r a b ↔ b ∈ targets) : Explored r way done (a :: new) [a] := by
  have hnew : a ∉ new ++ done := by
    rw [List.mem_append, not_or]
    exact ⟨fun ha => h.apart a ha List.mem_cons_self, hdone⟩
  refine ⟨.cons h.finished hnew fun b hab => h.found b ((hall b).mp hab), ?_, ?_, ?_⟩
  · intro b hb
    exact List.mem_singleton.mp hb ▸ List.mem_cons_self
  · rintro c (_ | ⟨_, hc⟩)
    · exact ⟨a, by simp, .refl⟩
    · obtain ⟨b, hb, hreach⟩ := h.reached c hc
      exact ⟨a, by simp, .head ((hall b).mpr hb) hreach⟩
  · rintro c (_ | ⟨_, hc⟩)
    · exact hway
    · exact fun hmem => h.apart c hc (List.mem_cons_of_mem _ hmem)

/-- From the root the descent meets just what can be reached. -/
theorem Explored.mem_iff (h : Explored r [] [] new [root]) {c : α} :
    c ∈ new ↔ ReflTransGen r root c := by
  have hfinished := h.finished
  have hroot := h.found root List.mem_cons_self
  rw [List.append_nil] at hfinished hroot
  constructor
  · intro hc
    obtain ⟨b, hb, hreach⟩ := h.reached c hc
    exact List.mem_singleton.mp hb ▸ hreach
  · exact hfinished.closed hroot

theorem Explored.not_cyclic (h : Explored r [] [] new [root]) : ¬ Cyclic r root := by
  rintro ⟨a, hreach, hcycle⟩
  have hfinished := h.finished
  rw [List.append_nil] at hfinished
  exact hfinished.acyclic (h.mem_iff.mpr hreach) hcycle

end Descent
