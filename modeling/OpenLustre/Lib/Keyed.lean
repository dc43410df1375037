import Mathlib.Data.List.Sort

/-! Lists of items with keys: an item is only added when its key is new, and tables whose
entries are updated under their key. -/

namespace Keyed

section

variable {α κ : Type} [DecidableEq κ] (key : α → κ)

/-- Add an item, unless there is one of its key. -/
def insertNew (xs : List α) (x : α) : List α :=
  if xs.any (fun y => decide (key y = key x)) then xs else xs ++ [x]

variable {key}

theorem mem_insertNew {xs : List α} {x : α} (h : ∀ y ∈ xs, key y = key x → y = x) {z : α} :
    z ∈ insertNew key xs x ↔ z ∈ xs ∨ z = x := by
  unfold insertNew
  split
  case isTrue hany =>
    obtain ⟨y, hy, hkey⟩ := List.any_eq_true.mp hany
    obtain rfl := h y hy (of_decide_eq_true hkey)
    exact ⟨.inl, fun hz => hz.elim id fun hz => hz ▸ hy⟩
  case isFalse => simp

theorem mem_foldl_insertNew {xs ys : List α}
    (h : ∀ x ∈ xs ++ ys, ∀ y ∈ xs ++ ys, key x = key y → x = y) {z : α} :
    z ∈ ys.foldl (insertNew key) xs ↔ z ∈ xs ∨ z ∈ ys := by
  induction ys generalizing xs with
  | nil => simp
  | cons y ys ih =>
    have hmem : ∀ x, x ∈ insertNew key xs y ↔ x ∈ xs ∨ x = y := fun x =>
      mem_insertNew fun x hx => h x (List.mem_append_left _ hx) y (by simp)
    have hsub : ∀ x ∈ insertNew key xs y ++ ys, x ∈ xs ++ y :: ys := by
      intro x hx
      simp only [List.mem_append, hmem, List.mem_cons] at hx ⊢
      tauto
    rw [List.foldl_cons, ih fun a ha b hb => h a (hsub a ha) b (hsub b hb), hmem, List.mem_cons]
    tauto

end

section

variable {κ β : Type} [DecidableEq κ] (le : κ → κ → Prop) [DecidableRel le]

/-- Update the entry of a key, or make one in the order of the keys. -/
def update (k : κ) (f : Option β → β) (entries : List (κ × β)) : List (κ × β) :=
  if entries.any (fun e => decide (e.1 = k)) then
    entries.map fun e => if e.1 = k then (k, f (some e.2)) else e
  else entries.orderedInsert (fun a b => le a.1 b.1) (k, f none)

variable {le} {k k' : κ} {f : Option β → β} {entries : List (κ × β)}

/-- An entry of the key is a new one or the update of an old one; the others stay. -/
theorem mem_update {e : κ × β} (h : e ∈ update le k f entries) :
    (e.1 = k ∧ (e.2 = f none ∨ ∃ v, (k, v) ∈ entries ∧ e.2 = f (some v))) ∨ e ∈ entries := by
  unfold update at h
  split at h
  case isTrue =>
    obtain ⟨e', he', rfl⟩ := List.mem_map.mp h
    by_cases hk : e'.1 = k
    · rw [if_pos hk]
      exact .inl ⟨rfl, .inr ⟨e'.2, hk ▸ he', rfl⟩⟩
    · rw [if_neg hk]
      exact .inr he'
  case isFalse =>
    rcases (List.mem_orderedInsert _).mp h with rfl | h
    · exact .inl ⟨rfl, .inl rfl⟩
    · exact .inr h

theorem exists_mem_update_self : ∃ v, (k, v) ∈ update le k f entries := by
  unfold update
  split
  case isTrue h =>
    obtain ⟨e, he, hk⟩ := List.any_eq_true.mp h
    refine ⟨f (some e.2), List.mem_map.mpr ⟨e, he, ?_⟩⟩
    rw [if_pos (of_decide_eq_true hk)]
  case isFalse => exact ⟨f none, (List.mem_orderedInsert _).mpr (.inl rfl)⟩

theorem exists_mem_update {v : β} (h : (k', v) ∈ entries) :
    ∃ v, (k', v) ∈ update le k f entries := by
  by_cases hk : k' = k
  · exact hk ▸ exists_mem_update_self
  · refine ⟨v, ?_⟩
    unfold update
    split
    case isTrue => exact List.mem_map.mpr ⟨(k', v), h, if_neg hk⟩
    case isFalse => exact (List.mem_orderedInsert _).mpr (.inr h)

/-- No key has two entries. -/
abbrev Distinct (entries : List (κ × β)) : Prop := (entries.map (·.1)).Nodup

theorem Distinct.update (h : Distinct entries) : Distinct (update le k f entries) := by
  unfold Keyed.update
  split
  case isTrue =>
    have hkeys : (entries.map fun e => if e.1 = k then (k, f (some e.2)) else e).map (·.1) =
        entries.map (·.1) := by
      rw [List.map_map]
      refine List.map_congr_left fun e _ => ?_
      by_cases hk : e.1 = k <;> simp [hk]
    rw [Distinct, hkeys]
    exact h
  case isFalse hany =>
    have hnone : ∀ e ∈ entries, e.1 ≠ k := fun e he hk =>
      hany (List.any_eq_true.mpr ⟨e, he, decide_eq_true hk⟩)
    have hperm := (List.perm_orderedInsert (fun a b : κ × β => le a.1 b.1) (k, f none) entries).map (·.1)
    refine hperm.nodup_iff.mpr (List.nodup_cons.mpr ⟨fun hmem => ?_, h⟩)
    obtain ⟨e, he, hk⟩ := List.mem_map.mp hmem
    exact hnone e he hk

variable [BEq κ] [LawfulBEq κ]

theorem lookup_map_update (h : k' ≠ k) (v : β → β) :
    (entries.map fun e => if e.1 = k then (k, v e.2) else e).lookup k' = entries.lookup k' := by
  have hne : (k' == k) = false := by simpa using h
  induction entries with
  | nil => rfl
  | cons e entries ih =>
    obtain ⟨name, x⟩ := e
    by_cases hname : name = k
    · subst hname
      simpa [List.lookup_cons, hne] using ih
    · simp only [List.map_cons, if_neg hname, List.lookup_cons, ih]

theorem lookup_map_update_self (v : β → β) :
    (entries.map fun e => if e.1 = k then (k, v e.2) else e).lookup k =
      (entries.lookup k).map v := by
  induction entries with
  | nil => rfl
  | cons e entries ih =>
    obtain ⟨name, x⟩ := e
    by_cases hname : name = k
    · subst hname
      simp
    · have hne : (k == name) = false := by simpa using Ne.symm hname
      simpa [hname, List.lookup_cons, hne] using ih

theorem lookup_orderedInsert (h : ∀ e ∈ entries, e.1 ≠ k) (v : β) :
    (entries.orderedInsert (fun a b => le a.1 b.1) (k, v)).lookup k' =
      if k' = k then some v else entries.lookup k' := by
  induction entries with
  | nil => by_cases hk : k' = k <;> simp [hk]
  | cons e entries ih =>
    obtain ⟨name, x⟩ := e
    obtain ⟨hname, hentries⟩ := List.forall_mem_cons.mp h
    rw [List.orderedInsert_cons]
    split
    · by_cases hk : k' = k
      · simp [hk]
      · have hne : (k' == k) = false := by simpa using hk
        simp only [List.lookup_cons, hne, if_neg hk]
    · rw [List.lookup_cons, ih hentries, List.lookup_cons]
      by_cases hk : k' = k
      · have hne : (k == name) = false := by simpa using Ne.symm hname
        simp [hk, hne]
      · simp [hk]

/-- Only the entry of the key changes. -/
theorem lookup_update (k k' : κ) (f : Option β → β) (entries : List (κ × β)) :
    (update le k f entries).lookup k' =
      if k' = k then some (f (entries.lookup k)) else entries.lookup k' := by
  unfold update
  split
  case isTrue h =>
    by_cases hk : k' = k
    · obtain ⟨e, he, hkey⟩ := List.any_eq_true.mp h
      have hsome : (entries.lookup k).isSome = true :=
        List.lookup_isSome_iff.mpr ⟨e, he, by simpa using (of_decide_eq_true hkey).symm⟩
      obtain ⟨v, hv⟩ := Option.isSome_iff_exists.mp hsome
      rw [hk, lookup_map_update_self fun v => f (some v), hv, if_pos rfl]
      rfl
    · rw [lookup_map_update hk fun v => f (some v), if_neg hk]
  case isFalse h =>
    have hnone : ∀ e ∈ entries, e.1 ≠ k := fun e he hk =>
      h (List.any_eq_true.mpr ⟨e, he, decide_eq_true hk⟩)
    have hlookup : entries.lookup k = none := by
      refine List.lookup_eq_none_iff.mpr fun e he => ?_
      simpa using Ne.symm (hnone e he)
    rw [lookup_orderedInsert hnone, hlookup]

/-- A table filled by updates holds at a key what the items of that key make of it. -/
theorem lookup_foldl_update {α : Type} (key : α → κ) (f : α → Option β → β) (k : κ) (xs : List α)
    (entries : List (κ × β)) :
    (xs.foldl (fun entries x => update le (key x) (f x) entries) entries).lookup k =
      (xs.filter fun x => decide (key x = k)).foldl (fun v x => some (f x v)) (entries.lookup k) := by
  induction xs generalizing entries with
  | nil => rfl
  | cons x xs ih =>
    rw [List.foldl_cons, ih, lookup_update]
    by_cases hk : key x = k
    · simp [hk]
    · simp [hk, Ne.symm hk]

theorem Distinct.lookup_eq_some (h : Distinct entries) {v : β} :
    entries.lookup k = some v ↔ (k, v) ∈ entries := by
  induction entries with
  | nil => simp
  | cons e entries ih =>
    obtain ⟨name, x⟩ := e
    obtain ⟨hname, hrest⟩ := List.nodup_cons.mp h
    rw [List.lookup_cons, List.mem_cons]
    by_cases hk : k = name
    · subst hk
      have hnot : (k, v) ∉ entries := fun hmem => hname (List.mem_map.mpr ⟨_, hmem, rfl⟩)
      simp [hnot, eq_comm]
    · have hne : (k == name) = false := by simpa using hk
      simp [hne, ih hrest, hk]

end

end Keyed
