import Mathlib.Data.List.Nodup
import Mathlib.Data.List.Perm.Subperm
import Mathlib.Data.List.Shortlex

/-! Breadth-first discovery with the items to visit and those visited in one list: the items
come in the order of their least paths, the shorter one first. -/

namespace BreadthFirst

variable {α : Type} [DecidableEq α] (next : α → List α)

/-- Append the items that are not there yet, in order. -/
def note (wanted : List α) : List α → List α
  | [] => wanted
  | x :: xs => note (if x ∈ wanted then wanted else wanted ++ [x]) xs

/-- Note what each item leads to, from the one at `i` on; at most `fuel` items are visited. -/
def discover : Nat → Nat → List α → List α
  | 0, _, wanted => wanted
  | fuel + 1, i, wanted =>
    match wanted[i]? with
    | none => wanted
    | some x => discover fuel (i + 1) (note wanted (next x))

theorem note_extends (wanted xs : List α) : wanted <+: note wanted xs := by
  induction xs generalizing wanted with
  | nil => exact List.prefix_rfl
  | cons x xs ih =>
    rw [note]
    refine List.IsPrefix.trans ?_ (ih _)
    split
    · exact List.prefix_rfl
    · exact List.prefix_append wanted [x]

theorem note_eq_nil {xs : List α} : note [] xs = [] ↔ xs = [] := by
  cases xs with
  | nil => simp [note]
  | cons x xs =>
    have hextends := note_extends [x] xs
    simp only [note, List.not_mem_nil, if_false, List.nil_append, reduceCtorEq, iff_false]
    intro hnil
    simp [hnil] at hextends

theorem discover_extends (fuel i : Nat) (wanted : List α) :
    wanted <+: discover next fuel i wanted := by
  induction fuel generalizing i wanted with
  | zero => exact List.prefix_rfl
  | succ fuel ih =>
    rw [discover]
    cases wanted[i]? with
    | none => exact List.prefix_rfl
    | some x => exact (note_extends wanted (next x)).trans (ih (i + 1) _)

variable (roots : List α)

/-- A way to an item: the root it starts at and the place of each step among those that can be
made. -/
inductive Path : List Nat → α → Prop
  | root {i : Nat} {x : α} (h : roots[i]? = some x) : Path [i] x
  | step {π : List Nat} {i : Nat} {x y : α} (h : Path π x) (hy : (next x)[i]? = some y) :
    Path (π ++ [i]) y

/-- Ways are compared by length, then place by place. -/
abbrev Less : List Nat → List Nat → Prop := List.Shortlex (· < ·)

abbrev AtMost (π ρ : List Nat) : Prop := π = ρ ∨ Less π ρ

theorem less_def {π ρ : List Nat} :
    Less π ρ ↔ π.length < ρ.length ∨ π.length = ρ.length ∧ List.Lex (· < ·) π ρ :=
  List.shortlex_def

theorem Less.trans {π ρ σ : List Nat} (h : Less π ρ) (h' : Less ρ σ) : Less π σ := by
  rw [less_def] at h h' ⊢
  rcases h with h | ⟨hlen, h⟩ <;> rcases h' with h' | ⟨hlen', h'⟩
  · exact .inl (by omega)
  · exact .inl (by omega)
  · exact .inl (by omega)
  · exact .inr ⟨hlen.trans hlen', List.lex_trans (fun h h' => Nat.lt_trans h h') h h'⟩

theorem Less.irrefl (π : List Nat) : ¬ Less π π := fun h => Std.Asymm.asymm _ _ h h

theorem AtMost.not_less {π ρ : List Nat} (h : AtMost π ρ) : ¬ Less ρ π := by
  rcases h with rfl | h
  · exact Less.irrefl π
  · exact Std.Asymm.asymm _ _ h

theorem AtMost.trans_less {π ρ σ : List Nat} (h : AtMost π ρ) (h' : Less ρ σ) : Less π σ := by
  rcases h with rfl | h
  · exact h'
  · exact h.trans h'

theorem Less.trans_atMost {π ρ σ : List Nat} (h : Less π ρ) (h' : AtMost ρ σ) : Less π σ := by
  rcases h' with rfl | h'
  · exact h
  · exact h.trans h'

theorem AtMost.trans {π ρ σ : List Nat} (h : AtMost π ρ) (h' : AtMost ρ σ) : AtMost π σ := by
  rcases h' with rfl | h'
  · exact h
  · exact .inr (h.trans_less h')

theorem lex_extend {π ρ : List Nat} (h : List.Lex (· < ·) π ρ) (hlen : π.length = ρ.length)
    (i j : Nat) : List.Lex (· < ·) (π ++ [i]) (ρ ++ [j]) := by
  induction h with
  | nil => simp at hlen
  | cons _ ih => exact .cons (ih (by simpa using hlen))
  | rel h => exact .rel h

/-- What comes after two ways does not change which is the lesser one. -/
theorem Less.extend {π ρ : List Nat} (h : Less π ρ) (i j : Nat) : Less (π ++ [i]) (ρ ++ [j]) := by
  rw [less_def] at h ⊢
  rcases h with h | ⟨hlen, h⟩
  · exact .inl (by simpa using h)
  · exact .inr ⟨by simpa using hlen, lex_extend h hlen i j⟩

theorem Less.last (π : List Nat) {i j : Nat} (h : i < j) : Less (π ++ [i]) (π ++ [j]) :=
  .append_left ((List.shortlex_singleton_iff i j).mpr h) π

theorem AtMost.extend {π ρ : List Nat} (h : AtMost π ρ) (i : Nat) :
    AtMost (π ++ [i]) (ρ ++ [i]) := by
  rcases h with rfl | h
  · exact .inl rfl
  · exact .inr (h.extend i i)

/-! The items noted, each with the way it was first met by. -/

abbrev Way (α : Type) : Type := List Nat × α

/-- The steps that can be made at the end of a way. -/
def branches (π : List Nat) (xs : List α) : List (Way α) := xs.mapIdx fun j x => (π ++ [j], x)

def noteWays (found : List (Way α)) : List (Way α) → List (Way α)
  | [] => found
  | c :: cs => noteWays (if c.2 ∈ found.map (·.2) then found else found ++ [c]) cs

def discoverWays : Nat → Nat → List (Way α) → List (Way α)
  | 0, _, found => found
  | fuel + 1, i, found =>
    match found[i]? with
    | none => found
    | some c => discoverWays fuel (i + 1) (noteWays found (branches c.1 (next c.2)))

omit [DecidableEq α] in
theorem map_branches (π : List Nat) (xs : List α) : (branches π xs).map (·.2) = xs := by
  apply List.ext_getElem? 
  intro i
  simp [branches]

omit [DecidableEq α] in
theorem mem_branches {π : List Nat} {xs : List α} {c : Way α} :
    c ∈ branches π xs ↔ ∃ j : Nat, xs[j]? = some c.2 ∧ c.1 = π ++ [j] := by
  rw [branches, List.mem_mapIdx]
  constructor
  · rintro ⟨j, hj, rfl⟩
    exact ⟨j, List.getElem?_eq_getElem hj, rfl⟩
  · rintro ⟨j, hj, hc⟩
    obtain ⟨hlt, hx⟩ := List.getElem?_eq_some_iff.mp hj
    exact ⟨j, hlt, by rw [hx, ← hc]⟩

omit [DecidableEq α] in
theorem branches_increasing (π : List Nat) (xs : List α) :
    (branches π xs).Pairwise fun c d => Less c.1 d.1 := by
  rw [List.pairwise_iff_getElem]
  intro i j hi hj hij
  simp only [branches, List.getElem_mapIdx]
  exact Less.last π hij

theorem map_noteWays (found cs : List (Way α)) :
    (noteWays found cs).map (·.2) = note (found.map (·.2)) (cs.map (·.2)) := by
  induction cs generalizing found with
  | nil => rfl
  | cons c cs ih =>
    rw [noteWays, ih, List.map_cons, note]
    split
    · rfl
    · rw [List.map_append, List.map_singleton]

theorem map_discoverWays (fuel i : Nat) (found : List (Way α)) :
    (discoverWays next fuel i found).map (·.2) = discover next fuel i (found.map (·.2)) := by
  induction fuel generalizing i found with
  | zero => rfl
  | succ fuel ih =>
    rw [discoverWays, discover, List.getElem?_map]
    cases found[i]? with
    | none => rfl
    | some c =>
      change (discoverWays next fuel (i + 1) (noteWays found (branches c.1 (next c.2)))).map (·.2) = _
      rw [ih, map_noteWays, map_branches]
      rfl

/-- An item of `cs` is among those found, by a way that is no greater. -/
def Covered (found : List (Way α)) (c : Way α) : Prop := ∃ d ∈ found, d.2 = c.2 ∧ AtMost d.1 c.1

omit [DecidableEq α] in
theorem Covered.append {found : List (Way α)} {c : Way α} (h : Covered found c)
    (new : List (Way α)) : Covered (found ++ new) c := by
  obtain ⟨d, hd, hc⟩ := h
  exact ⟨d, List.mem_append_left _ hd, hc⟩

/-- Noting steps that come after everything found adds some of them, at the end, and covers all
of them. -/
theorem noteWays_spec {found cs : List (Way α)} (hcs : cs.Pairwise fun c d => Less c.1 d.1)
    (hlast : ∀ c ∈ found, ∀ d ∈ cs, Less c.1 d.1) (hnodup : (found.map (·.2)).Nodup) :
    ∃ new, noteWays found cs = found ++ new ∧ new.Sublist cs ∧ ((found ++ new).map (·.2)).Nodup ∧
      ∀ c ∈ cs, Covered (found ++ new) c := by
  induction cs generalizing found with
  | nil => exact ⟨[], by simp [noteWays, hnodup]⟩
  | cons c cs ih =>
    rw [List.pairwise_cons] at hcs
    have htail : ∀ d ∈ found, ∀ e ∈ cs, Less d.1 e.1 := fun d hd e he =>
      hlast d hd e (List.mem_cons_of_mem _ he)
    by_cases hc : c.2 ∈ found.map (·.2)
    · obtain ⟨new, heq, hsub, hnd, hcov⟩ := ih hcs.2 htail hnodup
      refine ⟨new, by rw [noteWays, if_pos hc, heq], hsub.cons c, hnd, ?_⟩
      rw [List.forall_mem_cons]
      refine ⟨?_, hcov⟩
      obtain ⟨d, hd, hdc⟩ := List.mem_map.mp hc
      have hcovered : Covered found c := ⟨d, hd, hdc, .inr (hlast d hd c List.mem_cons_self)⟩
      exact hcovered.append new
    · have hnodup' : ((found ++ [c]).map (·.2)).Nodup := by
        rw [List.map_append, List.map_singleton]
        refine List.nodup_append.mpr ⟨hnodup, List.nodup_singleton _, ?_⟩
        rintro x hx y hy rfl
        exact hc (List.mem_singleton.mp hy ▸ hx)
      have hlast' : ∀ d ∈ found ++ [c], ∀ e ∈ cs, Less d.1 e.1 := by
        intro d hd e he
        rcases List.mem_append.mp hd with hd | hd
        · exact htail d hd e he
        · rw [List.mem_singleton.mp hd]
          exact hcs.1 e he
      obtain ⟨new, heq, hsub, hnd, hcov⟩ := ih hcs.2 hlast' hnodup'
      rw [List.append_assoc, List.singleton_append] at heq hnd hcov
      refine ⟨c :: new, by rw [noteWays, if_neg hc, heq], hsub.cons_cons c, hnd, ?_⟩
      rw [List.forall_mem_cons]
      exact ⟨⟨c, by simp, rfl, .inl rfl⟩, hcov⟩

/-- The steps considered once the items before `i` have been visited. -/
def examined (i : Nat) (found : List (Way α)) : List (Way α) :=
  branches [] roots ++ (found.take i).flatMap fun c => branches c.1 (next c.2)

/-- What holds of the items found when those before `i` have been visited. -/
structure Visited (i : Nat) (found : List (Way α)) : Prop where
  increasing : found.Pairwise fun c d => Less c.1 d.1
  nodup : (found.map (·.2)).Nodup
  reached : ∀ c ∈ found, Path next roots c.1 c.2
  origin : ∀ c ∈ found, c ∈ examined next roots i found
  covers : ∀ c ∈ examined next roots i found, Covered found c

variable {next roots} {i : Nat} {found : List (Way α)}

omit [DecidableEq α] in
theorem mem_examined {c : Way α} :
    c ∈ examined next roots i found ↔
      c ∈ branches [] roots ∨ ∃ d ∈ found.take i, c ∈ branches d.1 (next d.2) := by
  rw [examined, List.mem_append, List.mem_flatMap]

omit [DecidableEq α] in
theorem Visited.ne_nil (h : Visited next roots i found) {c : Way α} (hc : c ∈ found) :
    c.1 ≠ [] := by
  obtain hc | ⟨d, -, hc⟩ := mem_examined.mp (h.origin c hc)
  all_goals
    obtain ⟨j, -, hj⟩ := mem_branches.mp hc
    simp [hj]

omit [DecidableEq α] in
/-- The steps from the item at `i` come after everything found before it is visited. -/
theorem Visited.before_branches (h : Visited next roots i found) {c : Way α}
    (hc : found[i]? = some c) :
    ∀ d ∈ found, ∀ e ∈ branches c.1 (next c.2), Less d.1 e.1 := by
  intro d hd e he
  obtain ⟨j, -, hj⟩ := mem_branches.mp he
  obtain hd | ⟨b, hb, hd⟩ := mem_examined.mp (h.origin d hd)
  · obtain ⟨k, -, hk⟩ := mem_branches.mp hd
    have hne := h.ne_nil (List.mem_of_getElem? hc)
    rw [less_def, hj, hk]
    left
    simpa using List.length_pos_iff.mpr hne
  · obtain ⟨k, -, hk⟩ := mem_branches.mp hd
    obtain ⟨m, hm, hbm⟩ := List.mem_take_iff_getElem.mp hb
    obtain ⟨hi, hci⟩ := List.getElem?_eq_some_iff.mp hc
    have hbc : Less b.1 c.1 := by
      rw [← hbm, ← hci]
      exact List.pairwise_iff_getElem.mp h.increasing m i _ hi (by omega)
    rw [hj, hk]
    exact hbc.extend k j

omit [DecidableEq α] in
theorem examined_succ {c : Way α} (hc : found[i]? = some c) (new : List (Way α)) :
    examined next roots (i + 1) (found ++ new) =
      examined next roots i found ++ branches c.1 (next c.2) := by
  obtain ⟨hi, rfl⟩ := List.getElem?_eq_some_iff.mp hc
  have htake : found.take (i + 1) = found.take i ++ [found[i]] := by simp
  rw [examined, List.take_append_of_le_length (by omega), htake]
  simp [examined, -List.take_append_getElem]

/-- Visiting one item. -/
theorem Visited.step (h : Visited next roots i found) {c : Way α} (hc : found[i]? = some c) :
    Visited next roots (i + 1) (noteWays found (branches c.1 (next c.2))) := by
  obtain ⟨new, heq, hsub, hnodup, hcov⟩ :=
    noteWays_spec (branches_increasing c.1 (next c.2)) (h.before_branches hc) h.nodup
  rw [heq]
  refine ⟨?_, hnodup, ?_, ?_, ?_⟩
  · rw [List.pairwise_append]
    refine ⟨h.increasing, (branches_increasing c.1 (next c.2)).sublist hsub, ?_⟩
    intro d hd e he
    exact h.before_branches hc d hd e (hsub.subset he)
  · intro d hd
    rcases List.mem_append.mp hd with hd | hd
    · exact h.reached d hd
    · obtain ⟨j, hj, hway⟩ := mem_branches.mp (hsub.subset hd)
      rw [hway]
      exact .step (h.reached c (List.mem_of_getElem? hc)) hj
  · intro d hd
    rw [examined_succ hc]
    rcases List.mem_append.mp hd with hd | hd
    · exact List.mem_append_left _ (h.origin d hd)
    · exact List.mem_append_right _ (hsub.subset hd)
  · intro d hd
    rw [examined_succ hc] at hd
    rcases List.mem_append.mp hd with hd | hd
    · exact (h.covers d hd).append new
    · exact hcov d hd

/-- Before anything is visited. -/
theorem visited_start (next : α → List α) (roots : List α) :
    Visited next roots 0 (noteWays [] (branches [] roots)) := by
  obtain ⟨new, heq, hsub, hnodup, hcov⟩ :=
    noteWays_spec (branches_increasing [] roots) (fun c hc => absurd hc List.not_mem_nil)
      List.nodup_nil
  rw [heq]
  rw [List.nil_append] at hnodup hcov ⊢
  refine ⟨(branches_increasing [] roots).sublist hsub, hnodup, ?_, ?_, ?_⟩
  · intro c hc
    obtain ⟨j, hj, hway⟩ := mem_branches.mp (hsub.subset hc)
    rw [hway]
    exact .root hj
  · intro c hc
    exact mem_examined.mpr (.inl (hsub.subset hc))
  · intro c hc
    exact hcov c (by simpa [examined] using hc)

/-- Visiting goes on until every item found has been visited, when there is enough fuel for the
items that can be met. -/
theorem Visited.discover {items : List α} (hroots : ∀ x ∈ roots, x ∈ items)
    (hnext : ∀ x, ∀ y ∈ next x, y ∈ items) {fuel : Nat} (h : Visited next roots i found)
    (hfuel : items.length ≤ i + fuel) :
    ∃ k, (discoverWays next fuel i found).length ≤ k ∧
      Visited next roots k (discoverWays next fuel i found) := by
  induction fuel generalizing i found with
  | zero =>
    have hmem : found.map (·.2) ⊆ items := by
      intro x hx
      obtain ⟨c, hc, rfl⟩ := List.mem_map.mp hx
      obtain hc | ⟨d, -, hc⟩ := mem_examined.mp (h.origin c hc)
      · obtain ⟨j, hj, -⟩ := mem_branches.mp hc
        exact hroots _ (List.mem_of_getElem? hj)
      · obtain ⟨j, hj, -⟩ := mem_branches.mp hc
        exact hnext _ _ (List.mem_of_getElem? hj)
    have hlen := (h.nodup.subperm hmem).length_le
    rw [List.length_map] at hlen
    exact ⟨i, by rw [discoverWays]; omega, h⟩
  | succ fuel ih =>
    rw [discoverWays]
    cases hc : found[i]? with
    | none => exact ⟨i, List.getElem?_eq_none_iff.mp hc, h⟩
    | some c => exact ih (h.step hc) (by omega)

variable (next roots) in
/-- The ways of the items found by visiting all of them. -/
def ways (fuel : Nat) : List (Way α) := discoverWays next fuel 0 (noteWays [] (branches [] roots))

theorem map_ways (fuel : Nat) : (ways next roots fuel).map (·.2) =
    discover next fuel 0 (note [] roots) := by
  rw [ways, map_discoverWays, map_noteWays, map_branches]
  rfl

variable {items : List α} {fuel : Nat}

/-- With fuel for the items that can be met, all of those found are visited. -/
theorem ways_visited (hroots : ∀ x ∈ roots, x ∈ items) (hnext : ∀ x, ∀ y ∈ next x, y ∈ items)
    (hfuel : items.length ≤ fuel) :
    ∃ k, (ways next roots fuel).length ≤ k ∧ Visited next roots k (ways next roots fuel) :=
  (visited_start next roots).discover hroots hnext (by omega)

/-- With fuel for the items that can be met, every way there is comes after one that was
found. -/
theorem ways_complete (hroots : ∀ x ∈ roots, x ∈ items) (hnext : ∀ x, ∀ y ∈ next x, y ∈ items)
    (hfuel : items.length ≤ fuel) {π : List Nat} {x : α} (h : Path next roots π x) :
    Covered (ways next roots fuel) (π, x) := by
  obtain ⟨k, hk, hv⟩ := ways_visited hroots hnext hfuel
  induction h with
  | root hi =>
    apply hv.covers
    exact mem_examined.mpr (.inl (mem_branches.mpr ⟨_, hi, rfl⟩))
  | @step π j x y _ hy ih =>
    obtain ⟨d, hd, rfl, hle⟩ := ih
    have hstep : (d.1 ++ [j], y) ∈ branches d.1 (next d.2) := mem_branches.mpr ⟨j, hy, rfl⟩
    have hexamined : (d.1 ++ [j], y) ∈ examined next roots k (ways next roots fuel) :=
      mem_examined.mpr (.inr ⟨d, by rwa [List.take_of_length_le hk], hstep⟩)
    obtain ⟨e, he, hey, hle'⟩ := hv.covers _ hexamined
    exact ⟨e, he, hey, hle'.trans (hle.extend j)⟩

theorem mem_discover (hroots : ∀ x ∈ roots, x ∈ items) (hnext : ∀ x, ∀ y ∈ next x, y ∈ items)
    (hfuel : items.length ≤ fuel) {x : α} :
    x ∈ discover next fuel 0 (note [] roots) ↔ ∃ π, Path next roots π x := by
  obtain ⟨k, -, hv⟩ := ways_visited hroots hnext hfuel
  rw [← map_ways, List.mem_map]
  constructor
  · rintro ⟨c, hc, rfl⟩
    exact ⟨c.1, hv.reached c hc⟩
  · rintro ⟨π, h⟩
    obtain ⟨c, hc, hx, -⟩ := ways_complete hroots hnext hfuel h
    exact ⟨c, hc, hx⟩

theorem discover_nodup (hroots : ∀ x ∈ roots, x ∈ items) (hnext : ∀ x, ∀ y ∈ next x, y ∈ items)
    (hfuel : items.length ≤ fuel) : (discover next fuel 0 (note [] roots)).Nodup := by
  obtain ⟨k, -, hv⟩ := ways_visited hroots hnext hfuel
  rw [← map_ways]
  exact hv.nodup

omit [DecidableEq α] in
theorem Path.mem_items {π : List Nat} {x : α} (hroots : ∀ x ∈ roots, x ∈ items)
    (hnext : ∀ x, ∀ y ∈ next x, y ∈ items) (h : Path next roots π x) : x ∈ items := by
  cases h with
  | root hi => exact hroots x (List.mem_of_getElem? hi)
  | step _ hy => exact hnext _ x (List.mem_of_getElem? hy)

theorem discover_length (hroots : ∀ x ∈ roots, x ∈ items) (hnext : ∀ x, ∀ y ∈ next x, y ∈ items)
    (hfuel : items.length ≤ fuel) :
    (discover next fuel 0 (note [] roots)).length ≤ items.length := by
  refine ((discover_nodup hroots hnext hfuel).subperm fun x hx => ?_).length_le
  obtain ⟨π, h⟩ := (mem_discover hroots hnext hfuel).mp hx
  exact h.mem_items hroots hnext

omit [DecidableEq α] in
theorem pair_sublist {a b : α} {l : List α} (ha : a ∈ l) (hb : b ∈ l) (hne : a ≠ b) :
    [a, b].Sublist l ∨ [b, a].Sublist l := by
  induction l with
  | nil => cases ha
  | cons c l ih =>
    rcases List.mem_cons.mp ha with rfl | hal
    · rcases List.mem_cons.mp hb with rfl | hb
      · exact absurd rfl hne
      · exact .inl ((List.singleton_sublist.mpr hb).cons_cons a)
    · rcases List.mem_cons.mp hb with rfl | hb
      · exact .inr ((List.singleton_sublist.mpr hal).cons_cons b)
      · exact (ih hal hb).imp (·.cons c) (·.cons c)

variable (next roots) in
/-- An item has a way that is less than every way to the other. -/
def Sooner (x y : α) : Prop := ∃ π, Path next roots π x ∧ ∀ ρ, Path next roots ρ y → Less π ρ

/-- Items are discovered in the order of their least ways. -/
theorem discovered_before_iff (hroots : ∀ x ∈ roots, x ∈ items)
    (hnext : ∀ x, ∀ y ∈ next x, y ∈ items) (hfuel : items.length ≤ fuel) {x y : α}
    (hx : x ∈ discover next fuel 0 (note [] roots)) (hy : y ∈ discover next fuel 0 (note [] roots)) :
    [x, y].Sublist (discover next fuel 0 (note [] roots)) ↔ Sooner next roots x y := by
  obtain ⟨k, -, hv⟩ := ways_visited hroots hnext hfuel
  rw [← map_ways] at hx hy ⊢
  obtain ⟨c, hc, rfl⟩ := List.mem_map.mp hx
  obtain ⟨d, hd, rfl⟩ := List.mem_map.mp hy
  have hinj := List.inj_on_of_nodup_map hv.nodup
  constructor
  · intro hsub
    obtain ⟨l, hl, heq⟩ := List.sublist_map_iff.mp hsub
    obtain ⟨c', l, rfl, hc', hl'⟩ := List.map_eq_cons_iff.mp heq.symm
    obtain ⟨d', l, rfl, hd', hl''⟩ := List.map_eq_cons_iff.mp hl'
    obtain rfl := List.map_eq_nil_iff.mp hl''
    obtain rfl := hinj (hl.subset (by simp)) hc hc'
    obtain rfl := hinj (hl.subset (by simp)) hd hd'
    have hlt : Less c'.1 d'.1 := hv.increasing.forall_sublist hl
    refine ⟨c'.1, hv.reached c' hc, fun ρ hρ => ?_⟩
    obtain ⟨e, he, hed, hle⟩ := ways_complete hroots hnext hfuel hρ
    obtain rfl := hinj he hd hed
    exact hlt.trans_atMost hle
  · rintro ⟨π, hπ, hlt⟩
    obtain ⟨e, he, hec, hle⟩ := ways_complete hroots hnext hfuel hπ
    obtain rfl := hinj he hc hec
    have hcd : Less e.1 d.1 := hle.trans_less (hlt d.1 (hv.reached d hd))
    have hne : e ≠ d := by
      rintro rfl
      exact Less.irrefl _ hcd
    rcases pair_sublist he hd hne with hsub | hsub
    · exact hsub.map (·.2)
    · exact absurd (hv.increasing.forall_sublist hsub) (Std.Asymm.asymm _ _ hcd)

end BreadthFirst
