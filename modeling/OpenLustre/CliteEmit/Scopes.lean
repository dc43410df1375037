import OpenLustre.Typecheck.Names
import OpenLustre.CliteEmit.Collisions

/-! The scopes of the C code, and the projects for which the identifiers of each are different and
none is a keyword. -/

namespace OpenLustre.CliteEmit

open OpenLustre.Ir OpenLustre.Typecheck

/-- The identifiers of a scope are different, and no keywords. -/
structure Scope (names : List String) : Prop where
  nodup : names.Nodup
  keyword : ∀ x ∈ names, x ∉ keywords

structure CollisionFree (p : Project) : Prop where
  file : Scope (fileNames p)
  state : ∀ n ∈ p.allNodes, Scope (stateFields p n)
  step : ∀ n ∈ p.allNodes, n.isImported = false → Scope (stepNames p n)

/-- The types, variants and constants of a project. -/
def declaredNames (p : Project) : List String := typeNames p ++ variantNames p ++ constantNames p

/-- No two of these variables are a reserved word and the same word with an underscore. -/
def Unescaped (xs : List String) : Prop := ∀ x ∈ xs, x ∈ reserved → x ++ "_" ∉ xs

/-- The names of the declarations leave each other, the keywords, and the emitter's names alone. -/
structure ClearFile (p : Project) : Prop where
  variants : (typeNames p).Disjoint (variantNames p)
  constants : (typeNames p ++ variantNames p).Disjoint (constantNames p)
  nodes : ∀ n ∈ p.allNodes, ∀ part ∈ nodeParts n, n.name ++ part ∉ declaredNames p
  keyword : ∀ x ∈ declaredNames p, x ∉ keywords

structure ClearStep (p : Project) (n : NodeDef) : Prop where
  escape : Unescaped (localNames n)
  temporary : ∀ x ∈ localNames n, ∀ t ∈ stepTemporaries p n, x ≠ t.name
  keyword : ∀ x ∈ localNames n, x ∈ keywords → x ∈ reserved

structure Clear (p : Project) : Prop where
  file : ClearFile p
  held : ∀ n ∈ p.allNodes, Unescaped (heldVars n)
  step : ∀ n ∈ p.allNodes, n.isImported = false → ClearStep p n

section Keywords

theorem append_not_keyword {s : String} (hs : ∀ k ∈ keywords, ¬ s.toList <+: k.toList) (x : String) :
    s ++ x ∉ keywords := fun h =>
  hs _ h (by rw [String.toList_append]; exact List.prefix_append _ _)

theorem not_keyword_append {s : String} (hs : ∀ k ∈ keywords, ¬ s.toList <:+ k.toList) (x : String) :
    x ++ s ∉ keywords := fun h =>
  hs _ h (by rw [String.toList_append]; exact List.suffix_append _ _)

theorem reserved_escape : ∀ x ∈ reserved, x ++ "_" ∉ reserved ∧ x ++ "_" ∉ keywords := by
  decide

theorem cIdent_of_mem {x : String} (h : x ∈ reserved) : cIdent x = x ++ "_" := by simp [cIdent, h]

theorem cIdent_of_not_mem {x : String} (h : x ∉ reserved) : cIdent x = x := by simp [cIdent, h]

theorem cIdent_not_reserved (x : String) : cIdent x ∉ reserved := by
  by_cases hx : x ∈ reserved
  · rw [cIdent_of_mem hx]
    exact (reserved_escape x hx).1
  · rwa [cIdent_of_not_mem hx]

/-- Two variables have one identifier if they are the same, or one of them is a reserved word and
the other is what it is escaped to. -/
theorem cIdent_eq {x y : String} (h : cIdent x = cIdent y) (hne : x ≠ y) :
    (x ∈ reserved ∧ y = x ++ "_") ∨ (y ∈ reserved ∧ x = y ++ "_") := by
  by_cases hx : x ∈ reserved
  · rw [cIdent_of_mem hx] at h
    by_cases hy : y ∈ reserved
    · rw [cIdent_of_mem hy] at h
      exact absurd (append_right_cancel h) hne
    · rw [cIdent_of_not_mem hy] at h
      exact .inl ⟨hx, h.symm⟩
  · rw [cIdent_of_not_mem hx] at h
    by_cases hy : y ∈ reserved
    · rw [cIdent_of_mem hy] at h
      exact .inr ⟨hy, h⟩
    · rw [cIdent_of_not_mem hy] at h
      exact absurd h hne

theorem nodup_cIdent_iff {xs : List String} (hxs : xs.Nodup) :
    (xs.map cIdent).Nodup ↔ Unescaped xs := by
  rw [List.nodup_map_iff_inj_on hxs]
  constructor
  · intro hinj x hx hres hmem
    have hescaped : cIdent (x ++ "_") = x ++ "_" := cIdent_of_not_mem (reserved_escape x hres).1
    have heq : x = x ++ "_" := hinj x hx _ hmem (by rw [hescaped, cIdent_of_mem hres])
    exact (reserved_escape x hres).1 (heq ▸ hres)
  · intro hxs x hx y hy heq
    by_contra hne
    cases cIdent_eq heq hne with
    | inl h => exact hxs x hx h.1 (h.2 ▸ hy)
    | inr h => exact hxs y hy h.1 (h.2 ▸ hx)

theorem cIdent_keyword_iff {x : String} : cIdent x ∈ keywords ↔ x ∈ keywords ∧ x ∉ reserved := by
  by_cases hx : x ∈ reserved
  · rw [cIdent_of_mem hx]
    simp [hx, (reserved_escape x hx).2]
  · rw [cIdent_of_not_mem hx]
    simp [hx]

end Keywords

section File

/-- What the names of nodes end in. -/
def endings : List String := ["_Input", "_Output", "_State", "_init", "_step"]

theorem endings_suffix : ∀ s ∈ endings, ∀ t ∈ endings, s.toList <:+ t.toList → s = t := by decide

theorem endings_not_keyword : ∀ s ∈ endings, ∀ k ∈ keywords, ¬ s.toList <:+ k.toList := by decide

theorem nodeParts_sublist (n : NodeDef) : (nodeParts n).Sublist endings := by
  rw [nodeParts]
  cases n.isFunction with
  | true => decide
  | false => decide

theorem nodeName_inj {n m : NodeDef} {s t : String} (hs : s ∈ nodeParts n) (ht : t ∈ nodeParts m)
    (h : n.name ++ s = m.name ++ t) : n.name = m.name ∧ s = t := by
  have hn := nodeParts_sublist n
  have hm := nodeParts_sublist m
  have hst : s = t := by
    cases suffix_of_append_eq h with
    | inl hsuf => exact endings_suffix s (hn.subset hs) t (hm.subset ht) hsuf
    | inr hsuf => exact (endings_suffix t (hm.subset ht) s (hn.subset hs) hsuf).symm
  subst hst
  exact ⟨append_right_cancel h, rfl⟩

theorem nodeNames_nodup {ns : List NodeDef} (h : (ns.map (·.name)).Nodup) :
    (ns.flatMap nodeNames).Nodup := by
  induction ns with
  | nil => exact List.nodup_nil
  | cons n ns ih =>
    obtain ⟨hn, hns⟩ := List.nodup_cons.mp h
    rw [List.flatMap_cons]
    refine List.nodup_append.mpr ⟨?_, ih hns, ?_⟩
    · have hparts : (nodeParts n).Nodup := (nodeParts_sublist n).nodup (by decide)
      refine hparts.map_on fun s hs t ht heq => (nodeName_inj hs ht heq).2
    · intro x hx y hy heq
      obtain ⟨s, hs, rfl⟩ := List.mem_map.mp hx
      obtain ⟨m, hm, hy⟩ := List.mem_flatMap.mp hy
      obtain ⟨t, ht, rfl⟩ := List.mem_map.mp hy
      exact hn (List.mem_map.mpr ⟨m, hm, (nodeName_inj hs ht heq).1.symm⟩)

theorem nodeName_not_keyword {n : NodeDef} {x : String} (h : x ∈ nodeNames n) : x ∉ keywords := by
  obtain ⟨s, hs, rfl⟩ := List.mem_map.mp h
  exact not_keyword_append (endings_not_keyword s ((nodeParts_sublist n).subset hs)) n.name

theorem fileNames_perm (p : Project) :
    (fileNames p).Perm (declaredNames p ++ p.allNodes.flatMap nodeNames) := by
  refine List.Perm.append_right _ (List.Perm.append_right _ ?_)
  have hnames : typeNames p = p.allTypes.flatMap fun t => [t.name] := by
    rw [typeNames, List.map_eq_flatMap]
  rw [hnames, variantNames]
  exact (List.flatMap_append_perm _ _ _).symm.trans List.perm_append_comm

theorem scope_file_iff {p : Project} (h : Accepted p) : Scope (fileNames p) ↔ ClearFile p := by
  have hnodes := nodeNames_nodup h.nodeNames_nodup
  have htypes : (typeNames p).Nodup := h.typeNames_nodup
  have hvariants : (variantNames p).Nodup := h.variants_nodup
  have hconstants : (constantNames p).Nodup := h.constants_nodup
  have hdeclared : (declaredNames p).Nodup ↔ (typeNames p).Disjoint (variantNames p) ∧
      (typeNames p ++ variantNames p).Disjoint (constantNames p) := by
    rw [declaredNames, List.nodup_append', List.nodup_append']
    simp [htypes, hvariants, hconstants]
  have hperm := fileNames_perm p
  constructor
  · intro hscope
    obtain ⟨hnodup, -, hdisj⟩ := List.nodup_append'.mp (hperm.nodup hscope.nodup)
    refine ⟨(hdeclared.mp hnodup).1, (hdeclared.mp hnodup).2, fun n hn s hs hmem => ?_, ?_⟩
    · exact hdisj hmem (List.mem_flatMap.mpr ⟨n, hn, List.mem_map.mpr ⟨s, hs, rfl⟩⟩)
    · exact fun x hx => hscope.keyword x (hperm.mem_iff.mpr (List.mem_append_left _ hx))
  · intro hclear
    refine ⟨hperm.symm.nodup (List.nodup_append'.mpr
      ⟨hdeclared.mpr ⟨hclear.variants, hclear.constants⟩, hnodes, ?_⟩), ?_⟩
    · intro x hx hmem
      obtain ⟨n, hn, hmem⟩ := List.mem_flatMap.mp hmem
      obtain ⟨s, hs, rfl⟩ := List.mem_map.mp hmem
      exact hclear.nodes n hn s hs hx
    · intro x hx
      cases List.mem_append.mp (hperm.mem_iff.mp hx) with
      | inl hx => exact hclear.keyword x hx
      | inr hx =>
        obtain ⟨n, -, hx⟩ := List.mem_flatMap.mp hx
        exact nodeName_not_keyword hx

end File

section State

variable {p : Project} {n : NodeDef}

/-- Texts that begin with `c` are different from those that do not. -/
theorem nodup_append_of_head {c : Char} {l l' : List String}
    (hl : ∀ x ∈ l, x.toList.head? = some c) (hl' : ∀ x ∈ l', x.toList.head? ≠ some c) :
    (l ++ l').Nodup ↔ l.Nodup ∧ l'.Nodup := by
  rw [List.nodup_append']
  exact ⟨fun h => ⟨h.1, h.2.1⟩, fun h => ⟨h.1, h.2, fun x hx hx' => hl' x hx' (hl x hx)⟩⟩

theorem head_append {s : String} {c : Char} {cs : List Char} (hs : s.toList = c :: cs)
    (x : String) : (s ++ x).toList.head? = some c := by
  rw [String.toList_append, hs, List.cons_append, List.head?_cons]

theorem stateFieldNames_nodup (n : NodeDef) : ((nodeStateFields n).map (·.1)).Nodup := by
  rw [nodeStateFields, List.map_map]
  exact (nodup_eraseDups _).map fun x y h => append_left_cancel h

theorem statefulSubs_nodup (p : Project) (n : NodeDef) :
    ((statefulSubs p n).map (subField ·.2)).Nodup := by
  have hindex : ((statefulSubs p n).map (·.2)).Nodup := by
    refine List.Sublist.nodup (List.filter_sublist.map _) ?_
    rw [List.zipIdx_map_snd]
    exact List.nodup_range'
  have hfield : Function.Injective subField := fun _ _ h =>
    toString_injective (append_left_cancel h)
  have hmap : (statefulSubs p n).map (subField ·.2) =
      ((statefulSubs p n).map (·.2)).map subField := by rw [List.map_map]; rfl
  rw [hmap]
  exact hindex.map hfield

theorem chainFields_nodup (k : Nat) : ((List.range k).map chainField).Nodup :=
  List.nodup_range.map fun _ _ h =>
    toString_injective (append_left_cancel (append_right_cancel h))

theorem heldFields_nodup_iff (n : NodeDef) :
    ((heldFields n).map (·.1)).Nodup ↔ Unescaped (heldVars n) := by
  have hmap : (heldFields n).map (·.1) = ((heldVars n).map cIdent).map ("held_" ++ ·) := by
    rw [heldFields, List.map_map, List.map_map]; rfl
  rw [hmap, List.nodup_map_iff fun x y h => append_left_cancel h]
  exact nodup_cIdent_iff (nodup_eraseDups _)

/-- What the state's fields begin with. -/
def beginnings : List String := ["prev_", "sub_", "held_", "clk"]

theorem beginnings_not_keyword : ∀ s ∈ beginnings, ∀ k ∈ keywords, ¬ s.toList <+: k.toList := by
  decide

theorem mem_stateFieldNames {x : String} (h : x ∈ (nodeStateFields n).map (·.1)) :
    ∃ y, x = "prev_" ++ y := by
  rw [nodeStateFields, List.map_map] at h
  obtain ⟨y, -, rfl⟩ := List.mem_map.mp h
  exact ⟨y, rfl⟩

theorem mem_subFields {x : String} (h : x ∈ (statefulSubs p n).map (subField ·.2)) :
    ∃ y, x = "sub_" ++ y := by
  obtain ⟨y, -, rfl⟩ := List.mem_map.mp h
  exact ⟨_, rfl⟩

theorem mem_heldFields {x : String} (h : x ∈ (heldFields n).map (·.1)) :
    ∃ y, x = "held_" ++ y := by
  rw [heldFields, List.map_map] at h
  obtain ⟨y, -, rfl⟩ := List.mem_map.mp h
  exact ⟨_, rfl⟩

theorem mem_chainFields {x : String} {k : Nat} (h : x ∈ (List.range k).map chainField) :
    ∃ y, x = "clk" ++ y := by
  obtain ⟨i, -, rfl⟩ := List.mem_map.mp h
  exact ⟨toString i ++ "_ticked", by rw [chainField, String.append_assoc]⟩

theorem nodup_stateFields_iff : (stateFields p n).Nodup ↔ Unescaped (heldVars n) := by
  have hp : ∀ x ∈ (nodeStateFields n).map (·.1), x.toList.head? = some 'p' := fun x hx => by
    obtain ⟨y, rfl⟩ := mem_stateFieldNames hx
    exact head_append rfl y
  have hs : ∀ x ∈ (statefulSubs p n).map (subField ·.2), x.toList.head? = some 's' := fun x hx => by
    obtain ⟨y, rfl⟩ := mem_subFields hx
    exact head_append rfl y
  have hh : ∀ x ∈ (heldFields n).map (·.1), x.toList.head? = some 'h' := fun x hx => by
    obtain ⟨y, rfl⟩ := mem_heldFields hx
    exact head_append rfl y
  have hc : ∀ x ∈ (List.range (nodeClocks n).chains.length).map chainField,
      x.toList.head? = some 'c' := fun x hx => by
    obtain ⟨y, rfl⟩ := mem_chainFields hx
    exact head_append rfl y
  have hi : ∀ x ∈ ["initialized"], x.toList.head? = some 'i' := by simp
  rw [stateFields, ← List.singleton_append, List.append_assoc, List.append_assoc,
    nodup_append_of_head hi, nodup_append_of_head hp, nodup_append_of_head hs,
    nodup_append_of_head hh, heldFields_nodup_iff]
  · simp [stateFieldNames_nodup, statefulSubs_nodup, chainFields_nodup]
  · intro x hx
    simp [hc x hx]
  · intro x hx
    rcases List.mem_append.mp hx with hx | hx
    · simp [hh x hx]
    · simp [hc x hx]
  · intro x hx
    rcases List.mem_append.mp hx with hx | hx
    · simp [hs x hx]
    rcases List.mem_append.mp hx with hx | hx
    · simp [hh x hx]
    · simp [hc x hx]
  · intro x hx
    rcases List.mem_append.mp hx with hx | hx
    · simp [hp x hx]
    rcases List.mem_append.mp hx with hx | hx
    · simp [hs x hx]
    rcases List.mem_append.mp hx with hx | hx
    · simp [hh x hx]
    · simp [hc x hx]

theorem scope_state_iff : Scope (stateFields p n) ↔ Unescaped (heldVars n) := by
  rw [← nodup_stateFields_iff (p := p)]
  refine ⟨Scope.nodup, fun hnodup => ⟨hnodup, fun x hx => ?_⟩⟩
  have hbegin {s : String} (hs : s ∈ beginnings) (y : String) : s ++ y ∉ keywords :=
    append_not_keyword (beginnings_not_keyword s hs) y
  simp only [stateFields, List.mem_cons, List.mem_append] at hx
  obtain rfl | ((hx | hx) | hx) | hx := hx
  · decide
  · obtain ⟨y, rfl⟩ := mem_stateFieldNames hx
    exact hbegin (by decide) y
  · obtain ⟨y, rfl⟩ := mem_subFields hx
    exact hbegin (by decide) y
  · obtain ⟨y, rfl⟩ := mem_heldFields hx
    exact hbegin (by decide) y
  · obtain ⟨y, rfl⟩ := mem_chainFields hx
    exact hbegin (by decide) y

end State

section Step

variable {p : Project} {n : NodeDef}

theorem Temporary.name_append (t : Temporary) : ∃ y, t.name = "__" ++ y := by
  refine ⟨String.ofList (t.name.toList.drop 2), ?_⟩
  rw [← String.toList_inj, String.toList_append, t.toList_name]
  cases t <;> simp

theorem Temporary.name_not_keyword (t : Temporary) : t.name ∉ keywords := by
  obtain ⟨y, hy⟩ := t.name_append
  rw [hy]
  exact append_not_keyword (by decide) y

/-- A temporary is named like a variable only where the variable is not escaped. -/
theorem cIdent_eq_name_iff {x : String} {t : Temporary} : cIdent x = t.name ↔ x = t.name := by
  obtain ⟨y, hy⟩ := t.name_append
  have hescaped : ∀ x ∈ reserved, (x ++ "_").toList.head? ≠ some '_' ∧
      x.toList.head? ≠ some '_' := by decide
  have hhead : t.name.toList.head? = some '_' := hy ▸ head_append rfl y
  by_cases hx : x ∈ reserved
  · rw [cIdent_of_mem hx]
    exact ⟨fun h => absurd (h ▸ hhead) (hescaped x hx).1,
      fun h => absurd (h ▸ hhead) (hescaped x hx).2⟩
  · rw [cIdent_of_not_mem hx]

theorem parameters_sublist (n : NodeDef) : (parameters n).Sublist ["self", "in", "out"] := by
  rw [parameters]
  cases n.isFunction with
  | true => decide
  | false => decide

theorem nodup_stepNames_iff (hlocals : (localNames n).Nodup) :
    (stepNames p n).Nodup ↔ Unescaped (localNames n) ∧
      ∀ x ∈ localNames n, ∀ t ∈ stepTemporaries p n, x ≠ t.name := by
  have hparams : (parameters n).Nodup := (parameters_sublist n).nodup (by decide)
  have hreserved : ∀ x ∈ ["self", "in", "out"], x ∈ reserved := by decide
  have hp : ∀ x ∈ parameters n, x ∈ reserved := fun x hx =>
    hreserved x ((parameters_sublist n).subset hx)
  have hp' : (parameters n).Disjoint ((localNames n).map cIdent) := by
    intro x hx hmem
    obtain ⟨y, -, rfl⟩ := List.mem_map.mp hmem
    exact cIdent_not_reserved y (hp _ hx)
  have hpt : (parameters n).Disjoint ((stepTemporaries p n).map (·.name)) := by
    intro x hx hmem
    obtain ⟨t, -, rfl⟩ := List.mem_map.mp hmem
    have hhead : ∀ x ∈ reserved, x.toList.head? ≠ some '_' := by decide
    obtain ⟨y, hy⟩ := t.name_append
    exact hhead _ (hp _ hx) (hy ▸ head_append rfl y)
  rw [stepNames, List.nodup_append', List.nodup_append', nodup_cIdent_iff hlocals]
  constructor
  · rintro ⟨⟨-, hescape, -⟩, -, hdisj⟩
    refine ⟨hescape, fun x hx t ht heq => hdisj (a := cIdent x) ?_ ?_⟩
    · exact List.mem_append_right _ (List.mem_map_of_mem hx)
    · rw [cIdent_eq_name_iff.mpr heq]
      exact List.mem_map_of_mem ht
  · rintro ⟨hescape, htemp⟩
    refine ⟨⟨hparams, hescape, hp'⟩, temporaryNames_nodup p n, fun x hx hmem => ?_⟩
    cases List.mem_append.mp hx with
    | inl hx => exact hpt hx hmem
    | inr hx =>
      obtain ⟨y, hy, rfl⟩ := List.mem_map.mp hx
      obtain ⟨t, ht, heq⟩ := List.mem_map.mp hmem
      exact htemp y hy t ht (cIdent_eq_name_iff.mp heq.symm)

theorem scope_step_iff (hlocals : (localNames n).Nodup) :
    Scope (stepNames p n) ↔ ClearStep p n := by
  have hnodup := nodup_stepNames_iff (p := p) hlocals
  constructor
  · intro h
    obtain ⟨hescape, htemp⟩ := hnodup.mp h.nodup
    refine ⟨hescape, htemp, fun x hx hkey => ?_⟩
    by_contra hres
    refine h.keyword (cIdent x) ?_ (cIdent_keyword_iff.mpr ⟨hkey, hres⟩)
    exact List.mem_append_left _ (List.mem_append_right _ (List.mem_map_of_mem hx))
  · intro h
    refine ⟨hnodup.mpr ⟨h.escape, h.temporary⟩, fun x hx => ?_⟩
    rw [stepNames, List.mem_append, List.mem_append] at hx
    obtain (hx | hx) | hx := hx
    · have hkey : ∀ x ∈ ["self", "in", "out"], x ∉ keywords := by decide
      exact hkey x ((parameters_sublist n).subset hx)
    · obtain ⟨y, hy, rfl⟩ := List.mem_map.mp hx
      exact fun hmem => (cIdent_keyword_iff.mp hmem).2
        (h.keyword y hy (cIdent_keyword_iff.mp hmem).1)
    · obtain ⟨t, -, rfl⟩ := List.mem_map.mp hx
      exact t.name_not_keyword

end Step

/-- The identifiers of every scope are different and no keywords just when the names of the project
leave the emitter's own names, its escapes and the keywords alone. -/
theorem collisionFree_iff {p : Project} (h : Accepted p) : CollisionFree p ↔ Clear p := by
  have hlocals {n : NodeDef} (hn : n ∈ p.allNodes) (himp : n.isImported = false) :
      (localNames n).Nodup := h.locals_nodup hn himp
  constructor
  · intro hfree
    exact {
      file := (scope_file_iff h).mp hfree.file
      held := fun n hn => scope_state_iff.mp (hfree.state n hn)
      step := fun n hn himp => (scope_step_iff (hlocals hn himp)).mp (hfree.step n hn himp) }
  · intro hclear
    exact {
      file := (scope_file_iff h).mpr hclear.file
      state := fun n hn => scope_state_iff.mpr (hclear.held n hn)
      step := fun n hn himp => (scope_step_iff (hlocals hn himp)).mpr (hclear.step n hn himp) }

/-- A node with the locals `for` and `for_`. -/
def escapedTwice : Project where
  packages := [{ name := "main", nodes := [{
    name := "N"
    kind := .operator
    inputs := [⟨"x", .bool⟩]
    outputs := [⟨"y", .bool⟩]
    locals := [⟨"for", .bool⟩, ⟨"for_", .bool⟩]
    equations := [⟨["for"], .var "x"⟩, ⟨["for_"], .unary .not (.var "x")⟩,
      ⟨["y"], .binary .or (.var "for") (.var "for_")⟩] }] }]

theorem escapedTwice_not_collisionFree : ¬ CollisionFree escapedTwice := by
  intro hfree
  have hclear := (collisionFree_iff (by decide)).mp hfree
  exact (hclear.step _ List.mem_cons_self rfl).escape "for" (by decide) (by decide) (by decide)

end OpenLustre.CliteEmit
