import OpenLustre.Sim.Slicing
import OpenLustre.Stdlib.Library

/-! A library beside a project: neither changes how the nodes of the other run, as long as their
names are apart. -/

namespace OpenLustre.Simulator

open OpenLustre.Ir OpenLustre.Stdlib

/-- The variants of the enums among some types. -/
def variantNames (types : List TypeDef) : List String :=
  types.flatMap fun t =>
    match t.body with
    | .enum e => e.variants
    | _ => []

/-- The types a project gives its variables, constants, fields and aliases. -/
def declaredTypes (p : Project) : List Ty :=
  p.allNodes.flatMap (fun n => n.declared.map (·.ty)) ++ p.allConstants.map (·.ty) ++
    p.allTypes.flatMap fun t =>
      match t.body with
      | .record _ fields => fields.map (·.ty)
      | .aliasOf _ target => [target]
      | .enum _ => []

section Lookup

variable {p : Project}

theorem findNode_of_unresolved (h : p.resolution = none) (f : String) :
    p.findNode f = p.allNodes.find? (·.name = f) := by
  unfold Project.findNode Project.resolvedNodeName
  rw [h]
  split
  · rfl
  · next hany =>
    symm
    rw [Option.bind_eq_bind]
    refine (List.find?_eq_none.mpr fun n hn hname => hany ?_)
    exact List.any_eq_true.mpr ⟨n, hn, hname⟩

theorem enumVariantValue_eq (p : Project) (x : String) :
    enumVariantValue p x = if x ∈ variantNames p.allTypes then some (.enum x) else none := by
  unfold enumVariantValue
  refine if_congr ?_ rfl rfl
  rw [List.any_eq_true, variantNames, List.mem_flatMap]
  refine exists_congr fun t => and_congr_right fun _ => ?_
  cases t.body <;> simp

theorem mem_declaredTypes_of_field {x name : String} {fields : List RecordField}
    (h : findType p x = some (.record name fields)) {f : RecordField} (hf : f ∈ fields) :
    f.ty ∈ declaredTypes p := by
  obtain ⟨t, ht, hbody⟩ := Option.map_eq_some_iff.mp h
  refine List.mem_append_right _ (List.mem_flatMap.mpr ⟨t, List.mem_of_find?_eq_some ht, ?_⟩)
  rw [hbody]
  exact List.mem_map_of_mem hf

theorem mem_declaredTypes_of_target {x name : String} {target : Ty}
    (h : findType p x = some (.aliasOf name target)) : target ∈ declaredTypes p := by
  obtain ⟨t, ht, hbody⟩ := Option.map_eq_some_iff.mp h
  refine List.mem_append_right _ (List.mem_flatMap.mpr ⟨t, List.mem_of_find?_eq_some ht, ?_⟩)
  rw [hbody]
  exact List.mem_singleton_self target

theorem mem_declaredTypes_of_port {n : NodeDef} (hn : n ∈ p.allNodes) {port : Port}
    (hport : port ∈ n.declared) : port.ty ∈ declaredTypes p :=
  List.mem_append_left _ (List.mem_append_left _
    (List.mem_flatMap.mpr ⟨n, hn, List.mem_map_of_mem hport⟩))

end Lookup

section User

variable {lib : Library} {p : Project}

/-- What the project refers to by a name that a block has too is its own. -/
structure Own (lib : Library) (p : Project) : Prop where
  applied : ∀ e ∈ evaluated p, ∀ f ∈ e.applied,
    f ∈ lib.nodes.map (·.name) → f ∈ p.allNodes.map (·.name)
  type : ∀ ty ∈ declaredTypes p, ∀ x ∈ ty.named?,
    x ∈ lib.types.map (·.name) → x ∈ p.allTypes.map (·.name)
  read : ∀ e ∈ evaluated p, ∀ x ∈ e.freeVars,
    x ∈ variantNames lib.types → x ∈ variantNames p.allTypes

/-- What a project looks at itself. -/
def ownView (lib : Library) (p : Project) : View where
  node f := f ∈ lib.nodes.map (·.name) → f ∈ p.allNodes.map (·.name)
  type x := x ∈ lib.types.map (·.name) → x ∈ p.allTypes.map (·.name)
  read x := x ∈ variantNames lib.types → x ∈ variantNames p.allTypes
  name _ := True

variable (h : Own lib p)

include h

theorem Own.expression {e : Expr} (he : e ∈ evaluated p) : (ownView lib p).Expression e :=
  ⟨h.applied e he, h.read e he⟩

theorem Own.body {n : NodeDef} (hn : n ∈ p.allNodes) : (ownView lib p).Body n :=
  ⟨fun _ heq => h.expression (List.mem_append_left _
      (List.mem_flatMap.mpr ⟨n, hn, List.mem_map_of_mem heq⟩)),
    fun _ _ => trivial,
    fun _ hport => h.type _ (mem_declaredTypes_of_port hn hport)⟩

omit h in
theorem find?_mergeInto {α : Type} {name : α → String} {own others : List α} {x : String}
    (hx : x ∈ others.map name → x ∈ own.map name) :
    own.find? (fun a => decide (name a = x)) = (own ++ others).find? fun a => decide (name a = x) := by
  rw [List.find?_append]
  cases hfind : own.find? fun a => decide (name a = x) with
  | some a => rfl
  | none =>
    rw [Option.none_or]
    refine (List.find?_eq_none.mpr fun a ha heq => ?_).symm
    obtain rfl : name a = x := by simpa using heq
    obtain ⟨b, hb, hname⟩ := List.mem_map.mp (hx (List.mem_map_of_mem ha))
    exact List.find?_eq_none.mp hfind b hb (by simpa using hname)

theorem Own.same (hp : p.resolution = none) (packageName : String) :
    (ownView lib p).Same p (lib.mergeInto p packageName) := by
  have hnodes (f : String) (hf : (ownView lib p).node f) :
      f ∈ (lib.kept p).nodes.map (·.name) → f ∈ p.allNodes.map (·.name) :=
    fun hmem => hf (List.map_subset _ Library.nodes_kept_subset hmem)
  have htypes (x : String) (hx : (ownView lib p).type x) :
      x ∈ (lib.kept p).types.map (·.name) → x ∈ p.allTypes.map (·.name) :=
    fun hmem => hx (List.map_subset _ Library.types_kept_subset hmem)
  constructor
  · intro f hf
    rw [findNode_of_unresolved hp, findNode_of_unresolved (by simpa using hp),
      Library.allNodes_mergeInto]
    exact find?_mergeInto (hnodes f hf)
  · exact fun f _ n hn => h.body (Project.mem_of_findNode hn)
  · intro x hx
    unfold Simulator.findType
    rw [Library.allTypes_mergeInto, ← find?_mergeInto (htypes x hx)]
  · exact fun x _ name fields hbody f hf => h.type _ (mem_declaredTypes_of_field hbody hf)
  · exact fun x _ name target hbody => h.type _ (mem_declaredTypes_of_target hbody)
  · exact fun _ _ => trivial
  · intro x hx
    rw [enumVariantValue_eq, enumVariantValue_eq]
    refine if_congr ?_ rfl rfl
    simp only [Library.allTypes_mergeInto, variantNames, List.flatMap_append, List.mem_append]
    refine ⟨.inl, fun hmem => hmem.elim id fun hmem => hx ?_⟩
    obtain ⟨t, ht, hmem⟩ := List.mem_flatMap.mp hmem
    exact List.mem_flatMap.mpr ⟨t, Library.types_kept_subset ht, hmem⟩
  · intro x _
    simp only [Project.isConstant, Library.allConstants_mergeInto]
  · trivial

end User

/-- Merging a library leaves the runs of a project's own nodes as they are. -/
theorem merged_run {lib : Library} {p : Project} (hp : p.resolution = none) (h : Own lib p)
    (packageName : String) {m : Machine} {root : String} {sim : Sim}
    (hnew : Sim.new m p root = .ok sim) :
    ∃ merged, Sim.new m (lib.mergeInto p packageName) root = .ok merged ∧
      ∀ rows, (merged.run m (lib.mergeInto p packageName) rows).map (·.1) =
        (sim.run m p rows).map (·.1) := by
  have hsame := h.same hp packageName
  have hroot := (Sim.new_eq_ok hnew).1
  have hfind : p.findNode root = (lib.mergeInto p packageName).findNode root := by
    refine hsame.findNode root fun _ => ?_
    rw [findNode_of_unresolved hp] at hroot
    exact List.mem_map.mpr ⟨sim.node, List.mem_of_find?_eq_some hroot,
      by simpa using List.find?_some hroot⟩
  have hconstants : (lib.mergeInto p packageName).allConstants =
      p.allConstants.filter fun _ => true := by simp
  obtain ⟨merged, hmerged, halike⟩ := hsame.new hconstants
    (fun c hc _ => ⟨h.expression (List.mem_append_right _ (List.mem_map_of_mem hc)),
      h.type _ (List.mem_append_left _ (List.mem_append_right _ (List.mem_map_of_mem hc)))⟩)
    (by simp) hfind (fun n hn => h.body (Project.mem_of_findNode hn)) hnew
  exact ⟨merged, hmerged, fun rows => (hsame.run halike rows).symm⟩

def risingLibrary : Library where
  entries := [{
    node := {
      name := "Rising"
      kind := .operator
      inputs := [⟨"x", .bool⟩]
      outputs := [⟨"y", .bool⟩]
      locals := []
      equations := [⟨["y"], .binary .and (.var "x")
        (.unary .not (.arrow (.const (.bool false)) (.pre (.var "x"))))⟩] }
    extraTypes := [⟨.enum ⟨"Rising_StateEnum", ["Low", "High"]⟩⟩] }]

/-- The counter beside a library block. -/
theorem merged_run_counter : ∃ sim merged, Sim.new ⟨true, 8⟩ countProject "Counter" = .ok sim ∧
    Sim.new ⟨true, 8⟩ (risingLibrary.mergeInto countProject "stdlib") "Counter" = .ok merged ∧
    ∀ rows, (merged.run ⟨true, 8⟩ (risingLibrary.mergeInto countProject "stdlib") rows).map (·.1) =
      (sim.run ⟨true, 8⟩ countProject rows).map (·.1) := by
  have hstarts : (Sim.new ⟨true, 8⟩ countProject "Counter").toOption.isSome = true := by
    decide +kernel
  cases hsim : Sim.new ⟨true, 8⟩ countProject "Counter" with
  | error e => rw [hsim] at hstarts; cases hstarts
  | ok sim =>
    have hown : Own risingLibrary countProject := ⟨by decide, by decide, by decide⟩
    obtain ⟨merged, hmerged, hrun⟩ := merged_run rfl hown "stdlib" hsim
    exact ⟨sim, merged, rfl, hmerged, hrun⟩

section Blocks

variable {lib : Library} {p : Project}

/-- The blocks use no name that the project declares. -/
structure Apart (lib : Library) (p : Project) : Prop where
  node : ∀ n ∈ lib.nodes, n.name ∉ p.allNodes.map (·.name)
  applied : ∀ n ∈ lib.nodes, ∀ eq ∈ n.equations, ∀ f ∈ eq.rhs.applied,
    f ∉ p.allNodes.map (·.name)
  type : ∀ ty ∈ declaredTypes (lib.toProject ""), ∀ x ∈ ty.named?, x ∉ p.allTypes.map (·.name)
  read : ∀ n ∈ lib.nodes, ∀ eq ∈ n.equations, ∀ x ∈ eq.rhs.freeVars,
    x ∉ variantNames p.allTypes ∧ p.isConstant x = false
  declared : ∀ n ∈ lib.nodes, ∀ x ∈ n.declaredNames, p.isConstant x = false
  empty : p.isConstant "" = false

/-- What a block looks at. -/
def blockView (p : Project) : View where
  node f := f ∉ p.allNodes.map (·.name)
  type x := x ∉ p.allTypes.map (·.name)
  read x := x ∉ variantNames p.allTypes ∧ p.isConstant x = false
  name x := p.isConstant x = false

theorem find?_append_of_not_mem {α : Type} {name : α → String} {own others : List α} {x : String}
    (hx : x ∉ own.map name) :
    (own ++ others).find? (fun a => decide (name a = x)) =
      others.find? fun a => decide (name a = x) := by
  have hnone : own.find? (fun a => decide (name a = x)) = none := by
    refine List.find?_eq_none.mpr fun a ha heq => hx ?_
    exact List.mem_map.mpr ⟨a, ha, by simpa using heq⟩
  rw [List.find?_append, hnone, Option.none_or]

variable (h : Apart lib p)

include h

theorem Apart.kept : lib.kept p = lib := by
  refine Library.kept_eq_self fun n hn => Bool.eq_false_iff.mpr fun hany => h.node n hn ?_
  obtain ⟨d, hd, hname⟩ := List.any_eq_true.mp hany
  exact List.mem_map.mpr ⟨d, hd, by simpa using hname⟩

theorem Apart.body (packageName : String) {n : NodeDef} (hn : n ∈ lib.nodes) :
    (blockView p).Body n := by
  have hmem : n ∈ (lib.toProject packageName).allNodes := by simpa using hn
  refine ⟨fun eq heq => ⟨h.applied n hn eq heq, h.read n hn eq heq⟩, fun port hport => ?_,
    fun port hport => h.type port.ty (mem_declaredTypes_of_port hmem hport)⟩
  exact h.declared n hn port.name (List.mem_map_of_mem hport)

theorem Apart.same (hp : p.resolution = none) (packageName : String) :
    (blockView p).Same (lib.mergeInto p packageName) (lib.toProject packageName) := by
  have hnode (f : String) (hf : (blockView p).node f) :
      (lib.mergeInto p packageName).findNode f = (lib.toProject packageName).findNode f := by
    have hf : f ∉ p.allNodes.map (·.name) := hf
    rw [findNode_of_unresolved (by simpa using hp), findNode_of_unresolved rfl,
      Library.allNodes_mergeInto, Library.allNodes_toProject, h.kept, find?_append_of_not_mem hf]
  have htype (x : String) (hx : (blockView p).type x) :
      Simulator.findType (lib.mergeInto p packageName) x =
        Simulator.findType (lib.toProject packageName) x := by
    have hx : x ∉ p.allTypes.map (·.name) := hx
    unfold Simulator.findType
    rw [Library.allTypes_mergeInto, Library.allTypes_toProject, h.kept, find?_append_of_not_mem hx]
  constructor
  · exact hnode
  · intro f hf n hn
    rw [hnode f hf] at hn
    exact h.body packageName (by simpa using Project.mem_of_findNode hn)
  · exact htype
  · intro x hx name fields hbody f hf
    rw [htype x hx] at hbody
    exact h.type f.ty (mem_declaredTypes_of_field hbody hf)
  · intro x hx name target hbody
    rw [htype x hx] at hbody
    exact h.type target (mem_declaredTypes_of_target hbody)
  · exact fun _ hx => hx.2
  · intro x hx
    rw [enumVariantValue_eq, enumVariantValue_eq]
    refine if_congr ?_ rfl rfl
    simp only [Library.allTypes_mergeInto, Library.allTypes_toProject, h.kept, variantNames,
      List.flatMap_append, List.mem_append]
    exact or_iff_right hx.1
  · intro x hx
    have hnone : (lib.toProject packageName).isConstant x = false := by simp [Project.isConstant]
    have hx : p.isConstant x = false := hx
    rw [hnone, ← hx, Project.isConstant, Project.isConstant, Library.allConstants_mergeInto]
  · exact h.empty

end Blocks

/-- Beside a project a block runs as it does in the library alone. -/
theorem merged_block {lib : Library} {p : Project} (hp : p.resolution = none) (h : Apart lib p)
    (packageName : String) {m : Machine} {root : String} {sim : Sim}
    (hroot : root ∈ lib.nodes.map (·.name))
    (hnew : Sim.new m (lib.mergeInto p packageName) root = .ok sim) :
    ∃ alone, Sim.new m (lib.toProject packageName) root = .ok alone ∧
      ∀ rows, (alone.run m (lib.toProject packageName) rows).map (·.1) =
        (sim.run m (lib.mergeInto p packageName) rows).map (·.1) := by
  have hsame := h.same hp packageName
  obtain ⟨n, hn, rfl⟩ := List.mem_map.mp hroot
  have hnode : (blockView p).node n.name := h.node n hn
  have hconstants : (lib.toProject packageName).allConstants =
      (lib.mergeInto p packageName).allConstants.filter fun _ => false := by simp
  have hdropped (c : ConstDef) (hc : c ∈ (lib.mergeInto p packageName).allConstants)
      (_ : false = false) : ¬ (blockView p).name c.name := by
    rw [Library.allConstants_mergeInto] at hc
    have hconst : p.isConstant c.name = true := List.any_eq_true.mpr ⟨c, hc, by simp⟩
    intro hname
    exact absurd (hconst.symm.trans hname) (by simp)
  obtain ⟨alone, halone, halike⟩ := hsame.new hconstants (by simp) hdropped
    (hsame.findNode n.name hnode) (hsame.body n.name hnode) hnew
  exact ⟨alone, halone, fun rows => (hsame.run halike rows).symm⟩

/-- The block beside the counter. -/
theorem merged_block_rising : ∃ sim alone,
    Sim.new ⟨true, 8⟩ (risingLibrary.mergeInto countProject "stdlib") "Rising" = .ok sim ∧
    Sim.new ⟨true, 8⟩ (risingLibrary.toProject "stdlib") "Rising" = .ok alone ∧
    ∀ rows, (alone.run ⟨true, 8⟩ (risingLibrary.toProject "stdlib") rows).map (·.1) =
      (sim.run ⟨true, 8⟩ (risingLibrary.mergeInto countProject "stdlib") rows).map (·.1) := by
  have hstarts : (Sim.new ⟨true, 8⟩ (risingLibrary.mergeInto countProject "stdlib")
      "Rising").toOption.isSome = true := by decide +kernel
  cases hsim : Sim.new ⟨true, 8⟩ (risingLibrary.mergeInto countProject "stdlib") "Rising" with
  | error e => rw [hsim] at hstarts; cases hstarts
  | ok sim =>
    have hapart : Apart risingLibrary countProject :=
      ⟨by decide, by decide, by decide, by decide, by decide, by decide⟩
    obtain ⟨alone, halone, hrun⟩ := merged_block rfl hapart "stdlib" (by decide) hsim
    exact ⟨sim, alone, rfl, halone, hrun⟩

end OpenLustre.Simulator
