import OpenLustre.Ir.Kept
import OpenLustre.Sim.Agreement
import OpenLustre.Typecheck.Names

/-! A node runs in a slice as it does in the project. -/

namespace OpenLustre.Simulator

open OpenLustre.Ir

section Lookup

variable {p q : Project} {f r : String}

/-- The symbol that a resolution gives a name of the root project. -/
def resolvedSymbol (resolution : NativeResolution) (name : String) : Option NativeSymbol := do
  let (owner, localName, external) ←
    match Project.splitAlias [] name.toList with
    | some (qualifier, rest) =>
      if (Project.splitAlias [] rest).isSome then none
      else do
        let root ← resolution.projects.find? (·.projectId = resolution.rootProjectId)
        let dependency ← root.dependencies.find? (·.aliasName = String.ofList qualifier)
        some (dependency.projectId, String.ofList rest, true)
    | none => some (resolution.rootProjectId, name, false)
  resolution.symbols.find? fun s =>
    s.projectId = owner ∧ s.kind = "node" ∧ s.localName = localName ∧ (!external ∨ s.exported)

theorem resolvedNodeName_eq_some : p.resolvedNodeName f = some r ↔
    p.allNodes.any (·.name = r) = true ∧ (f = r ∨ p.allNodes.any (·.name = f) = false ∧
      ∃ symbol, p.resolution.bind (resolvedSymbol · f) = some symbol ∧ symbol.resolvedName = r) := by
  have hsymbol : p.resolvedNodeName f = if p.allNodes.any (·.name = f) then some f else
      (p.resolution.bind (resolvedSymbol · f)).bind fun symbol =>
        if p.allNodes.any (·.name = symbol.resolvedName) then some symbol.resolvedName else none := by
    unfold Project.resolvedNodeName resolvedSymbol
    split
    · rfl
    · cases p.resolution with
      | none => rfl
      | some resolution =>
        simp only [Option.bind_eq_bind, Option.bind_some]
        cases Project.splitAlias [] f.toList with
        | none => rfl
        | some pair =>
          obtain ⟨qualifier, rest⟩ := pair
          dsimp only
          split
          · rfl
          · simp only [Option.bind_assoc]
  rw [hsymbol]
  split
  · next hany =>
    simp only [Option.some.injEq, hany, Bool.true_eq_false, false_and, or_false]
    exact ⟨fun heq => ⟨heq ▸ hany, heq⟩, fun h => h.2⟩
  · next hany =>
    rw [Option.bind_eq_some_iff]
    constructor
    · rintro ⟨symbol, hsymbol, hr⟩
      split at hr
      · next hmem =>
        obtain rfl := Option.some.inj hr
        exact ⟨hmem, .inr ⟨by simpa using hany, symbol, hsymbol, rfl⟩⟩
      · cases hr
    · rintro ⟨hmem, rfl | ⟨-, symbol, hsymbol, rfl⟩⟩
      · exact absurd hmem hany
      · exact ⟨symbol, hsymbol, if_pos hmem⟩

/-- A name leads where it does when the nodes it can lead to are there. -/
theorem resolvedNodeName_congr (hresolution : p.resolution = q.resolution)
    (hf : p.allNodes.any (·.name = f) = q.allNodes.any (·.name = f))
    (hr : p.allNodes.any (·.name = r) = true → q.allNodes.any (·.name = r) = true)
    (h : p.resolvedNodeName f = some r) : q.resolvedNodeName f = some r := by
  rw [resolvedNodeName_eq_some] at h ⊢
  rw [← hresolution, ← hf]
  exact ⟨hr h.1, h.2⟩

theorem any_of_resolvedNodeName (h : p.resolvedNodeName f = some r) :
    p.allNodes.any (·.name = r) = true :=
  (resolvedNodeName_eq_some.mp h).1

theorem findNode_of_resolved (h : p.resolvedNodeName f = some r) :
    p.findNode f = p.allNodes.find? (·.name = r) := by
  simp [Project.findNode, h]

theorem findNode_of_any (h : p.allNodes.any (·.name = f) = true) :
    p.findNode f = p.allNodes.find? (·.name = f) :=
  findNode_of_resolved (by rw [Project.resolvedNodeName, if_pos h])

theorem any_of_findNode {n : NodeDef} (h : p.findNode f = some n) (hname : n.name = f) :
    p.allNodes.any (·.name = f) = true :=
  List.any_eq_true.mpr ⟨n, Project.mem_of_findNode h, by simpa using hname⟩

theorem exists_resolved {n : NodeDef} (h : p.findNode f = some n) :
    p.resolvedNodeName f = some n.name := by
  obtain ⟨r, hr, hn⟩ := Option.bind_eq_some_iff.mp h
  obtain rfl : n.name = r := by simpa using List.find?_some hn
  exact hr

end Lookup

section Parts

variable {k : Project.Kept} {types : List String}

theorem any_congr_mem {α : Type} {f g : α → Bool} {l : List α} (h : ∀ x ∈ l, f x = g x) :
    l.any f = l.any g := by
  induction l with
  | nil => rfl
  | cons x l ih =>
    rw [List.forall_mem_cons] at h
    rw [List.any_cons, List.any_cons, h.1, ih h.2]

theorem flatMap_sliced {α : Type} {items : Package → List α} {keep : α → Bool}
    (hkeep : ∀ pkg, items (Project.keepPackage k types pkg) = (items pkg).filter keep)
    (hempty : ∀ pkg, Project.emptyPackage pkg = true → items pkg = []) (packages : List Package) :
    ((packages.map (Project.keepPackage k types)).filter fun pkg =>
      !Project.emptyPackage pkg).flatMap items = (packages.flatMap items).filter keep := by
  induction packages with
  | nil => rfl
  | cons pkg packages ih =>
    rw [List.map_cons, List.filter_cons, List.flatMap_cons, List.filter_append, ← ih]
    split
    · rw [List.flatMap_cons, hkeep]
    · next hnot =>
      have hnone : (items pkg).filter keep = [] := by
        rw [← hkeep]
        exact hempty _ (by simpa using hnot)
      rw [hnone, List.nil_append]

theorem nothing_of_emptyPackage {pkg : Package} (h : Project.emptyPackage pkg = true) :
    pkg.nodes = [] ∧ pkg.types = [] ∧ pkg.constants = [] := by
  simp only [Project.emptyPackage, Bool.and_eq_true, List.isEmpty_iff] at h
  tauto

end Parts

/-- The expressions a simulation evaluates. -/
def evaluated (p : Project) : List Expr :=
  p.allNodes.flatMap (fun n => n.equations.map (·.rhs)) ++ p.allConstants.map (·.value)

/-- A project whose names can be told apart: a node is applied under its own name, and no port
or local is named as a constant. -/
structure Distinct (p : Project) : Prop where
  applied : ∀ e ∈ evaluated p, ∀ f ∈ e.applied, ∀ n ∈ p.findNode f, n.name = f
  declared : ∀ n ∈ p.allNodes, ∀ x ∈ n.declaredNames, p.isConstant x = false
  empty : p.isConstant "" = false

/-- What a slice shows of a project. -/
def sliceView (p : Project) (k : Project.Kept) (types : List String) : View where
  node f := f ∈ k.nodes ∧ ∀ n ∈ p.findNode f, n.name = f
  type x := x ∈ types
  read x := x ∈ k.freeVars
  name x := p.isConstant x = true → x ∈ k.constants

section Slice

variable {p q : Project} {root : String} {k : Project.Kept} {types : List String}

/-- The named types in the declaration of a type. -/
def typeBodyRefs : TypeBody → List String
  | .record _ fields => fields.flatMap (·.ty.named?)
  | .aliasOf _ target => target.named?
  | .enum _ => []

/-- What is sliced from a project. -/
structure SlicedTo (p : Project) (k : Project.Kept) (types : List String) (q : Project) : Prop where
  nodes : q.allNodes = p.allNodes.filter (k.nodes.contains ·.name)
  types : q.allTypes = p.allTypes.filter (types.contains ·.name)
  constants : q.allConstants = p.allConstants.filter (k.constants.contains ·.name)
  resolution : p.resolution = q.resolution

theorem slicedTo_of_sliceForRoot (h : p.sliceForRoot root = .ok q) :
    ∃ resolved, p.resolvedNodeName root = some resolved ∧
      SlicedTo p (p.keptFor resolved) (p.keepTypes (p.keptFor resolved)) q := by
  unfold Project.sliceForRoot at h
  split at h
  · cases h
  · next resolved hselected =>
    obtain rfl := Except.ok.inj h
    refine ⟨resolved, ?_, ?_, ?_, ?_, rfl⟩
    · unfold Project.selectedNodeName at hselected
      obtain ⟨name, hname, hselected⟩ := Option.bind_eq_some_iff.mp hselected
      rw [hname]
      split at hselected
      · exact hselected
      · obtain ⟨symbol, -, hselected⟩ := Option.bind_eq_some_iff.mp hselected
        split at hselected
        · exact hselected
        · obtain ⟨source, -, hselected⟩ := Option.bind_eq_some_iff.mp hselected
          split at hselected
          · exact hselected
          · cases hselected
    · exact flatMap_sliced (fun _ => rfl) (fun _ h => (nothing_of_emptyPackage h).1) _
    · exact flatMap_sliced (fun _ => rfl) (fun _ h => (nothing_of_emptyPackage h).2.1) _
    · exact flatMap_sliced (fun _ => rfl) (fun _ h => (nothing_of_emptyPackage h).2.2) _

theorem Distinct.expression (hp : Distinct p) {e : Expr} (he : e ∈ evaluated p)
    (happlied : e.applied ⊆ k.nodes) (hfree : e.freeVars ⊆ k.freeVars) :
    (sliceView p k types).Expression e :=
  ⟨fun f hf => ⟨happlied hf, hp.applied e he f hf⟩, fun _ hx => hfree hx⟩

variable (h : SlicedTo p k types q)

include h

theorem SlicedTo.any_node {f : String} (hf : f ∈ k.nodes) :
    p.allNodes.any (·.name = f) = q.allNodes.any (·.name = f) := by
  rw [h.nodes, List.any_filter]
  congr 1
  funext n
  by_cases hn : n.name = f
  · simp [hn, hf]
  · simp [hn]

theorem SlicedTo.any_node_le {f : String} (hq : q.allNodes.any (·.name = f) = true) :
    p.allNodes.any (·.name = f) = true := by
  rw [h.nodes, List.any_filter] at hq
  obtain ⟨n, hn, hname⟩ := List.any_eq_true.mp hq
  exact List.any_eq_true.mpr ⟨n, hn, by simp_all⟩

theorem SlicedTo.find_node {f : String} (hf : f ∈ k.nodes) :
    p.allNodes.find? (·.name = f) = q.allNodes.find? (·.name = f) := by
  rw [h.nodes, List.find?_filter]
  congr 1
  funext n
  by_cases hn : n.name = f
  · simp [hn, hf]
  · simp [hn]

theorem SlicedTo.findNode {f : String} (hf : f ∈ k.nodes)
    (hown : ∀ n ∈ p.findNode f, n.name = f) : p.findNode f = q.findNode f := by
  cases hp : p.findNode f with
  | some n =>
    have hany := any_of_findNode hp (hown n hp)
    rw [← hp, findNode_of_any hany, findNode_of_any ((h.any_node hf).symm.trans hany)]
    exact h.find_node hf
  | none =>
    cases hq : q.findNode f with
    | none => rfl
    | some n =>
      have hresolved := resolvedNodeName_congr h.resolution.symm (h.any_node hf).symm h.any_node_le
        (exists_resolved hq)
      rw [findNode_of_resolved hresolved] at hp
      obtain ⟨d, hd, hname⟩ := List.any_eq_true.mp (any_of_resolvedNodeName hresolved)
      exact absurd hname (List.find?_eq_none.mp hp d hd)

theorem SlicedTo.findNode_root {resolved : String} (hresolved : p.resolvedNodeName root = some resolved)
    (hkept : resolved ∈ k.nodes) : p.findNode root = q.findNode root := by
  have hany : p.allNodes.any (·.name = root) = q.allNodes.any (·.name = root) := by
    cases hp : p.allNodes.any (·.name = root) with
    | true =>
      have hroot : root = resolved := by simpa [Project.resolvedNodeName, hp] using hresolved
      rw [← hp, hroot]
      exact h.any_node hkept
    | false =>
      cases hq : q.allNodes.any (·.name = root) with
      | true => rw [h.any_node_le hq] at hp; cases hp
      | false => rfl
  have hresolved' := resolvedNodeName_congr h.resolution hany
    (fun hr => (h.any_node hkept).symm.trans hr) hresolved
  rw [findNode_of_resolved hresolved, findNode_of_resolved hresolved', h.find_node hkept]

theorem SlicedTo.findType {x : String} (hx : x ∈ types) : findType p x = findType q x := by
  unfold Simulator.findType
  rw [h.types, List.find?_filter]
  congr 2
  funext t
  by_cases ht : t.name = x
  · simp [ht, hx]
  · simp [ht]

theorem SlicedTo.isConstant {x : String} (hx : p.isConstant x = true → x ∈ k.constants) :
    p.isConstant x = q.isConstant x := by
  unfold Project.isConstant at hx ⊢
  rw [h.constants, List.any_filter]
  cases hp : p.allConstants.any (·.name = x) with
  | true =>
    rw [← hp]
    congr 1
    funext c
    by_cases hc : c.name = x
    · simp [hc, hx hp]
    · simp [hc]
  | false =>
    refine (Bool.eq_false_iff.mpr fun hany => ?_).symm
    obtain ⟨c, hc, hname⟩ := List.any_eq_true.mp hany
    refine absurd (List.any_eq_true.mpr ⟨c, hc, ?_⟩) (Bool.eq_false_iff.mp hp)
    simp_all

variable {resolved : String} (hk : k.Complete p resolved)
  (htypes : Project.TypesClosed p k types) (hp : Distinct p)

include htypes

theorem SlicedTo.variant {x : String} (hx : x ∈ k.freeVars) :
    enumVariantValue p x = enumVariantValue q x := by
  unfold enumVariantValue
  rw [h.types, List.any_filter]
  refine if_congr (Bool.eq_iff_iff.mp (any_congr_mem fun t ht => ?_)) rfl rfl
  cases hbody : t.body with
  | enum e =>
    by_cases hv : x ∈ e.variants
    · have hname : t.name = e.name := by simp [TypeDef.name, hbody]
      simp [hname, htypes.variant t ht e hbody x hv hx]
    · simp [hv]
  | record => simp
  | aliasOf => simp

include hk hp

omit h in
theorem Distinct.body {f : String} (hf : f ∈ k.nodes) {n : NodeDef} (hn : n ∈ p.findNode f) :
    (sliceView p k types).Body n := by
  have hmem := Project.mem_of_findNode hn
  refine ⟨fun eq heq => ?_, fun port hport hconst => ?_, fun port hport x hx => ?_⟩
  · refine hp.expression ?_ (fun g hg => ?_) (hk.gathered.freeVars f hf n hn eq heq)
    · exact List.mem_append_left _ (List.mem_flatMap.mpr ⟨n, hmem, List.mem_map_of_mem heq⟩)
    · refine hk.gathered.closed.next f hf g ?_
      rw [Project.appliedBy, hn]
      exact List.mem_append_left _ (List.mem_flatMap.mpr ⟨eq, heq, hg⟩)
  · rw [hp.declared n hmem port.name (List.mem_map_of_mem hport)] at hconst
    cases hconst
  · exact htypes.used port.ty (hk.gathered.types f hf n hn port hport) hx

theorem SlicedTo.same : (sliceView p k types).Same p q := by
  have hrefs (x : String) (hx : x ∈ types) (body : TypeBody)
      (hbody : Simulator.findType p x = some body) (y : String)
      (hy : y ∈ typeBodyRefs body) : y ∈ types := by
    obtain ⟨t, ht, rfl⟩ := Option.map_eq_some_iff.mp hbody
    refine htypes.refs.next x hx y (List.mem_flatMap.mpr ⟨t, List.mem_filter.mpr
      ⟨List.mem_of_find?_eq_some ht, by simpa using List.find?_some ht⟩, hy⟩)
  constructor
  · exact fun f hf => h.findNode hf.1 hf.2
  · exact fun f hf n hn => hp.body hk htypes hf.1 hn
  · exact fun x hx => h.findType hx
  · exact fun x hx name fields hbody f hf y hy =>
      hrefs x hx _ hbody y (List.mem_flatMap.mpr ⟨f, hf, hy⟩)
  · exact fun x hx name target hbody y hy => hrefs x hx _ hbody y hy
  · intro x hx hconst
    obtain ⟨c, hc, hname⟩ := List.any_eq_true.mp hconst
    obtain rfl : c.name = x := by simpa using hname
    exact hk.settled c hc hx
  · exact fun x hx => h.variant htypes hx
  · exact fun x hx => h.isConstant hx
  · intro hconst
    rw [hp.empty] at hconst
    cases hconst

omit h in
theorem Distinct.constant {c : ConstDef} (hc : c ∈ p.allConstants) (hkept : c.name ∈ k.constants) :
    (sliceView p k types).Expression c.value ∧ (sliceView p k types).Types c.ty := by
  have hconstant := hk.constants c hc hkept
  refine ⟨hp.expression ?_ (fun f hf => ?_) hconstant.freeVars,
    htypes.used c.ty hconstant.type⟩
  · exact List.mem_append_right _ (List.mem_map_of_mem hc)
  · exact (hconstant.applied f hf).resolve_right List.not_mem_nil

end Slice

/-- In every cycle a node of the slice has the outputs, or the error, that it has in the project. -/
theorem sliced_run {p slice : Project} {root : String} (hp : Typecheck.Accepted p)
    (hnames : Distinct p) (hslice : p.sliceForRoot root = .ok slice) {m : Machine} {sim : Sim}
    (hnew : Sim.new m p root = .ok sim) :
    ∃ sliced, Sim.new m slice root = .ok sliced ∧
      ∀ rows, (sliced.run m slice rows).map (·.1) = (sim.run m p rows).map (·.1) := by
  obtain ⟨resolved, hresolved, h⟩ := slicedTo_of_sliceForRoot hslice
  have hk := Project.keptFor_complete hp.constants_nodup resolved
  have htypes := Project.keepTypes_closed (p := p) (p.keptFor resolved)
  have hsame := h.same hk htypes hnames
  have hbody (n : NodeDef) (hn : n ∈ p.findNode root) :
      (sliceView p (p.keptFor resolved) (p.keepTypes (p.keptFor resolved))).Body n := by
    refine hnames.body hk htypes hk.root ?_
    rw [findNode_of_any (any_of_resolvedNodeName hresolved), ← findNode_of_resolved hresolved]
    exact hn
  have hdropped (c : ConstDef) (hc : c ∈ p.allConstants)
      (hdrop : (p.keptFor resolved).constants.contains c.name = false) :
      ¬ (sliceView p (p.keptFor resolved) (p.keepTypes (p.keptFor resolved))).name c.name := by
    intro hname
    have hconst : p.isConstant c.name = true := List.any_eq_true.mpr ⟨c, hc, by simp⟩
    simp [hname hconst] at hdrop
  obtain ⟨sliced, hsliced, halike⟩ := hsame.new h.constants
    (fun c hc hkept => hnames.constant hk htypes hc (by simpa using hkept)) hdropped
    (h.findNode_root hresolved hk.root) hbody hnew
  exact ⟨sliced, hsliced, fun rows => (hsame.run halike rows).symm⟩

section Count

/-- A counter by a constant step, in a project with a node, a type and a constant that it does
not use. -/
def countProject : Project where
  packages := [{
    name := "main"
    types := [⟨.enum ⟨"Unit", ["Metre"]⟩⟩, ⟨.aliasOf "Count" .int32⟩]
    constants := [⟨"FAR", .int32, .call "Double" [.const (.int 8)]⟩,
      ⟨"STEP", .named "Count", .const (.int 2)⟩]
    nodes := [{
      name := "Double"
      kind := .function
      inputs := [⟨"x", .int32⟩]
      outputs := [⟨"y", .int32⟩]
      locals := []
      equations := [⟨["y"], .binary .add (.var "x") (.var "x")⟩] }, {
      name := "Counter"
      kind := .operator
      inputs := []
      outputs := [⟨"n", .int32⟩]
      locals := []
      equations := [⟨["n"], .arrow (.var "STEP") (.binary .add (.pre (.var "n")) (.var "STEP"))⟩] }] }]

theorem countProject_distinct : Distinct countProject :=
  ⟨by decide, by decide, by decide⟩

/-- The counter runs without the node it does not call and the constant that calls it. -/
theorem sliced_run_counter : ∃ slice sim sliced, countProject.sliceForRoot "Counter" = .ok slice ∧
    slice.allNodes.map (·.name) = ["Counter"] ∧ slice.allConstants.map (·.name) = ["STEP"] ∧
    Sim.new ⟨true, 8⟩ countProject "Counter" = .ok sim ∧
    Sim.new ⟨true, 8⟩ slice "Counter" = .ok sliced ∧
    ∀ rows, (sliced.run ⟨true, 8⟩ slice rows).map (·.1) =
      (sim.run ⟨true, 8⟩ countProject rows).map (·.1) := by
  have hstarts : (Sim.new ⟨true, 8⟩ countProject "Counter").toOption.isSome = true := by
    decide +kernel
  cases hsim : Sim.new ⟨true, 8⟩ countProject "Counter" with
  | error e => rw [hsim] at hstarts; cases hstarts
  | ok sim =>
    have hslice : countProject.sliceForRoot "Counter" = .ok _ := rfl
    obtain ⟨sliced, hsliced, hrun⟩ := sliced_run (by decide +kernel) countProject_distinct hslice hsim
    exact ⟨_, sim, sliced, rfl, rfl, rfl, rfl, hsliced, hrun⟩

end Count

end OpenLustre.Simulator
