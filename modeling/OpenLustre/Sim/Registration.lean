import OpenLustre.Lib.Keyed
import OpenLustre.Sim.Coverage
import Mathlib.Logic.Relation

/-! Which decisions are registered when coverage is switched on: those of the nodes that
are called, directly or not, from the root. -/

namespace OpenLustre.Simulator

open OpenLustre.Ir OpenLustre.LustreEmit Keyed

/-- The if-conditions of a right-hand side, with their positions. -/
def ifConditions (site : Site) (rhs : Expr) : List (Site × Expr) :=
  (site.subterms rhs).filterMap fun (s, e) =>
    match e with
    | .ifThenElse cond _ _ => some (s.child 0, cond)
    | _ => none

/-- The decisions of a right-hand side: itself when it has two or more conditions, and
its if-conditions. -/
def decisionRoots (site : Site) (rhs : Expr) : List (Site × Expr) :=
  (if (decisionConditions site rhs).length ≥ 2 then [(site, rhs)] else []) ++ ifConditions site rhs

theorem mem_subterms_of_mem_ifConditions {site : Site} {rhs : Expr} {x : Site × Expr}
    (h : x ∈ ifConditions site rhs) : x ∈ site.subterms rhs := by
  obtain ⟨⟨s, e⟩, hs, hx⟩ := List.mem_filterMap.mp h
  cases e with
  | ifThenElse cond thenBranch elseBranch =>
    obtain rfl : (s.child 0, cond) = x := Option.some.inj hx
    apply Site.subterms_trans rhs site _ hs
    rw [Site.subterms]
    exact List.mem_cons_of_mem _ (List.mem_append_left _ (Site.self_mem_subterms _ cond))
  | _ => cases hx

theorem mem_subterms_of_mem_decisionRoots {site : Site} {rhs : Expr} {x : Site × Expr}
    (h : x ∈ decisionRoots site rhs) : x ∈ site.subterms rhs := by
  rcases List.mem_append.mp h with h | h
  · split at h
    · obtain rfl := List.mem_singleton.mp h
      exact site.self_mem_subterms rhs
    · cases h
  · exact mem_subterms_of_mem_ifConditions h

/-- The site of an if-condition before anything was seen there. -/
def freshSite (n : NodeDef) (eq : Equation) (x : Site × Expr) : DecisionSite :=
  ⟨x.1, n.name, String.intercalate ", " eq.lhs, formatExpr x.2, false, false⟩

def freshDecision (n : NodeDef) (eq : Equation) (x : Site × Expr) : DecisionData :=
  ⟨x.1, n.name, String.intercalate ", " eq.lhs, formatExpr x.2, decisionConditions x.1 x.2, []⟩

/-- The if-conditions of a node. -/
def nodeSites (n : NodeDef) : List DecisionSite :=
  n.equations.zipIdx.flatMap fun (eq, i) => (ifConditions ⟨n.name, i, []⟩ eq.rhs).map (freshSite n eq)

def nodeDecisions (n : NodeDef) : List DecisionData :=
  n.equations.zipIdx.flatMap fun (eq, i) =>
    (decisionRoots ⟨n.name, i, []⟩ eq.rhs).map (freshDecision n eq)

theorem mem_nodeSites {n : NodeDef} {s : DecisionSite} :
    s ∈ nodeSites n ↔ ∃ i eq, n.equations[i]? = some eq ∧
      ∃ x ∈ ifConditions ⟨n.name, i, []⟩ eq.rhs, freshSite n eq x = s := by
  simp only [nodeSites, List.mem_flatMap, List.mem_map, Prod.exists, List.mk_mem_zipIdx_iff_getElem?]
  exact ⟨fun ⟨eq, i, h⟩ => ⟨i, eq, h⟩, fun ⟨i, eq, h⟩ => ⟨eq, i, h⟩⟩

theorem mem_nodeDecisions {n : NodeDef} {d : DecisionData} :
    d ∈ nodeDecisions n ↔ ∃ i eq, n.equations[i]? = some eq ∧
      ∃ x ∈ decisionRoots ⟨n.name, i, []⟩ eq.rhs, freshDecision n eq x = d := by
  simp only [nodeDecisions, List.mem_flatMap, List.mem_map, Prod.exists,
    List.mk_mem_zipIdx_iff_getElem?]
  exact ⟨fun ⟨eq, i, h⟩ => ⟨i, eq, h⟩, fun ⟨i, eq, h⟩ => ⟨eq, i, h⟩⟩

/-- A position determines the equation and the expression there. -/
theorem eq_of_site_eq {n : NodeDef} {i j : Nat} {eq eq' : Equation} {x y : Site × Expr}
    (heq : n.equations[i]? = some eq) (heq' : n.equations[j]? = some eq')
    (hx : x ∈ (⟨n.name, i, []⟩ : Site).subterms eq.rhs)
    (hy : y ∈ (⟨n.name, j, []⟩ : Site).subterms eq'.rhs) (h : x.1 = y.1) : eq = eq' ∧ x = y := by
  have hi := (Site.below _ _ x hx).2.1
  have hj := (Site.below _ _ y hy).2.1
  obtain rfl : i = j := by rw [← show x.1.eq = i from hi, h, hj]
  obtain rfl : eq = eq' := Option.some.inj (heq.symm.trans heq')
  exact ⟨rfl, List.inj_on_of_nodup_map (Site.subterms_nodup _ _) hx hy h⟩

theorem nodeSites_inj {n : NodeDef} {s t : DecisionSite} (hs : s ∈ nodeSites n)
    (ht : t ∈ nodeSites n) (h : s.key = t.key) : s = t := by
  obtain ⟨i, eq, heq, x, hx, rfl⟩ := mem_nodeSites.mp hs
  obtain ⟨j, eq', heq', y, hy, rfl⟩ := mem_nodeSites.mp ht
  obtain ⟨rfl, rfl⟩ := eq_of_site_eq heq heq' (mem_subterms_of_mem_ifConditions hx)
    (mem_subterms_of_mem_ifConditions hy) h
  rfl

theorem nodeDecisions_inj {n : NodeDef} {s t : DecisionData} (hs : s ∈ nodeDecisions n)
    (ht : t ∈ nodeDecisions n) (h : s.key = t.key) : s = t := by
  obtain ⟨i, eq, heq, x, hx, rfl⟩ := mem_nodeDecisions.mp hs
  obtain ⟨j, eq', heq', y, hy, rfl⟩ := mem_nodeDecisions.mp ht
  obtain ⟨rfl, rfl⟩ := eq_of_site_eq heq heq' (mem_subterms_of_mem_decisionRoots hx)
    (mem_subterms_of_mem_decisionRoots hy) h
  rfl

theorem node_of_mem_nodeSites {n : NodeDef} {s : DecisionSite} (h : s ∈ nodeSites n) :
    s.key.node = n.name := by
  obtain ⟨i, eq, -, x, hx, rfl⟩ := mem_nodeSites.mp h
  exact (Site.below _ _ x (mem_subterms_of_mem_ifConditions hx)).1

theorem node_of_mem_nodeDecisions {n : NodeDef} {d : DecisionData} (h : d ∈ nodeDecisions n) :
    d.key.node = n.name := by
  obtain ⟨i, eq, -, x, hx, rfl⟩ := mem_nodeDecisions.mp h
  exact (Site.below _ _ x (mem_subterms_of_mem_decisionRoots hx)).1

namespace Coverage

theorem registerSite_eq (c : Coverage) (n : NodeDef) (eq : Equation) (x : Site × Expr) :
    c.registerSite n.name (String.intercalate ", " eq.lhs) x.1 x.2 =
      { c with sites := insertNew DecisionSite.key c.sites (freshSite n eq x) } := by
  unfold registerSite insertNew
  split
  case isTrue h => exact congrArg (fun sites => { c with sites := sites }) (if_pos h).symm
  case isFalse h => exact congrArg (fun sites => { c with sites := sites }) (if_neg h).symm

theorem registerDecision_eq (c : Coverage) (n : NodeDef) (eq : Equation) (x : Site × Expr) :
    c.registerDecision n.name (String.intercalate ", " eq.lhs) x.1 x.2 =
      { c with decisions := insertNew DecisionData.key c.decisions (freshDecision n eq x) } := by
  unfold registerDecision insertNew isRoot
  split
  case isTrue h => exact congrArg (fun decisions => { c with decisions := decisions }) (if_pos h).symm
  case isFalse h =>
    exact congrArg (fun decisions => { c with decisions := decisions }) (if_neg h).symm

/-- The coverage with the sites and decisions that are new to it. -/
def add (c : Coverage) (sites : List DecisionSite) (decisions : List DecisionData) : Coverage where
  sites := sites.foldl (insertNew DecisionSite.key) c.sites
  decisions := decisions.foldl (insertNew DecisionData.key) c.decisions

theorem add_add (c : Coverage) (s t : List DecisionSite) (d e : List DecisionData) :
    (c.add s d).add t e = c.add (s ++ t) (d ++ e) := by
  simp [add]

theorem registerEquation_eq (c : Coverage) (n : NodeDef) (i : Nat) (eq : Equation) :
    c.registerEquation n i eq =
      c.add ((ifConditions ⟨n.name, i, []⟩ eq.rhs).map (freshSite n eq))
        ((decisionRoots ⟨n.name, i, []⟩ eq.rhs).map (freshDecision n eq)) := by
  have hfold : ∀ (terms : List (Site × Expr)) (c : Coverage),
      terms.foldl (fun c (s, e) =>
        match e with
        | .ifThenElse cond _ _ =>
          (c.registerSite n.name (String.intercalate ", " eq.lhs) (s.child 0) cond).registerDecision
            n.name (String.intercalate ", " eq.lhs) (s.child 0) cond
        | _ => c) c =
      let found := terms.filterMap fun (s, e) =>
        match e with
        | .ifThenElse cond _ _ => some (s.child 0, cond)
        | _ => none
      c.add (found.map (freshSite n eq)) (found.map (freshDecision n eq)) := by
    intro terms
    induction terms with
    | nil => exact fun _ => rfl
    | cons t terms ih =>
      intro c
      obtain ⟨s, e⟩ := t
      rw [List.foldl_cons, ih]
      cases e with
      | ifThenElse cond thenBranch elseBranch =>
        simp only [List.filterMap_cons]
        rw [registerSite_eq c n eq (s.child 0, cond), registerDecision_eq _ n eq (s.child 0, cond)]
        simp only [add, List.map_cons, List.foldl_cons]
      | _ => rfl
  refine (hfold _ _).trans ?_
  unfold decisionRoots ifConditions
  split
  · rw [registerDecision_eq c n eq (_, eq.rhs)]
    simp only [add, List.singleton_append, List.map_cons, List.foldl_cons]
  · rfl

theorem registerNode_eq (c : Coverage) (n : NodeDef) :
    c.registerNode n = c.add (nodeSites n) (nodeDecisions n) := by
  have hfold : ∀ (eqs : List (Equation × Nat)) (c : Coverage),
      eqs.foldl (fun c (eq, i) => c.registerEquation n i eq) c =
        c.add (eqs.flatMap fun (eq, i) => (ifConditions ⟨n.name, i, []⟩ eq.rhs).map (freshSite n eq))
          (eqs.flatMap fun (eq, i) =>
            (decisionRoots ⟨n.name, i, []⟩ eq.rhs).map (freshDecision n eq)) := by
    intro eqs
    induction eqs with
    | nil => exact fun _ => rfl
    | cons eq eqs ih =>
      intro c
      obtain ⟨eq, i⟩ := eq
      rw [List.foldl_cons, ih, List.flatMap_cons, List.flatMap_cons, ← add_add]
      exact congrArg (fun c => Coverage.add c _ _) (registerEquation_eq c n i eq)
  exact hfold n.equations.zipIdx c

end Coverage

/-- A node calls another one in the right-hand side of an equation. -/
def CallsNode (p : Project) (n c : NodeDef) : Prop :=
  ∃ eq ∈ n.equations, ∃ f ∈ calleeNames eq.rhs, p.findNode f = some c

/-- An item is one of a node that is found under a visited name. -/
def FoundIn {ι : Type} (p : Project) (visited : List String) (of : NodeDef → List ι) (x : ι) : Prop :=
  ∃ n, p.findNode n.name = some n ∧ n.name ∈ visited ∧ x ∈ of n

/-- The sites and decisions of the nodes found under the visited names, and no others. -/
structure Registered (p : Project) (visited : List String) (c : Coverage) : Prop where
  sites : ∀ s, s ∈ c.sites ↔ FoundIn p visited nodeSites s
  decisions : ∀ d, d ∈ c.decisions ↔ FoundIn p visited nodeDecisions d

section

variable {p : Project} {ι : Type} {of : NodeDef → List ι} {key : ι → Site}
  (hnode : ∀ {n x}, x ∈ of n → (key x).node = n.name)
  (hinj : ∀ {n x y}, x ∈ of n → y ∈ of n → key x = key y → x = y)
include hnode hinj

/-- Nodes that are found under their own name share no key. -/
theorem eq_of_key_eq {n n' : NodeDef} (hn : p.findNode n.name = some n)
    (hn' : p.findNode n'.name = some n') {x y : ι} (hx : x ∈ of n) (hy : y ∈ of n')
    (h : key x = key y) : x = y := by
  have hname : n.name = n'.name := by rw [← hnode hx, h, hnode hy]
  rw [hname, hn'] at hn
  obtain rfl := Option.some.inj hn
  exact hinj hx hy h

theorem mem_foldl_insertNew_iff {visited : List String} {xs : List ι}
    (hxs : ∀ x, x ∈ xs ↔ FoundIn p visited of x) {n : NodeDef} (hn : p.findNode n.name = some n)
    (x : ι) :
    x ∈ (of n).foldl (insertNew key) xs ↔ FoundIn p (n.name :: visited) of x := by
  have hfound : ∀ x ∈ xs ++ of n, ∃ n, p.findNode n.name = some n ∧ x ∈ of n := by
    intro x hx
    rcases List.mem_append.mp hx with hx | hx
    · obtain ⟨k, hk, -, hx⟩ := (hxs x).mp hx
      exact ⟨k, hk, hx⟩
    · exact ⟨n, hn, hx⟩
  rw [mem_foldl_insertNew, hxs]
  · constructor
    · rintro (⟨k, hk, hv, hx⟩ | hx)
      · exact ⟨k, hk, List.mem_cons_of_mem _ hv, hx⟩
      · exact ⟨n, hn, List.mem_cons_self, hx⟩
    · rintro ⟨k, hk, hv, hx⟩
      rcases List.mem_cons.mp hv with hv | hv
      · rw [hv, hn] at hk
        obtain rfl := Option.some.inj hk
        exact .inr hx
      · exact .inl ⟨k, hk, hv, hx⟩
  · intro x hx y hy hxy
    obtain ⟨k, hk, hx⟩ := hfound x hx
    obtain ⟨l, hl, hy⟩ := hfound y hy
    exact eq_of_key_eq hnode hinj hk hl hx hy hxy

end

theorem Registered.registerNode {p : Project} {visited : List String} {c : Coverage}
    (h : Registered p visited c) {n : NodeDef} (hn : p.findNode n.name = some n) :
    Registered p (n.name :: visited) (c.registerNode n) := by
  rw [Coverage.registerNode_eq]
  constructor
  · exact mem_foldl_insertNew_iff node_of_mem_nodeSites nodeSites_inj h.sites hn
  · exact mem_foldl_insertNew_iff node_of_mem_nodeDecisions nodeDecisions_inj h.decisions hn

/-- The number of calls in a node. -/
def callCount (n : NodeDef) : Nat := (n.equations.flatMap fun eq => calleeNames eq.rhs).length

/-- The number of calls in the nodes not visited yet. -/
def pendingCalls (visited : List String) : List NodeDef → Nat
  | [] => 0
  | n :: ns => (if n.name ∈ visited then 0 else callCount n) + pendingCalls visited ns

theorem pendingCalls_le (visited : List String) (name : String) (ns : List NodeDef) :
    pendingCalls (name :: visited) ns ≤ pendingCalls visited ns := by
  induction ns with
  | nil => exact Nat.le_refl 0
  | cons k ns ih =>
    have hk : (if k.name ∈ name :: visited then 0 else callCount k) ≤
        if k.name ∈ visited then 0 else callCount k := by
      by_cases hv : k.name ∈ visited <;> by_cases hname : k.name = name <;> simp [hv, hname]
    exact Nat.add_le_add hk ih

theorem pendingCalls_cons {visited : List String} {n : NodeDef} {ns : List NodeDef}
    (hn : n ∈ ns) (hv : n.name ∉ visited) :
    pendingCalls (n.name :: visited) ns + callCount n ≤ pendingCalls visited ns := by
  induction ns with
  | nil => cases hn
  | cons k ns ih =>
    rcases List.mem_cons.mp hn with rfl | hn
    · have hle := pendingCalls_le visited n.name ns
      simp only [pendingCalls, List.mem_cons_self, if_true, if_neg hv]
      omega
    · have hrest := ih hn
      have hk := pendingCalls_le visited n.name [k]
      simp only [pendingCalls] at hk ⊢
      omega

theorem pendingCalls_nil (ns : List NodeDef) : pendingCalls [] ns = (ns.map callCount).sum := by
  induction ns with
  | nil => rfl
  | cons k ns ih => simp [pendingCalls, ih]

/-- The callees of a node, by name, but those already visited. -/
def newCallees (p : Project) (visited : List String) (n : NodeDef) : List String :=
  (((n.equations.flatMap fun eq => calleeNames eq.rhs).filter fun x =>
    !visited.contains x).filterMap p.findNode).map (·.name)

theorem registerCalled_cons {p : Project} {fuel : Nat} {visited queue : List String}
    {c : Coverage} {name : String} {n : NodeDef} (hv : name ∉ visited)
    (hn : p.findNode name = some n) :
    registerCalled p (fuel + 1) visited (name :: queue) c =
      registerCalled p fuel (name :: visited) (queue ++ newCallees p (name :: visited) n)
        (c.registerNode n) := by
  have hcontains : visited.contains name = false := by simpa using hv
  simp only [registerCalled, hcontains, Bool.false_eq_true, if_false, hn]
  rfl

theorem length_newCallees_le (p : Project) (visited : List String) (n : NodeDef) :
    (newCallees p visited n).length ≤ callCount n := by
  rw [newCallees, List.length_map]
  exact (List.length_filterMap_le _ _).trans (List.length_filter_le _ _)

/-- The names are those nodes are found under. -/
def Found (p : Project) (names : List String) : Prop :=
  ∀ x ∈ names, ∃ n, p.findNode x = some n ∧ n.name = x

theorem found_newCallees (p : Project) (visited : List String) (n : NodeDef) :
    Found p (newCallees p visited n) := by
  intro x hx
  obtain ⟨k, hk, rfl⟩ := List.mem_map.mp hx
  obtain ⟨f, -, hf⟩ := List.mem_filterMap.mp hk
  exact ⟨k, Project.findNode_name hf, rfl⟩

/-- A callee is among the visited nodes or new. -/
theorem mem_newCallees {p : Project} {visited : List String} {n k : NodeDef}
    (hvisited : Found p visited) (h : CallsNode p n k) :
    k.name ∈ visited ∨ k.name ∈ newCallees p visited n := by
  obtain ⟨eq, heq, f, hf, hk⟩ := h
  by_cases hv : f ∈ visited
  · obtain ⟨k', hk', hname⟩ := hvisited f hv
    obtain rfl := Option.some.inj (hk.symm.trans hk')
    exact .inl (hname ▸ hv)
  · refine .inr (List.mem_map.mpr ⟨k, List.mem_filterMap.mpr ⟨f, ?_, hk⟩, rfl⟩)
    exact List.mem_filter.mpr ⟨List.mem_flatMap.mpr ⟨eq, heq, hf⟩, by simpa using hv⟩

/-- What a sequence of calls leads to. -/
abbrev Called (p : Project) : NodeDef → NodeDef → Prop := Relation.ReflTransGen (CallsNode p)

/-- What registration keeps: the coverage is that of the visited names, the names lead to
nodes called from the root, and what those call is visited or queued. -/
structure Registering (p : Project) (root : NodeDef) (visited queue : List String)
    (c : Coverage) : Prop where
  registered : Registered p visited c
  foundVisited : Found p visited
  foundQueue : Found p queue
  called : ∀ n, p.findNode n.name = some n → n.name ∈ visited ∨ n.name ∈ queue → Called p root n
  closed : ∀ n, p.findNode n.name = some n → n.name ∈ visited → ∀ k, CallsNode p n k →
    k.name ∈ visited ∨ k.name ∈ queue

namespace Registering

variable {p : Project} {root n : NodeDef} {visited queue : List String} {c : Coverage}

theorem skip (h : Registering p root visited (n.name :: queue) c) (hv : n.name ∈ visited) :
    Registering p root visited queue c where
  registered := h.registered
  foundVisited := h.foundVisited
  foundQueue := (List.forall_mem_cons.mp h.foundQueue).2
  called k hk hmem := h.called k hk (hmem.imp id (List.mem_cons_of_mem _))
  closed k hk hmem l hl := by
    rcases h.closed k hk hmem l hl with hl | hl
    · exact .inl hl
    · rcases List.mem_cons.mp hl with hl | hl
      · exact .inl (hl ▸ hv)
      · exact .inr hl

theorem visit (h : Registering p root visited (n.name :: queue) c)
    (hn : p.findNode n.name = some n) :
    Registering p root (n.name :: visited) (queue ++ newCallees p (n.name :: visited) n)
      (c.registerNode n) := by
  have hcalled : Called p root n := h.called n hn (.inr List.mem_cons_self)
  have hvisited : Found p (n.name :: visited) := List.forall_mem_cons.mpr ⟨⟨n, hn, rfl⟩, h.foundVisited⟩
  refine ⟨h.registered.registerNode hn, hvisited, ?_, ?_, ?_⟩
  · exact List.forall_mem_append.mpr
      ⟨(List.forall_mem_cons.mp h.foundQueue).2, found_newCallees p _ n⟩
  · -- a new callee is called from `n`
    intro k hk hmem
    rw [List.mem_append, List.mem_cons] at hmem
    rcases hmem with (hmem | hmem) | hmem | hmem
    · exact h.called k hk (.inr (List.mem_cons.mpr (.inl hmem)))
    · exact h.called k hk (.inl hmem)
    · exact h.called k hk (.inr (List.mem_cons_of_mem _ hmem))
    · obtain ⟨k', hk', hname⟩ := List.mem_map.mp hmem
      obtain ⟨f, hf, hk'⟩ := List.mem_filterMap.mp hk'
      obtain ⟨eq, heq, hf⟩ := List.mem_flatMap.mp (List.mem_filter.mp hf).1
      have hsame := Project.findNode_name hk'
      rw [hname, hk] at hsame
      obtain rfl := Option.some.inj hsame
      exact hcalled.tail ⟨eq, heq, f, hf, hk'⟩
  · intro k hk hmem l hl
    rw [List.mem_append, List.mem_cons]
    rcases List.mem_cons.mp hmem with hmem | hmem
    · rw [hmem, hn] at hk
      obtain rfl := Option.some.inj hk
      exact (mem_newCallees hvisited hl).imp List.mem_cons.mp .inr
    · rcases h.closed k hk hmem l hl with hl | hl
      · exact .inl (.inr hl)
      · exact (List.mem_cons.mp hl).imp .inl .inl

/-- With nothing queued, what is visited is what is called from the root. -/
theorem mem_iff_called (h : Registering p root visited [] c) (hroot : root.name ∈ visited)
    (hfound : p.findNode root.name = some root) (hn : p.findNode n.name = some n) :
    n.name ∈ visited ↔ Called p root n := by
  constructor
  · exact fun hmem => h.called n hn (.inl hmem)
  · intro hcalled
    induction hcalled with
    | refl => exact hroot
    | tail hcalled hstep ih =>
      rename_i k l
      have hk : p.findNode k.name = some k := by
        cases hcalled with
        | refl => exact hfound
        | tail _ hstep =>
          obtain ⟨-, -, f, -, hf⟩ := hstep
          exact Project.findNode_name hf
      exact (h.closed k hk (ih hk) l hstep).resolve_right List.not_mem_nil

theorem start (hroot : p.findNode root.name = some root) : Registering p root [] [root.name] {} where
  registered := ⟨fun s => by simp [FoundIn], fun d => by simp [FoundIn]⟩
  foundVisited x hx := nomatch hx
  foundQueue x hx := ⟨root, by rwa [List.mem_singleton.mp hx], (List.mem_singleton.mp hx).symm⟩
  called n hn hmem := by
    have hname := List.mem_singleton.mp (hmem.resolve_left List.not_mem_nil)
    rw [hname, hroot] at hn
    obtain rfl := Option.some.inj hn
    exact .refl
  closed n _ hmem := nomatch hmem

theorem run (fuel : Nat) (h : Registering p root visited queue c)
    (hfuel : queue.length + pendingCalls visited p.allNodes ≤ fuel) :
    ∃ all, (∀ x, x ∈ visited ∨ x ∈ queue → x ∈ all) ∧
      Registering p root all [] (registerCalled p fuel visited queue c) := by
  induction fuel generalizing visited queue c with
  | zero =>
    obtain rfl : queue = [] := List.length_eq_zero_iff.mp (by omega)
    exact ⟨visited, fun x hx => hx.resolve_right List.not_mem_nil, h⟩
  | succ fuel ih =>
    cases queue with
    | nil => exact ⟨visited, fun x hx => hx.resolve_right List.not_mem_nil, h⟩
    | cons name queue =>
      obtain ⟨n, hn, rfl⟩ := h.foundQueue name List.mem_cons_self
      rw [List.length_cons] at hfuel
      by_cases hv : n.name ∈ visited
      · have hcontains : visited.contains n.name = true := by simpa using hv
        simp only [registerCalled, hcontains, if_true]
        obtain ⟨all, hall, hrun⟩ := ih (h.skip hv) (by omega)
        refine ⟨all, fun x hx => hall x ?_, hrun⟩
        rcases hx with hx | hx
        · exact .inl hx
        · rcases List.mem_cons.mp hx with rfl | hx
          · exact .inl hv
          · exact .inr hx
      · have hcost := pendingCalls_cons (Project.mem_of_findNode hn) hv
        have hnew := length_newCallees_le p (n.name :: visited) n
        rw [registerCalled_cons hv hn]
        obtain ⟨all, hall, hrun⟩ := ih (h.visit hn) (by rw [List.length_append]; omega)
        refine ⟨all, fun x hx => hall x ?_, hrun⟩
        rw [List.mem_cons, List.mem_append]
        rcases hx with hx | hx
        · exact .inl (.inr hx)
        · exact (List.mem_cons.mp hx).imp .inl .inl

end Registering

/-- Coverage registers the sites and decisions of the nodes called from the root, and no
others. -/
theorem enableCoverage_registered {p : Project} {root : NodeDef}
    (hroot : p.findNode root.name = some root) :
    (∀ s, s ∈ (enableCoverage p root).sites ↔
      ∃ n, p.findNode n.name = some n ∧ Called p root n ∧ s ∈ nodeSites n) ∧
    ∀ d, d ∈ (enableCoverage p root).decisions ↔
      ∃ n, p.findNode n.name = some n ∧ Called p root n ∧ d ∈ nodeDecisions n := by
  have hstart := Registering.start hroot
  obtain ⟨all, hall, hrun⟩ := hstart.run (registerFuel p) (by
    rw [pendingCalls_nil]
    exact Nat.le_refl _)
  have hiff := fun n hn => hrun.mem_iff_called (n := n)
    (hall root.name (.inr (List.mem_singleton.mpr rfl))) hroot hn
  have hfound : ∀ {ι : Type} (of : NodeDef → List ι) (x : ι), FoundIn p all of x ↔
      ∃ n, p.findNode n.name = some n ∧ Called p root n ∧ x ∈ of n := fun of x =>
    exists_congr fun n => and_congr_right fun hn => and_congr_left' (hiff n hn)
  exact ⟨fun s => (hrun.registered.sites s).trans (hfound nodeSites s),
    fun d => (hrun.registered.decisions d).trans (hfound nodeDecisions d)⟩

end OpenLustre.Simulator
