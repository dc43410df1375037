import Mathlib.Data.List.Perm.Subperm
import OpenLustre.CocospecEmit.Rewriter

/-! Runtime-error checks on their way up to the root: every node a call of which carries checks
gains them as outputs. -/

namespace OpenLustre.CocospecEmit

open OpenLustre.Ir

inductive RteKind
  | overflow
  | narrowing
  | divisionByZero
  | indexOutOfBounds
  | conversion
  deriving DecidableEq, Repr

/-- One check as proved at the root. -/
structure RteCheck where
  name : String
  kind : RteKind
  node : String
  path : String
  what : String
  deriving DecidableEq, Repr

/-- A check of a node: the local that holds it, what it guards against, and what must hold. -/
structure NodeCheck where
  localName : String
  kind : RteKind
  what : String
  deriving DecidableEq, Repr

abbrev NodeChecks : Type := List (String × List NodeCheck)

/-- A check on its way up to the root. -/
structure Pending where
  localName : String
  kind : RteKind
  node : String
  path : List String
  what : String
  deriving DecidableEq, Repr

/-- The nodes an expression calls, in the order they are visited. -/
def calls (e : Expr) : List String :=
  e.subterms.filterMap fun
    | .call node _ => some node
    | _ => none

def callees (n : NodeDef) : List String :=
  (n.equations.flatMap fun eq => calls eq.rhs).filter (· ≠ condact)

/-- The names seen by a walk, and those it has come back from. -/
structure Seen where
  seen : List String := []
  out : List String := []

section

variable (p : Project)

/-- Visit a node after the nodes it calls; `none` when the walk nests more than `fuel` deep. -/
def visit : Nat → String → Seen → Option Seen
  | 0, _, _ => none
  | fuel + 1, name, s =>
    if name ∈ s.seen then some s
    else
      match p.findNode name with
      | none => some ⟨name :: s.seen, s.out⟩
      | some n => do
        let s ← (callees n).foldlM (fun s c => visit fuel c s) ⟨name :: s.seen, s.out⟩
        some ⟨s.seen, s.out ++ [name]⟩

/-- The names a walk from the root can meet. -/
def metNames (root : String) : List String := root :: p.allNodes.flatMap callees

/-- The nodes the root reaches, every callee before its callers. -/
def calleeFirst (root : String) : Option (List String) :=
  (visit p ((metNames p root).length + 1) root {}).map (·.out)

variable {p} {root : String}

structure Seen.Within (s : Seen) (names : List String) : Prop where
  nodup : s.seen.Nodup
  subset : s.seen ⊆ names

theorem Seen.Within.length_le {s : Seen} {names : List String} (h : s.Within names) :
    s.seen.length ≤ names.length := (h.nodup.subperm h.subset).length_le

/-- What a walk that ends has done. -/
def Seen.Ends (s : Seen) (names : List String) (r : Option Seen) : Prop :=
  ∃ s', r = some s' ∧ s'.Within names ∧ s.seen.length ≤ s'.seen.length

theorem foldlM_visit_ends {names : List String} {fuel : Nat} {cs : List String} (least : Nat)
    (hvisit : ∀ c ∈ cs, ∀ s : Seen, s.Within names → least ≤ s.seen.length →
      s.Ends names (visit p fuel c s)) {s : Seen} (hs : s.Within names)
    (hleast : least ≤ s.seen.length) :
    s.Ends names (cs.foldlM (fun s c => visit p fuel c s) s) := by
  induction cs generalizing s with
  | nil => exact ⟨s, rfl, hs, le_rfl⟩
  | cons c cs ih =>
    obtain ⟨hc, hcs⟩ := List.forall_mem_cons.mp hvisit
    obtain ⟨s₁, h₁, hs₁, hlen₁⟩ := hc s hs hleast
    obtain ⟨s₂, h₂, hs₂, hlen₂⟩ := ih hcs hs₁ (hleast.trans hlen₁)
    refine ⟨s₂, ?_, hs₂, hlen₁.trans hlen₂⟩
    rw [List.foldlM_cons, h₁]
    exact h₂

theorem visit_ends {names : List String} (hnames : ∀ n ∈ p.allNodes, callees n ⊆ names)
    {fuel : Nat} {name : String} (hname : name ∈ names) {s : Seen} (hs : s.Within names)
    (hfuel : names.length < fuel + s.seen.length) : s.Ends names (visit p fuel name s) := by
  induction fuel generalizing name s with
  | zero => exact absurd hs.length_le (by omega)
  | succ fuel ih =>
    rw [visit]
    split
    case isTrue => exact ⟨s, rfl, hs, le_rfl⟩
    case isFalse hnew =>
      have hnext : Seen.Within ⟨name :: s.seen, s.out⟩ names :=
        ⟨List.nodup_cons.mpr ⟨hnew, hs.nodup⟩, List.cons_subset.mpr ⟨hname, hs.subset⟩⟩
      cases hfind : p.findNode name with
      | none => exact ⟨_, rfl, hnext, Nat.le_succ _⟩
      | some n =>
        have hvisit : ∀ c ∈ callees n, ∀ t : Seen, t.Within names →
            s.seen.length + 1 ≤ t.seen.length → t.Ends names (visit p fuel c t) := by
          intro c hc t ht hleast
          exact ih (hnames n (Project.mem_of_findNode hfind) hc) ht (by omega)
        obtain ⟨s', h', hs', hlen⟩ := foldlM_visit_ends _ hvisit hnext le_rfl
        refine ⟨⟨s'.seen, s'.out ++ [name]⟩, ?_, ⟨hs'.nodup, hs'.subset⟩, (Nat.le_succ _).trans hlen⟩
        simp only [h']
        rfl

/-- The walk ends on every project, also where nodes call each other in a circle. -/
theorem calleeFirst_ends (p : Project) (root : String) : ∃ out, calleeFirst p root = some out := by
  have hnames : ∀ n ∈ p.allNodes, callees n ⊆ metNames p root := fun n hn c hc =>
    List.mem_cons_of_mem _ (List.mem_flatMap.mpr ⟨n, hn, hc⟩)
  have hempty : Seen.Within {} (metNames p root) := ⟨List.nodup_nil, List.nil_subset _⟩
  have hfuel : (metNames p root).length < (metNames p root).length + 1 + ({} : Seen).seen.length := by
    simp
  obtain ⟨s, hs, -⟩ := visit_ends hnames List.mem_cons_self hempty hfuel
  exact ⟨s.out, by rw [calleeFirst, hs]; rfl⟩

end

/-- The node an equation calls, and whether the call is clocked. -/
def calleeOf : Expr → Option (String × Bool)
  | .call c args =>
    if c = condact then
      match args with
      | _ :: .call inner _ :: _ => some (inner, true)
      | _ => none
    else some (c, false)
  | _ => none

/-- The first of `__rtp0`, `__rtp1`, … from `k` on that is not taken. -/
def freshFrom (taken : List String) : Nat → Nat → String
  | 0, k => "__rtp" ++ toString k
  | fuel + 1, k =>
    if "__rtp" ++ toString k ∈ taken then freshFrom taken fuel (k + 1) else "__rtp" ++ toString k

def fresh (taken : List String) : String := freshFrom taken taken.length 0

/-- What passing checks up through the equations of a node has done. -/
structure Passing where
  taken : List String
  instances : List String := []
  newLocals : List Local := []
  mine : List Pending

abbrev Done : Type := List (String × List Pending)

/-- Pass one check of a callee up through the equation that calls it. -/
def passCheck (tag : String) (clocked : Bool) (s : Passing × Equation) (c : Pending) :
    Passing × Equation :=
  let (st, eq) := s
  let name := fresh st.taken
  -- Between ticks a clocked call's checks hold vacuously.
  let rhs :=
    match clocked, eq.rhs with
    | true, .call node args => .call node (args ++ [.const (.bool true)])
    | _, e => e
  ({ st with
      taken := name :: st.taken
      newLocals := st.newLocals ++ [⟨name, .bool⟩]
      mine := st.mine ++ [⟨name, c.kind, c.node, tag :: c.path, c.what⟩] },
    ⟨eq.lhs ++ [name], rhs⟩)

def passEquation (done : Done) (st : Passing) (eq : Equation) : Passing × Equation :=
  match calleeOf eq.rhs with
  | none => (st, eq)
  | some (callee, clocked) =>
    let st := { st with instances := callee :: st.instances }
    let tag := callee ++ "#" ++ toString (st.instances.count callee)
    ((done.lookup callee).getD []).foldl (passCheck tag clocked) (st, eq)

def passEquations (done : Done) (st : Passing) : List Equation → Passing × List Equation
  | [] => (st, [])
  | eq :: eqs =>
    let (st, eq) := passEquation done st eq
    let (st, eqs) := passEquations done st eqs
    (st, eq :: eqs)

/-- A node's own checks. -/
def ownChecks (checks : NodeChecks) (name : String) : List Pending :=
  ((checks.lookup name).getD []).map fun c => ⟨c.localName, c.kind, name, [], c.what⟩

/-- A node with the checks of its calls passed up, and all its checks. -/
def passNode (checks : NodeChecks) (root name : String) (done : Done) (n : NodeDef) :
    NodeDef × List Pending :=
  let (st, eqs) := passEquations done { taken := n.declaredNames, mine := ownChecks checks name }
    n.equations
  let n := { n with equations := eqs, locals := n.locals ++ st.newLocals }
  if name ≠ root ∧ st.mine ≠ [] then
    ({ n with
        locals := n.locals.filter fun l => l.name ∉ st.mine.map (·.localName)
        outputs := n.outputs ++ st.mine.map fun c => ⟨c.localName, .bool⟩ }, st.mine)
  else (n, st.mine)

/-- Change the first node of a name. -/
def updateFirst (name : String) (f : NodeDef → NodeDef) : List NodeDef → List NodeDef
  | [] => []
  | n :: ns => if n.name = name then f n :: ns else n :: updateFirst name f ns

def updateNode (name : String) (f : NodeDef → NodeDef) : List Package → List Package
  | [] => []
  | pkg :: pkgs =>
    if pkg.nodes.any (·.name = name) then
      { pkg with nodes := updateFirst name f pkg.nodes } :: pkgs
    else pkg :: updateNode name f pkgs

def propagateNode (checks : NodeChecks) (root : String) (s : Project × Done) (name : String) :
    Project × Done :=
  match s.1.allNodes.find? (·.name = name) with
  | none => s
  | some n =>
    let passed := passNode checks root name s.2 n
    ({ s.1 with packages := updateNode name (fun _ => passed.1) s.1.packages },
      (name, passed.2) :: s.2)

def checkAt (i : Nat) (c : Pending) : String × RteCheck :=
  (c.localName, ⟨"rte" ++ toString (i + 1), c.kind, c.node, String.intercalate " › " c.path, c.what⟩)

/-- Pass every node's checks up to the root as further outputs of each call instance; the
root's checks come with the locals that hold them. -/
def propagate (p : Project) (root : String) (checks : NodeChecks) :
    Option (Project × List (String × RteCheck)) := do
  let order ← calleeFirst p root
  let (p, done) := order.foldl (propagateNode checks root) (p, [])
  some (p, ((done.lookup root).getD []).mapIdx checkAt)

section

theorem map_updateFirst {α : Type} (g : NodeDef → α) {name : String} {f : NodeDef → NodeDef}
    {ns : List NodeDef} (h : ∀ n ∈ ns.find? (·.name = name), g (f n) = g n) :
    (updateFirst name f ns).map g = ns.map g := by
  induction ns with
  | nil => rfl
  | cons n ns ih =>
    rw [updateFirst]
    split
    case isTrue hn => simp [h n (by simp [hn])]
    case isFalse hn =>
      rw [List.map_cons, List.map_cons, ih]
      intro m hm
      exact h m (by simpa [hn] using hm)

/-- Changing a node changes nothing about the nodes that it keeps of that one. -/
theorem map_updateNode {α : Type} (g : NodeDef → α) {name : String} {f : NodeDef → NodeDef}
    {pkgs : List Package}
    (h : ∀ n ∈ (pkgs.flatMap (·.nodes)).find? (·.name = name), g (f n) = g n) :
    ((updateNode name f pkgs).flatMap (·.nodes)).map g = (pkgs.flatMap (·.nodes)).map g := by
  induction pkgs with
  | nil => rfl
  | cons pkg pkgs ih =>
    rw [List.flatMap_cons, List.find?_append] at h
    rw [updateNode]
    split
    case isTrue hany =>
      rw [List.flatMap_cons, List.flatMap_cons, List.map_append, List.map_append]
      obtain ⟨n, hn⟩ : ∃ n, pkg.nodes.find? (·.name = name) = some n :=
        Option.isSome_iff_exists.mp (List.find?_isSome.mpr (by simpa using hany))
      rw [map_updateFirst g]
      intro m hm
      exact h m (by simp_all)
    case isFalse hany =>
      rw [List.flatMap_cons, List.flatMap_cons, List.map_append, List.map_append, ih]
      intro m hm
      have hnone : pkg.nodes.find? (·.name = name) = none := by
        rw [List.find?_eq_none]
        intro n hn hname
        exact hany (List.any_eq_true.mpr ⟨n, hn, hname⟩)
      exact h m (by rw [hnone]; exact hm)

theorem passNode_name (checks : NodeChecks) (root name : String) (done : Done) (n : NodeDef) :
    (passNode checks root name done n).1.name = n.name := by
  unfold passNode
  dsimp only
  split <;> rfl

theorem propagateNode_names (checks : NodeChecks) (root : String) (s : Project × Done)
    (name : String) :
    (propagateNode checks root s name).1.allNodes.map (·.name) = s.1.allNodes.map (·.name) := by
  unfold propagateNode
  split
  case h_1 => rfl
  case h_2 n hn =>
    apply map_updateNode
    intro m hm
    rw [passNode_name]
    rw [Option.mem_def, ← Project.allNodes, hn, Option.some_inj] at hm
    rw [hm]

theorem propagateNodes_names (checks : NodeChecks) (root : String) (order : List String)
    (s : Project × Done) :
    (order.foldl (propagateNode checks root) s).1.allNodes.map (·.name) =
      s.1.allNodes.map (·.name) := by
  induction order generalizing s with
  | nil => rfl
  | cons name order ih => rw [List.foldl_cons, ih, propagateNode_names]

/-- Propagation neither adds nor renames a node. -/
theorem propagate_names {p : Project} {root : String} {checks : NodeChecks} {p' : Project}
    {proved : List (String × RteCheck)} (h : propagate p root checks = some (p', proved)) :
    p'.allNodes.map (·.name) = p.allNodes.map (·.name) := by
  obtain ⟨order, -, h⟩ := Option.bind_eq_some_iff.mp h
  obtain ⟨rfl, -⟩ := Prod.mk.inj (Option.some.inj h)
  exact propagateNodes_names checks root order (p, [])

end

end OpenLustre.CocospecEmit
