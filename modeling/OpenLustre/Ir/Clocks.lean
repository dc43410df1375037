import Mathlib.Data.List.Nodup
import OpenLustre.Ir.Project

/-! Clock inference for `when` and `merge`.  Every expression runs on a clock,
the base clock or a chain of boolean variables that sample it.  The temporal and
call sites that the source identifies by address are identified here by their
position in the node. -/

namespace OpenLustre.Ir

inductive Clock
  | base
  | on (clock : String) (on : Bool) (parent : Clock)
  deriving DecidableEq, Repr

namespace Clock

def isBase : Clock → Bool
  | .base => true
  | .on _ _ _ => false

/-- Stable identity for state keys: `base`, `base/c+`, `base/c+/d-`. -/
def key : Clock → String
  | .base => "base"
  | .on clock active parent => parent.key ++ "/" ++ clock ++ (if active then "+" else "-")

/-- The boolean tests from the base outward. -/
def conditions : Clock → List (String × Bool)
  | .base => []
  | .on clock active parent => parent.conditions ++ [(clock, active)]

def describe (ck : Clock) : String :=
  if ck.conditions.isEmpty then "the base clock"
  else
    let part : String × Bool → String := fun (v, active) =>
      if active then "when " ++ v else "when not " ++ v
    "clock `" ++ String.intercalate " " (ck.conditions.map part) ++ "`"

end Clock

/-- A position in a project: the node, the equation of its body, and the path
from the equation's right-hand side, innermost step first. -/
structure Site where
  node : String
  eq : Nat
  path : List Nat
  deriving DecidableEq, Repr

def Site.child (s : Site) (k : Nat) : Site := ⟨s.node, s.eq, k :: s.path⟩

mutual

/-- The subexpressions of `e` with their positions, itself first. -/
def Site.subterms (site : Site) (e : Expr) : List (Site × Expr) :=
  (site, e) ::
    match e with
    | .const _ | .var _ => []
    | .unary _ arg | .pre arg | .cast _ arg | .when arg _ _ | .field arg _ =>
      (site.child 0).subterms arg
    | .binary _ lhs rhs | .arrow lhs rhs | .index lhs rhs | .merge _ lhs rhs =>
      (site.child 0).subterms lhs ++ (site.child 1).subterms rhs
    | .ifThenElse c t e =>
      (site.child 0).subterms c ++ ((site.child 1).subterms t ++ (site.child 2).subterms e)
    | .call _ items | .tuple items | .array items => site.subtermsList 0 items
    | .struct _ fields => site.subtermsFields 0 fields
    | .iterate _ _ none arrays => site.subtermsList 0 arrays
    | .iterate _ _ (some init) arrays =>
      (site.child 0).subterms init ++ site.subtermsList 1 arrays

def Site.subtermsList (site : Site) (k : Nat) : List Expr → List (Site × Expr)
  | [] => []
  | e :: es => (site.child k).subterms e ++ site.subtermsList (k + 1) es

def Site.subtermsFields (site : Site) (k : Nat) : List (String × Expr) → List (Site × Expr)
  | [] => []
  | (_, e) :: fields => (site.child k).subterms e ++ site.subtermsFields (k + 1) fields

end

theorem Site.subtermsList_eq (site : Site) (k : Nat) (es : List Expr) :
    site.subtermsList k es = (es.zipIdx k).flatMap fun (e, i) => (site.child i).subterms e := by
  induction es generalizing k with
  | nil => rfl
  | cons e es ih => simp [subtermsList, List.zipIdx_cons, ih]

theorem Site.subtermsFields_eq (site : Site) (k : Nat) (fields : List (String × Expr)) :
    site.subtermsFields k fields = site.subtermsList k (fields.map (·.2)) := by
  induction fields generalizing k with
  | nil => rfl
  | cons f fields ih => simp [subtermsFields, subtermsList, ih]

theorem Site.subterms_eq (site : Site) (e : Expr) :
    site.subterms e = (site, e) :: site.subtermsList 0 e.children := by
  cases e with
  | struct ty fields => simp [subterms, Expr.children, subtermsFields_eq]
  | iterate kind node init arrays =>
    cases init <;> simp [subterms, Expr.children, subtermsList]
  | _ => simp [subterms, Expr.children, subtermsList]

/-- The subexpressions at the sites are those of the expression. -/
theorem Site.map_subterms (e : Expr) : ∀ site : Site, (site.subterms e).map (·.2) = e.subterms := by
  induction e using Expr.children_induct with
  | h e ih =>
  intro site
  have hlist : ∀ es k, (∀ c ∈ es, ∀ site : Site, (site.subterms c).map (·.2) = c.subterms) →
      (site.subtermsList k es).map (·.2) = es.flatMap Expr.subterms := by
    intro es
    induction es with
    | nil => exact fun _ _ => rfl
    | cons c es ih =>
      intro k h
      rw [List.forall_mem_cons] at h
      rw [subtermsList, List.map_append, h.1, ih (k + 1) h.2, List.flatMap_cons]
  rw [subterms_eq, List.map_cons, hlist _ 0 ih, Expr.subterms_eq]

/-- Every site of an expression lies below that of the expression. -/
theorem Site.below (e : Expr) : ∀ (site : Site), ∀ x ∈ site.subterms e,
    x.1.node = site.node ∧ x.1.eq = site.eq ∧ site.path <:+ x.1.path := by
  induction e using Expr.children_induct with
  | h e ih =>
  intro site x hx
  rw [subterms_eq, subtermsList_eq, List.mem_cons, List.mem_flatMap] at hx
  rcases hx with rfl | ⟨⟨c, k⟩, hc, hx⟩
  · exact ⟨rfl, rfl, List.suffix_refl _⟩
  · obtain ⟨hnode, heq, hpath⟩ := ih c (List.fst_mem_of_mem_zipIdx hc) (site.child k) x hx
    exact ⟨hnode, heq, (List.suffix_cons k site.path).trans hpath⟩

/-- The sites of different children differ. -/
theorem Site.child_inj {site : Site} {k l : Nat} {c d : Expr} {x y : Site × Expr}
    (hx : x ∈ (site.child k).subterms c) (hy : y ∈ (site.child l).subterms d) (hxy : x.1 = y.1) :
    k = l := by
  have hk := (below c (site.child k) x hx).2.2
  have hl := (below d (site.child l) y hy).2.2
  rw [← hxy] at hl
  have hsame := List.suffix_of_suffix_length_le hk hl (Nat.le_refl _)
  exact (List.cons.inj (hsame.eq_of_length rfl)).1

theorem Site.subterms_nodup (e : Expr) : ∀ site : Site, ((site.subterms e).map (·.1)).Nodup := by
  induction e using Expr.children_induct with
  | h e ih =>
  intro site
  rw [subterms_eq, subtermsList_eq, List.map_cons, List.nodup_cons, List.map_flatMap]
  constructor
  · -- a child's path is longer
    intro hmem
    obtain ⟨⟨c, k⟩, hc, hmem⟩ := List.mem_flatMap.mp hmem
    obtain ⟨x, hx, hsite⟩ := List.mem_map.mp hmem
    have hlen := (below c (site.child k) x hx).2.2.length_le
    rw [hsite] at hlen
    exact absurd hlen (Nat.not_succ_le_self _)
  · rw [List.nodup_flatMap]
    constructor
    · intro ⟨c, k⟩ hc
      exact ih c (List.fst_mem_of_mem_zipIdx hc) (site.child k)
    · -- the paths of different children end in different steps
      have hidx : (e.children.zipIdx.map (·.2)).Nodup := by
        rw [List.zipIdx_map_snd]
        exact List.nodup_range'
      refine (List.pairwise_map.mp hidx).imp ?_
      intro ⟨c, k⟩ ⟨d, l⟩ hkl s hs hs'
      obtain ⟨x, hx, rfl⟩ := List.mem_map.mp hs
      obtain ⟨y, hy, hxy⟩ := List.mem_map.mp hs'
      exact hkl (child_inj hx hy hxy.symm)

theorem Site.self_mem_subterms (site : Site) (e : Expr) : (site, e) ∈ site.subterms e := by
  rw [subterms_eq]
  exact List.mem_cons_self

/-- The sites below a site of an expression are sites of the expression. -/
theorem Site.subterms_trans (e : Expr) : ∀ (site : Site), ∀ x ∈ site.subterms e,
    ∀ y ∈ x.1.subterms x.2, y ∈ site.subterms e := by
  induction e using Expr.children_induct with
  | h e ih =>
  intro site x hx y hy
  rw [subterms_eq, subtermsList_eq, List.mem_cons, List.mem_flatMap] at hx
  rcases hx with rfl | ⟨⟨c, k⟩, hc, hx⟩
  · exact hy
  · rw [subterms_eq, subtermsList_eq]
    exact List.mem_cons_of_mem _ (List.mem_flatMap.mpr
      ⟨(c, k), hc, ih c (List.fst_mem_of_mem_zipIdx hc) (site.child k) x hx y hy⟩)

/-- The subexpression at a path, innermost step first. -/
def Expr.at (e : Expr) : List Nat → Option Expr
  | [] => some e
  | k :: path => (e.at path).bind (·.children[k]?)

/-- The expression at a site of a project. -/
def Project.exprAt (p : Project) (site : Site) : Option Expr := do
  let n ← p.allNodes.find? (·.name = site.node)
  let eq ← n.equations[site.eq]?
  eq.rhs.at site.path

theorem Project.exprAt_root {p : Project} {n : NodeDef} {i : Nat} {eq : Equation}
    (hn : p.allNodes.find? (·.name = n.name) = some n) (heq : n.equations[i]? = some eq) :
    p.exprAt ⟨n.name, i, []⟩ = some eq.rhs := by
  simp [exprAt, hn, heq, Expr.at]

theorem Project.exprAt_child {p : Project} {site : Site} {e c : Expr} {k : Nat}
    (he : p.exprAt site = some e) (hc : e.children[k]? = some c) :
    p.exprAt (site.child k) = some c := by
  unfold exprAt at he ⊢
  obtain ⟨n, hn, he⟩ := Option.bind_eq_some_iff.mp he
  obtain ⟨eq, heq, he⟩ := Option.bind_eq_some_iff.mp he
  exact Option.bind_eq_some_iff.mpr ⟨n, hn, Option.bind_eq_some_iff.mpr
    ⟨eq, heq, Option.bind_eq_some_iff.mpr ⟨e, he, hc⟩⟩⟩

structure ClockError where
  equation : Option Nat
  message : String
  deriving DecidableEq, Repr

/-- What a walk over the right-hand sides records: the clock of every `pre` and
`->` site and of every call site, and the violations. -/
structure SiteClocks where
  sites : List (Site × Clock) := []
  calls : List (Site × Clock) := []
  errors : List ClockError := []
  deriving DecidableEq, Repr

namespace SiteClocks

def append (a b : SiteClocks) : SiteClocks :=
  ⟨a.sites ++ b.sites, a.calls ++ b.calls, a.errors ++ b.errors⟩

instance : Append SiteClocks := ⟨append⟩

@[simp] theorem append_sites (a b : SiteClocks) : (a ++ b).sites = a.sites ++ b.sites := rfl
@[simp] theorem append_calls (a b : SiteClocks) : (a ++ b).calls = a.calls ++ b.calls := rfl
@[simp] theorem append_errors (a b : SiteClocks) : (a ++ b).errors = a.errors ++ b.errors := rfl

def error (eq : Nat) (message : String) : SiteClocks := { errors := [⟨some eq, message⟩] }

end SiteClocks

structure ClockInfo where
  /-- One clock per equation, in declaration order. -/
  equationClocks : List Clock := []
  siteClocks : List (Site × Clock) := []
  callClocks : List (Site × Clock) := []
  /-- The distinct non-base clocks that host `pre` and `->` sites, by key. -/
  chains : List Clock := []
  errors : List ClockError := []
  deriving DecidableEq, Repr

def nodeUsesClocks (n : NodeDef) : Bool := n.equations.any (·.rhs.usesClocks)

abbrev VarClocks := String → Option Clock

def stripSampling : Option Clock → Option Clock
  | some (.on _ _ parent) => some parent
  | _ => none

mutual

/-- The clock an expression naturally produces, when determinable without full
checking; `none` means clock-polymorphic. -/
def naturalClock (vc : VarClocks) : Expr → Option Clock
  | .var name => vc name
  | .const _ => none
  | .when arg clock on =>
    let parent := ((naturalClock vc arg).or (vc clock)).getD .base
    some (.on clock on parent)
  | .merge clock t f =>
    (vc clock).or ((stripSampling (naturalClock vc t)).or (stripSampling (naturalClock vc f)))
  | .unary _ arg | .pre arg | .cast _ arg => naturalClock vc arg
  | .field base _ => naturalClock vc base
  | .binary _ lhs rhs | .arrow lhs rhs => (naturalClock vc lhs).or (naturalClock vc rhs)
  | .ifThenElse c t e => (naturalClock vc c).or ((naturalClock vc t).or (naturalClock vc e))
  | .index base i => (naturalClock vc base).or (naturalClock vc i)
  | .call _ args => naturalClockList vc args
  | .tuple items | .array items => naturalClockList vc items
  | .struct _ fields => naturalClockFields vc fields
  | .iterate _ _ none arrays => naturalClockList vc arrays
  | .iterate _ _ (some init) arrays => (naturalClock vc init).or (naturalClockList vc arrays)

def naturalClockList (vc : VarClocks) : List Expr → Option Clock
  | [] => none
  | e :: es => (naturalClock vc e).or (naturalClockList vc es)

def naturalClockFields (vc : VarClocks) : List (String × Expr) → Option Clock
  | [] => none
  | (_, e) :: fields => (naturalClock vc e).or (naturalClockFields vc fields)

end

/-- A clock variable must itself live on the parent clock it samples. -/
def checkClockVar (vc : VarClocks) (eq : Nat) (clock : String) (parent : Clock) : SiteClocks :=
  match vc clock with
  | some ck =>
    if ck = parent then {}
    else .error eq ("clock variable `" ++ clock ++ "` is on " ++ ck.describe ++
      " but samples a stream on " ++ parent.describe)
  | none => {}

mutual

/-- Top-down check that an expression runs on `expected`, recording the clock of
every temporal and call site on the way down. -/
def checkExpr (vc : VarClocks) (eq : Nat) (site : Site) (expected : Clock) : Expr → SiteClocks
  | .const _ => {}
  | .var name =>
    match vc name with
    | some ck =>
      if ck = expected then {}
      else .error eq ("`" ++ name ++ "` is on " ++ ck.describe ++ " but is used here on " ++
        expected.describe ++ " — sample it with `when` or join it with `merge` first")
    | none => {}
  | .when arg clock on =>
    let recover : SiteClocks :=
      .error eq ("`when " ++ (if on then "" else "not ") ++ clock ++
        "` produces a sampled stream, but this position expects " ++ expected.describe ++
        " — every operand of an operator must be on the same clock") ++
        checkExpr vc eq (site.child 0) ((naturalClock vc arg).getD .base) arg
    match expected with
    | .on c o parent =>
      if c = clock ∧ o = on then
        checkClockVar vc eq clock parent ++ checkExpr vc eq (site.child 0) parent arg
      else recover
    | .base => recover
  | .merge clock t f =>
    checkClockVar vc eq clock expected ++
      (checkExpr vc eq (site.child 0) (.on clock true expected) t ++
        checkExpr vc eq (site.child 1) (.on clock false expected) f)
  | .pre arg =>
    { sites := [(site, expected)] } ++ checkExpr vc eq (site.child 0) expected arg
  | .arrow init body =>
    { sites := [(site, expected)] } ++
      (checkExpr vc eq (site.child 0) expected init ++ checkExpr vc eq (site.child 1) expected body)
  | .call _ args => { calls := [(site, expected)] } ++ checkExprList vc eq site 0 expected args
  | .unary _ arg | .cast _ arg => checkExpr vc eq (site.child 0) expected arg
  | .field base _ => checkExpr vc eq (site.child 0) expected base
  | .binary _ lhs rhs =>
    checkExpr vc eq (site.child 0) expected lhs ++ checkExpr vc eq (site.child 1) expected rhs
  | .ifThenElse c t e =>
    checkExpr vc eq (site.child 0) expected c ++
      (checkExpr vc eq (site.child 1) expected t ++ checkExpr vc eq (site.child 2) expected e)
  | .index base i =>
    checkExpr vc eq (site.child 0) expected base ++ checkExpr vc eq (site.child 1) expected i
  | .tuple items | .array items => checkExprList vc eq site 0 expected items
  | .struct _ fields => checkExprFields vc eq site 0 expected fields
  | .iterate _ _ none arrays => checkExprList vc eq site 0 expected arrays
  | .iterate _ _ (some init) arrays =>
    checkExpr vc eq (site.child 0) expected init ++ checkExprList vc eq site 1 expected arrays

def checkExprList (vc : VarClocks) (eq : Nat) (site : Site) (k : Nat) (expected : Clock) :
    List Expr → SiteClocks
  | [] => {}
  | e :: es =>
    checkExpr vc eq (site.child k) expected e ++ checkExprList vc eq site (k + 1) expected es

def checkExprFields (vc : VarClocks) (eq : Nat) (site : Site) (k : Nat) (expected : Clock) :
    List (String × Expr) → SiteClocks
  | [] => {}
  | (_, e) :: fields =>
    checkExpr vc eq (site.child k) expected e ++ checkExprFields vc eq site (k + 1) expected fields

end

namespace NodeDef

def ioNames (n : NodeDef) : List String := (n.inputs ++ n.outputs).map (·.name)

/-- Inputs and outputs are base-clocked by definition. -/
def ioClocks (n : NodeDef) : VarClocks := fun name =>
  if n.ioNames.contains name then some .base else none

end NodeDef

/-- The left-hand sides that equation `eq` puts on a clock they are not on yet. -/
def clockUpdates (n : NodeDef) (vc : VarClocks) (eq : Equation) (ck : Clock) : List String :=
  eq.lhs.filter fun l => !n.ioNames.contains l && decide (vc l ≠ some ck)

/-- Give the left-hand side of one equation its natural clock. -/
def clockStep (n : NodeDef) (vc : VarClocks) (eq : Equation) : VarClocks × Bool :=
  match naturalClock vc eq.rhs with
  | some ck =>
    let updates := clockUpdates n vc eq ck
    (fun name => if updates.contains name then some ck else vc name, !updates.isEmpty)
  | none => (vc, false)

/-- One pass over the equations; the flag tells whether a clock changed. -/
def clockPass (n : NodeDef) (vc : VarClocks) : VarClocks × Bool :=
  n.equations.foldl (fun (vc, changed) eq =>
    let (vc', c) := clockStep n vc eq
    (vc', changed || c)) (vc, false)

/-- Repeat passes while a clock changes, `fuel` times at most. -/
def clockFixpoint (n : NodeDef) : Nat → VarClocks → VarClocks
  | 0, vc => vc
  | fuel + 1, vc =>
    let (vc', changed) := clockPass n vc
    if changed then clockFixpoint n fuel vc' else vc'

def varClocks (n : NodeDef) : VarClocks :=
  clockFixpoint n (n.equations.length + 1) n.ioClocks

def equationClock (n : NodeDef) (eq : Equation) : Clock :=
  (naturalClock (varClocks n) eq.rhs).getD .base

/-- Every left-hand side must live on the clock of its equation. -/
def checkLhs (n : NodeDef) (i : Nat) (eq : Equation) : SiteClocks :=
  let ck := equationClock n eq
  eq.lhs.foldl (fun acc l =>
    match varClocks n l with
    | some lck =>
      if lck = ck then acc
      else acc ++ .error i ("`" ++ l ++ "` is on " ++ lck.describe ++
        " but its defining equation runs on " ++ ck.describe ++
        (if n.ioNames.contains l then
          " — inputs and outputs are always base-clocked; use merge(...) to bring the stream back up"
        else ""))
    | none => acc) {}

def checkEquation (n : NodeDef) (i : Nat) (eq : Equation) : SiteClocks :=
  checkLhs n i eq ++ checkExpr (varClocks n) i ⟨n.name, i, []⟩ (equationClock n eq) eq.rhs

/-- Insert a clock into a list sorted by key, unless it is there. -/
def insertChain (ck : Clock) : List Clock → List Clock
  | [] => [ck]
  | c :: cs =>
    if c = ck then c :: cs
    else if ck.key < c.key then ck :: c :: cs
    else c :: insertChain ck cs

/-- Infer and check the clocks of one node.  Violations land in the errors and
the offending expressions fall back to deterministic clocks. -/
def inferClocks (n : NodeDef) : ClockInfo :=
  let found := (n.equations.zipIdx.map fun (eq, i) => checkEquation n i eq).foldl (· ++ ·) ({} : SiteClocks)
  { equationClocks := n.equations.map (equationClock n)
    siteClocks := found.sites
    callClocks := found.calls
    chains := (found.sites.map (·.2)).foldl
      (fun chains ck => if ck.isBase then chains else insertChain ck chains) []
    errors := found.errors }

/-- Every variable of the chain is one of the names. -/
def Clock.From (names : String → Prop) : Clock → Prop
  | .base => True
  | .on clock _ parent => names clock ∧ parent.From names

theorem Clock.From.conditions {names : String → Prop} {ck : Clock} (h : ck.From names) :
    ∀ c ∈ ck.conditions, names c.1 := by
  induction ck with
  | base => simp [Clock.conditions]
  | on clock active parent ih =>
    intro c hc
    rcases List.mem_append.mp hc with hc | hc
    · exact ih h.2 c hc
    · obtain rfl := List.mem_singleton.mp hc
      exact h.1

section

variable {names : String → Prop} {vc : VarClocks}

def Mentions (names : String → Prop) (e : Expr) : Prop :=
  ∀ t ∈ e.subterms, ∀ x, t.readName = some x → names x

theorem Mentions.child {e c : Expr} (h : Mentions names e) (hc : c ∈ e.children) :
    Mentions names c :=
  fun t ht => h t (Expr.subterms_of_child hc ht)

theorem Mentions.self {e : Expr} (h : Mentions names e) {x : String} (hx : e.readName = some x) :
    names x :=
  h e (Expr.self_mem_subterms e) x hx

theorem naturalClockList_eq_some {es : List Expr} {ck : Clock}
    (h : naturalClockList vc es = some ck) : ∃ e ∈ es, naturalClock vc e = some ck := by
  induction es with
  | nil => simp [naturalClockList] at h
  | cons e es ih =>
    rcases Option.or_eq_some_iff.mp h with h | ⟨-, h⟩
    · exact ⟨e, List.mem_cons_self, h⟩
    · obtain ⟨e', he', h⟩ := ih h
      exact ⟨e', List.mem_cons_of_mem _ he', h⟩

theorem naturalClockFields_eq_some {fields : List (String × Expr)} {ck : Clock}
    (h : naturalClockFields vc fields = some ck) :
    ∃ e ∈ fields.map (·.2), naturalClock vc e = some ck := by
  induction fields with
  | nil => simp [naturalClockFields] at h
  | cons f fields ih =>
    rcases Option.or_eq_some_iff.mp h with h | ⟨-, h⟩
    · exact ⟨f.2, by simp, h⟩
    · obtain ⟨e', he', h⟩ := ih h
      exact ⟨e', List.mem_cons_of_mem _ he', h⟩

theorem Clock.From.strip {o : Option Clock} {ck : Clock} (h : ∀ c, o = some c → c.From names)
    (hck : stripSampling o = some ck) : ck.From names := by
  cases o with
  | none => simp [stripSampling] at hck
  | some c =>
    cases c with
    | base => simp [stripSampling] at hck
    | on clock active parent =>
      obtain rfl : parent = ck := by simpa [stripSampling] using hck
      exact (h _ rfl).2

/-- The natural clock of an expression is sampled by variables it mentions or
reads the clock of. -/
theorem naturalClock_from (hvc : ∀ x ck, vc x = some ck → ck.From names) (e : Expr) :
    ∀ ck, Mentions names e → naturalClock vc e = some ck → ck.From names := by
  induction e using Expr.children_induct with
  | h e ih =>
  intro ck hm h
  have hc (c : Expr) (hmem : c ∈ e.children) (ck : Clock) (hck : naturalClock vc c = some ck) :
      ck.From names := ih c hmem ck (hm.child hmem) hck
  cases e with
  | const lit => simp [naturalClock] at h
  | var name => exact hvc name ck h
  | unary _ arg | pre arg | cast _ arg | field arg _ =>
    exact hc arg (by simp [Expr.children]) ck h
  | binary _ lhs rhs | arrow lhs rhs | index lhs rhs =>
    rcases Option.or_eq_some_iff.mp h with h | ⟨-, h⟩
    · exact hc lhs (by simp [Expr.children]) ck h
    · exact hc rhs (by simp [Expr.children]) ck h
  | ifThenElse c t e =>
    rcases Option.or_eq_some_iff.mp h with h | ⟨-, h⟩
    · exact hc c (by simp [Expr.children]) ck h
    · rcases Option.or_eq_some_iff.mp h with h | ⟨-, h⟩
      · exact hc t (by simp [Expr.children]) ck h
      · exact hc e (by simp [Expr.children]) ck h
  | call _ items | tuple items | array items =>
    obtain ⟨c, hmem, h⟩ := naturalClockList_eq_some h
    exact hc c hmem ck h
  | struct _ fields =>
    obtain ⟨c, hmem, h⟩ := naturalClockFields_eq_some h
    exact hc c hmem ck h
  | when arg clock on =>
    obtain rfl : Clock.on clock on (((naturalClock vc arg).or (vc clock)).getD .base) = ck := by
      simpa [naturalClock] using h
    refine ⟨hm.self rfl, ?_⟩
    cases hor : (naturalClock vc arg).or (vc clock) with
    | none => exact trivial
    | some parent =>
      rcases Option.or_eq_some_iff.mp hor with h | ⟨-, h⟩
      · exact hc arg (by simp [Expr.children]) parent h
      · exact hvc clock parent h
  | merge clock t f =>
    rcases Option.or_eq_some_iff.mp h with h | ⟨-, h⟩
    · exact hvc clock ck h
    · rcases Option.or_eq_some_iff.mp h with h | ⟨-, h⟩
      · exact Clock.From.strip (fun c => hc t (by simp [Expr.children]) c) h
      · exact Clock.From.strip (fun c => hc f (by simp [Expr.children]) c) h
  | iterate _ _ init arrays =>
    cases init with
    | none =>
      obtain ⟨c, hmem, h⟩ := naturalClockList_eq_some h
      exact hc c hmem ck h
    | some init =>
      rcases Option.or_eq_some_iff.mp h with h | ⟨-, h⟩
      · exact hc init (by simp [Expr.children]) ck h
      · obtain ⟨c, hmem, h⟩ := naturalClockList_eq_some h
        exact hc c (by simp [Expr.children, hmem]) ck h

/-- The variables a node mentions in its equations. -/
def NodeDef.Mentioned (n : NodeDef) (x : String) : Prop :=
  ∃ t ∈ n.bodyTerms, t.readName = some x

theorem NodeDef.mentions_rhs {n : NodeDef} {eq : Equation} (heq : eq ∈ n.equations) :
    Mentions n.Mentioned eq.rhs :=
  fun t ht _ hx => ⟨t, List.mem_flatMap.mpr ⟨eq, heq, ht⟩, hx⟩

def VarClocks.From (names : String → Prop) (vc : VarClocks) : Prop :=
  ∀ x ck, vc x = some ck → ck.From names

theorem clockStep_from {n : NodeDef} {eq : Equation} (hvc : vc.From n.Mentioned)
    (heq : eq ∈ n.equations) : (clockStep n vc eq).1.From n.Mentioned := by
  unfold clockStep
  cases h : naturalClock vc eq.rhs with
  | none => exact hvc
  | some ck =>
    have hck := naturalClock_from hvc eq.rhs ck (n.mentions_rhs heq) h
    intro x ck' hx
    simp only at hx
    split at hx
    · cases hx
      exact hck
    · exact hvc x ck' hx

theorem clockPass_from {n : NodeDef} (hvc : vc.From n.Mentioned) :
    (clockPass n vc).1.From n.Mentioned := by
  refine List.foldlRecOn (motive := fun (acc : VarClocks × Bool) => acc.1.From n.Mentioned) _ _ hvc ?_
  intro acc hacc eq heq
  exact clockStep_from hacc heq

theorem clockFixpoint_from {n : NodeDef} (fuel : Nat) (hvc : vc.From n.Mentioned) :
    (clockFixpoint n fuel vc).From n.Mentioned := by
  induction fuel generalizing vc with
  | zero => exact hvc
  | succ fuel ih =>
    simp only [clockFixpoint]
    split
    · exact ih (clockPass_from hvc)
    · exact clockPass_from hvc

theorem varClocks_from (n : NodeDef) : (varClocks n).From n.Mentioned := by
  refine clockFixpoint_from _ fun x ck hx => ?_
  unfold NodeDef.ioClocks at hx
  split at hx
  · cases hx
    exact trivial
  · simp at hx

/-- The clock of an equation is sampled by variables the node mentions. -/
theorem equationClock_from {n : NodeDef} {eq : Equation} (heq : eq ∈ n.equations) :
    (equationClock n eq).From n.Mentioned := by
  unfold equationClock
  cases h : naturalClock (varClocks n) eq.rhs with
  | none => exact trivial
  | some ck => exact naturalClock_from (varClocks_from n) eq.rhs ck (n.mentions_rhs heq) h

/-- Every site clock of a walk is sampled by the names. -/
def SitesFrom (names : String → Prop) (found : SiteClocks) : Prop :=
  ∀ s ∈ found.sites, s.2.From names

theorem SitesFrom.append {a b : SiteClocks} (ha : SitesFrom names a) (hb : SitesFrom names b) :
    SitesFrom names (a ++ b) := by
  intro s hs
  rcases List.mem_append.mp hs with hs | hs
  · exact ha s hs
  · exact hb s hs

theorem SitesFrom.of_nil {found : SiteClocks} (h : found.sites = []) : SitesFrom names found := by
  simp [SitesFrom, h]

theorem SitesFrom.single {site : Site} {ck : Clock} (h : ck.From names) :
    SitesFrom names { sites := [(site, ck)] } := by
  intro s hs
  obtain rfl := List.mem_singleton.mp hs
  exact h

theorem checkClockVar_sites (eq : Nat) (clock : String) (parent : Clock) :
    (checkClockVar vc eq clock parent).sites = [] := by
  unfold checkClockVar
  cases vc clock with
  | none => rfl
  | some ck =>
    dsimp only
    split <;> rfl

theorem checkExprList_from {eq : Nat} {site : Site} {k : Nat} {expected : Clock} {es : List Expr}
    (h : ∀ e ∈ es, ∀ site, SitesFrom names (checkExpr vc eq site expected e)) :
    SitesFrom names (checkExprList vc eq site k expected es) := by
  induction es generalizing k with
  | nil => exact .of_nil rfl
  | cons e es ih =>
    exact (h e List.mem_cons_self _).append (ih fun e he => h e (List.mem_cons_of_mem _ he))

theorem checkExprFields_from {eq : Nat} {site : Site} {k : Nat} {expected : Clock}
    {fields : List (String × Expr)}
    (h : ∀ e ∈ fields.map (·.2), ∀ site, SitesFrom names (checkExpr vc eq site expected e)) :
    SitesFrom names (checkExprFields vc eq site k expected fields) := by
  induction fields generalizing k with
  | nil => exact .of_nil rfl
  | cons f fields ih =>
    exact (h f.2 (by simp) _).append (ih fun e he => h e (List.mem_cons_of_mem _ he))

/-- A walk that expects a clock sampled by the names records only such clocks. -/
theorem checkExpr_from (hvc : vc.From names) {eq : Nat} (e : Expr) :
    ∀ site expected, Mentions names e → expected.From names →
      SitesFrom names (checkExpr vc eq site expected e) := by
  induction e using Expr.children_induct with
  | h e ih =>
  intro site expected hm hexp
  have hc (c : Expr) (hmem : c ∈ e.children) (site : Site) (expected : Clock)
      (hexp : expected.From names) : SitesFrom names (checkExpr vc eq site expected c) :=
    ih c hmem site expected (hm.child hmem) hexp
  cases e with
  | const lit => exact .of_nil rfl
  | var name =>
    refine .of_nil ?_
    simp only [checkExpr]
    split
    · split <;> rfl
    · rfl
  | unary _ arg | cast _ arg | field arg _ => exact hc arg (by simp [Expr.children]) _ _ hexp
  | pre arg => exact (SitesFrom.single hexp).append (hc arg (by simp [Expr.children]) _ _ hexp)
  | binary _ lhs rhs | index lhs rhs =>
    exact (hc lhs (by simp [Expr.children]) _ _ hexp).append
      (hc rhs (by simp [Expr.children]) _ _ hexp)
  | arrow init body =>
    exact (SitesFrom.single hexp).append ((hc init (by simp [Expr.children]) _ _ hexp).append
      (hc body (by simp [Expr.children]) _ _ hexp))
  | ifThenElse c t f =>
    exact (hc c (by simp [Expr.children]) _ _ hexp).append
      ((hc t (by simp [Expr.children]) _ _ hexp).append (hc f (by simp [Expr.children]) _ _ hexp))
  | call node args =>
    exact (SitesFrom.of_nil rfl).append (checkExprList_from fun e he site => hc e he site _ hexp)
  | tuple items | array items => exact checkExprList_from fun e he site => hc e he site _ hexp
  | struct ty fields => exact checkExprFields_from fun e he site => hc e he site _ hexp
  | when arg clock on =>
    have hrecover : ∀ message : String, SitesFrom names (SiteClocks.error eq message ++
        checkExpr vc eq (site.child 0) ((naturalClock vc arg).getD .base) arg) := by
      intro message
      refine (SitesFrom.of_nil rfl).append (hc arg (by simp [Expr.children]) _ _ ?_)
      cases h : naturalClock vc arg with
      | none => exact trivial
      | some ck => exact naturalClock_from hvc arg ck (hm.child (by simp [Expr.children])) h
    cases expected with
    | base => exact hrecover _
    | on c o parent =>
      simp only [checkExpr]
      split
      · exact (SitesFrom.of_nil (checkClockVar_sites _ _ _)).append
          (hc arg (by simp [Expr.children]) _ _ hexp.2)
      · exact hrecover _
  | merge clock t f =>
    have hclock : names clock := hm.self rfl
    exact (SitesFrom.of_nil (checkClockVar_sites _ _ _)).append
      ((hc t (by simp [Expr.children]) _ (.on clock true expected) ⟨hclock, hexp⟩).append
        (hc f (by simp [Expr.children]) _ (.on clock false expected) ⟨hclock, hexp⟩))
  | iterate kind node init arrays =>
    cases init with
    | none => exact checkExprList_from fun e he site => hc e he site _ hexp
    | some init =>
      exact (hc init (by simp [Expr.children]) _ _ hexp).append
        (checkExprList_from fun e he site => hc e (by simp [Expr.children, he]) site _ hexp)

theorem checkLhs_sites (n : NodeDef) (i : Nat) (eq : Equation) : (checkLhs n i eq).sites = [] := by
  refine List.foldlRecOn (motive := fun (acc : SiteClocks) => acc.sites = []) _ _ rfl
    fun acc hacc l _ => ?_
  split
  · split
    · exact hacc
    · simp [hacc, SiteClocks.error]
  · exact hacc

theorem mem_insertChain {ck c : Clock} {chains : List Clock} (h : c ∈ insertChain ck chains) :
    c = ck ∨ c ∈ chains := by
  induction chains with
  | nil => exact .inl (List.mem_singleton.mp h)
  | cons d chains ih =>
    simp only [insertChain] at h
    split at h
    · exact .inr h
    · split at h
      · exact List.mem_cons.mp h
      · rcases List.mem_cons.mp h with rfl | h
        · exact .inr List.mem_cons_self
        · exact (ih h).imp_right (List.mem_cons_of_mem _)

/-- The clocks that inference finds in a node are sampled by variables the node
mentions. -/
theorem inferClocks_from (n : NodeDef) :
    (∀ ck ∈ (inferClocks n).equationClocks, ck.From n.Mentioned) ∧
      ∀ ck ∈ (inferClocks n).chains, ck.From n.Mentioned := by
  constructor
  · intro ck hck
    obtain ⟨eq, heq, rfl⟩ := List.mem_map.mp hck
    exact equationClock_from heq
  · have hfound : SitesFrom n.Mentioned
        ((n.equations.zipIdx.map fun (eq, i) => checkEquation n i eq).foldl (· ++ ·) {}) := by
      refine List.foldlRecOn (motive := SitesFrom n.Mentioned) _ _ (.of_nil rfl) ?_
      intro acc hacc found hfound
      obtain ⟨⟨eq, i⟩, hmem, rfl⟩ := List.mem_map.mp hfound
      have heq : eq ∈ n.equations := by
        obtain ⟨-, -, h⟩ := List.mem_zipIdx hmem
        exact h ▸ List.getElem_mem _
      refine hacc.append (.append (.of_nil (checkLhs_sites n i eq)) ?_)
      exact checkExpr_from (varClocks_from n) eq.rhs _ _ (n.mentions_rhs heq) (equationClock_from heq)
    refine List.foldlRecOn (motive := fun (chains : List Clock) => ∀ ck ∈ chains, ck.From n.Mentioned)
      _ _ (by simp) ?_
    intro chains hchains ck hck
    obtain ⟨s, hs, rfl⟩ := List.mem_map.mp hck
    split
    · exact hchains
    · intro c hc
      rcases mem_insertChain hc with rfl | hc
      · exact hfound s hs
      · exact hchains c hc

end

end OpenLustre.Ir
