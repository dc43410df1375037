import OpenLustre.ContractCheck.Assumption
import OpenLustre.Sim.Equations
import OpenLustre.Sim.Fields
import OpenLustre.Typecheck.Check

/-! The vacuity analysis of contracts: what the shape of a clause says of its value. -/

namespace OpenLustre.ContractCheck

open OpenLustre.Ir OpenLustre.ContractIr OpenLustre.Simulator

/-- One is the negation of the other. -/
def isNegationOf (a b : Expr) : Bool :=
  (match a with
    | .unary .not arg => sameExpr arg b
    | _ => false) ||
  match b with
  | .unary .not arg => sameExpr arg a
  | _ => false

/-- A shape that is true whatever it is applied to. -/
def isTautology : Expr → Bool
  | .binary .or lhs rhs =>
    isNegationOf lhs rhs || sameExpr lhs rhs && decide (staticTruth lhs = some true)
  | .binary .implies lhs rhs => sameExpr lhs rhs
  | .binary .eq lhs rhs => sameExpr lhs rhs
  | _ => false

def isBooleanShape : Expr → Bool
  | .const (.bool _) | .unary .not _ => true
  | .binary op _ _ =>
    match op with
    | .and | .or | .xor | .implies | .eq | .neq | .lt | .le | .gt | .ge => true
    | _ => false
  | .var _ | .ifThenElse _ _ _ | .call _ _ | .field _ _ => true
  | _ => false

/-- A clause that is true by its shape. -/
def isVacuous (e : Expr) : Bool := decide (staticTruth e = some true) || isTautology e

/-- The diagnostics of one guarantee. -/
def checkGuarantee (g : Clause) (idx : Nat) (ctx : String) : List Diagnostic :=
  let label := g.name.getD ("#" ++ toString idx)
  (if isBooleanShape g.expr then []
    else [Diagnostic.warning "C0030" ("guarantee `" ++ label ++
      "` does not appear to be a Boolean expression") [ctx]]) ++
  if isVacuous g.expr then
    [Diagnostic.warning "C0062" ("guarantee `" ++ label ++
      "` is statically true and therefore vacuous") [ctx]]
  else []

def vacuousEnsure (mode : Mode) (i : Nat) : String :=
  "mode `" ++ mode.name ++ "` ensure #" ++ toString i ++ " is statically true and therefore vacuous"

/-- The diagnostics of one mode. -/
def checkMode (mode : Mode) (ctx : String) : List Diagnostic :=
  (mode.requires.zipIdx.flatMap fun (r, i) =>
    (if isBooleanShape r then []
      else [Diagnostic.warning "C0040" ("mode `" ++ mode.name ++ "` require #" ++ toString i ++
        " is not Boolean-shaped") [ctx]]) ++
    if staticTruth r = some false then
      [Diagnostic.warning "C0060" ("mode `" ++ mode.name ++ "` require #" ++ toString i ++
        " is statically false — mode is unreachable") [ctx]]
    else []) ++
  -- a mode whose requires contain `e` and `not e` can never be active
  (mode.requires.zipIdx.flatMap fun (r₁, i) =>
    (mode.requires.drop (i + 1)).flatMap fun r₂ =>
      if isNegationOf r₁ r₂ then
        [Diagnostic.warning "C0060" ("mode `" ++ mode.name ++
          "` is unreachable: its requires contain an expression and its negation") [ctx]]
      else []) ++
  (mode.ensures.zipIdx.flatMap fun (e, i) =>
    (if isBooleanShape e then []
      else [Diagnostic.warning "C0041" ("mode `" ++ mode.name ++ "` ensure #" ++ toString i ++
        " is not Boolean-shaped") [ctx]]) ++
    if isVacuous e then
      [Diagnostic.warning "C0061" (vacuousEnsure mode i) [ctx]]
    else []) ++
  if mode.requires.isEmpty then
    [Diagnostic.warning "C0042" ("mode `" ++ mode.name ++
      "` has no requires; it is always active") [ctx]]
  else []

/-- An expression that makes no call and no real. -/
def plainTerm : Expr → Bool
  | .const (.float _) | .call _ _ | .iterate _ _ _ _ => false
  | .cast target _ => !target.isFloat
  | _ => true

def Plain (e : Expr) : Prop := ∀ t ∈ e.subterms, plainTerm t = true

theorem Plain.child {e c : Expr} (h : Plain e) (hc : c ∈ e.children) : Plain c :=
  fun t ht => h t (Expr.subterms_of_child hc ht)

theorem Plain.self {e : Expr} (h : Plain e) : plainTerm e = true := h e (Expr.self_mem_subterms e)

theorem Plain.hasCall {e : Expr} (h : Plain e) : e.hasCall = false := by
  refine Bool.eq_false_iff.mpr fun hany => ?_
  obtain ⟨t, ht, hcall⟩ := List.any_eq_true.mp hany
  have hplain := h t ht
  cases t <;> simp [plainTerm] at hplain hcall

mutual

/-- No real is part of the value. -/
def realFree : Value → Bool
  | .float _ | .float32 _ => false
  | .tuple vs | .array vs => realFreeList vs
  | .record fields => realFreeFields fields
  | _ => true

def realFreeList : List Value → Bool
  | [] => true
  | v :: vs => realFree v && realFreeList vs

def realFreeFields : List (String × Value) → Bool
  | [] => true
  | (_, v) :: fields => realFree v && realFreeFields fields

end

theorem realFreeList_iff {vs : List Value} :
    realFreeList vs = true ↔ ∀ v ∈ vs, realFree v = true := by
  induction vs with
  | nil => simp [realFreeList]
  | cons v vs ih => simp [realFreeList, ih]

theorem realFreeFields_iff {fields : List (String × Value)} :
    realFreeFields fields = true ↔ ∀ f ∈ fields, realFree f.2 = true := by
  induction fields with
  | nil => simp [realFreeFields]
  | cons f fields ih => simp [realFreeFields, ih]

mutual

/-- Without reals a value equals itself. -/
theorem eq_self : ∀ v : Value, realFree v = true → v.eq v = true
  | .bool b, _ => by simp [Value.eq]
  | .int i, _ => by simp [Value.eq]
  | .enum s, _ => by simp [Value.eq]
  | .tuple vs, h => by
    rw [realFree] at h
    rw [Value.eq]
    exact eqList_self vs h
  | .array vs, h => by
    rw [realFree] at h
    rw [Value.eq]
    exact eqList_self vs h
  | .record fields, h => by
    rw [realFree] at h
    rw [Value.eq]
    exact eqFields_self fields h
  | .float x, h => by simp [realFree] at h
  | .float32 x, h => by simp [realFree] at h

theorem eqList_self : ∀ vs : List Value, realFreeList vs = true → Value.eqList vs vs = true
  | [], _ => rfl
  | v :: vs, h => by
    rw [realFreeList, Bool.and_eq_true] at h
    rw [Value.eqList, eq_self v h.1, eqList_self vs h.2]
    rfl

theorem eqFields_self : ∀ fields : List (String × Value),
    realFreeFields fields = true → Value.eqFields fields fields = true
  | [], _ => rfl
  | (f, v) :: fields, h => by
    rw [realFreeFields, Bool.and_eq_true] at h
    rw [Value.eqFields, eq_self v h.1, eqFields_self fields h.2]
    simp

end

section Operators

variable {m : Machine} {l r v : Value}

theorem realFree_arith {i : Int} (h : arith m i = .ok v) : realFree v = true := by
  unfold arith at h
  split at h
  · cases h
    rfl
  · split at h
    · cases h
    · cases h
      rfl

theorem realFree_evalUnary {op : UnaryOp} (hv : realFree l = true) (h : evalUnary m op l = .ok v) :
    realFree v = true := by
  unfold evalUnary at h
  split at h
  · cases h
    rfl
  · exact realFree_arith h
  · simp [realFree] at hv
  · simp [realFree] at hv
  · cases h

theorem realPair_of_realFree (hl : realFree l = true) : realPair l r = none := by
  unfold realPair
  split <;> simp [realFree] at hl ⊢

theorem realFree_evalInt {op : BinOp} {a b : Int} (h : evalInt m op a b = .ok v) :
    realFree v = true := by
  unfold evalInt at h
  cases op <;> dsimp only at h
  case add | sub | mul => exact realFree_arith h
  case and | or | xor | implies => cases h
  case div | mod =>
    split at h
    · cases h
    · split at h <;> cases h
      rfl
  case shl | shr =>
    split at h <;> cases h
    rfl
  all_goals
    cases h
    rfl

theorem evalBinary_logical {op : BinOp} (hop : op = .and ∨ op = .or ∨ op = .implies)
    (hl : realFree l = true) (h : evalBinary m op l r = .ok v) :
    ∃ a b, l = .bool a ∧ r = .bool b := by
  have hpair := realPair_of_realFree (r := r) hl
  rcases hop with rfl | rfl | rfl <;> cases l <;> cases r <;>
    first
    | exact ⟨_, _, rfl, rfl⟩
    | simp [evalBinary, evalInt, hpair] at h

theorem evalBinary_eq (hl : realFree l = true) (h : evalBinary m .eq l r = .ok v) :
    v = .bool (l.eq r) := by
  have hpair := realPair_of_realFree (r := r) hl
  cases l <;> cases r <;> simp_all [evalBinary, evalInt, Value.eq]

theorem evalBinary_neq (hl : realFree l = true) (h : evalBinary m .neq l r = .ok v) :
    v = .bool !(l.eq r) := by
  have hpair := realPair_of_realFree (r := r) hl
  cases l <;> cases r <;> simp_all [evalBinary, evalInt, Value.eq]

theorem realFree_evalBinary {op : BinOp} (hl : realFree l = true)
    (h : evalBinary m op l r = .ok v) : realFree v = true := by
  unfold evalBinary at h
  split at h
  · cases h
    rfl
  · cases h
    rfl
  · cases h
    rfl
  · cases h
    rfl
  · rw [realPair_of_realFree hl] at h
    dsimp only at h
    split at h
    · exact realFree_evalInt h
    · cases h
      rfl
    · cases h
      rfl
    · cases h

theorem realFree_castValue {target : Ty} (htarget : target.isFloat = false)
    (hl : realFree l = true) (h : castValue target l = .ok v) : realFree v = true := by
  unfold castValue at h
  split at h <;> simp [Ty.isFloat, realFree] at htarget hl
  · split at h
    · cases h
      rfl
    · cases h
  · cases h

theorem realFree_fieldOf {name : String} (hl : realFree l = true) (h : fieldOf name l = .ok v) :
    realFree v = true := by
  unfold fieldOf at h
  split at h
  · next fields =>
    split at h
    · next w hw =>
      cases h
      rw [realFree, realFreeFields_iff] at hl
      exact hl (name, v) (mem_of_lookup hw)
    · cases h
  · cases h

theorem realFree_indexOf (hl : realFree l = true) (h : indexOf l r = .ok v) :
    realFree v = true := by
  unfold indexOf at h
  split at h
  · split at h
    · next xs =>
      split at h
      · cases h
      · split at h
        · next w hw =>
          cases h
          rw [realFree, realFreeList_iff] at hl
          exact hl v (List.mem_of_getElem? hw)
        · cases h
    · cases h
  · cases h

theorem realFree_insertField {name : String} {fields : List (String × Value)}
    (hv : realFree v = true) (h : realFreeFields fields = true) :
    realFreeFields (insertField name v fields) = true := by
  induction fields with
  | nil => simp [insertField, realFreeFields, hv]
  | cons f fields ih =>
    obtain ⟨g, w⟩ := f
    rw [realFreeFields, Bool.and_eq_true] at h
    unfold insertField
    split
    · simp [realFreeFields, hv, h.2]
    · split
      · simp [realFreeFields, hv, h.1, h.2]
      · simp [realFreeFields, h.1, ih h.2]

theorem commonReal_of_realFree {p : Project} {env : Env} (hv : realFree v = true) (other : Expr) :
    commonReal p env v other = v := by
  unfold commonReal
  split
  · simp [realFree] at hv
  · rfl

end Operators

section Evaluation

variable {m : Machine} {p : Project} {c : Cycle} {e : Expr}

/-- A place of the cycle at which `e` can be evaluated: on the base clock, with this cycle's
values of all that it reads now. -/
structure Look (c : Cycle) (e : Expr) where
  env : Env
  site : Site
  base : OnBase c.sim.clockInfo site.node site.eq
  reads : ∀ x ∈ sameCycleReads e, env x = c.env x

def Look.child {a : Expr} (k : Nat) (ha : a ∈ e.children) (hpre : ∀ arg, e ≠ .pre arg)
    (i : Look c e) : Look c a where
  env := i.env
  site := i.site.child k
  base := i.base
  reads x hx := i.reads x (sameCycleReads_of_child ha hpre hx)

/-- Whatever is computed of `e` in the cycle is the same, and without reals. -/
def Determined (m : Machine) (p : Project) (c : Cycle) (e : Expr) : Prop :=
  Stateful.Settled (realFree · = true)
    fun i : Look c e => eval m p (callees m p m.stack) (c.frame i.env) i.site e

/-- A cycle in which what `e` reads, now or under `pre`, has values without reals. -/
structure Discrete (c : Cycle) (e : Expr) : Prop where
  env : ∀ x ∈ e.freeVars, ∀ v, c.env x = some v → realFree v = true
  prev : ∀ x ∈ e.freeVars, ∀ v, c.sim.state.prev x = some v → realFree v = true

theorem Discrete.child (h : Discrete c e) {a : Expr} (ha : a ∈ e.children) : Discrete c a := by
  have hreads (x : String) (hx : x ∈ a.freeVars) : x ∈ e.freeVars := by
    obtain ⟨t, ht, hread⟩ := Expr.mem_freeVars.mp hx
    exact Expr.mem_freeVars.mpr ⟨t, Expr.subterms_of_child ha ht, hread⟩
  exact ⟨fun x hx => h.env x (hreads x hx), fun x hx => h.prev x (hreads x hx)⟩

theorem mem_freeVars_var (name : String) : name ∈ (Expr.var name).freeVars :=
  Expr.mem_freeVars.mpr ⟨.var name, Expr.self_mem_subterms _, rfl⟩

theorem Discrete.of_preValue {arg : Expr} (h : Discrete c arg) {fr : Frame}
    (hstate : fr.state = c.sim.state) {site : Site} {v : Value}
    (hv : preValue fr site arg = .ok v) : realFree v = true := by
  unfold preValue at hv
  rw [hstate] at hv
  split at hv
  · cases hv
  · split at hv
    · next name =>
      split at hv
      · next w hw =>
        cases hv
        exact h.prev name (mem_freeVars_var name) v hw
      · cases hv
    · cases hv

theorem Discrete.of_variableValue {name : String} (h : Discrete c (.var name)) {v : Value}
    (hv : variableValue p (c.frame c.env) name = .ok v) : realFree v = true := by
  unfold variableValue at hv
  split at hv
  · next w hw =>
    cases hv
    exact h.env name (mem_freeVars_var name) v hw
  · split at hv
    · next w hw =>
      cases hv
      unfold enumVariantValue at hw
      split at hw
      · cases hw
        rfl
      · cases hw
    · cases hv

theorem settled_stepUntaken {ι : Type} {other : Expr} (hcall : other.hasCall = false)
    (x : ι → EvalM Value) :
    Stateful.Settled (fun _ => True) fun i => stepUntaken other (x i) := by
  simp only [stepUntaken, hcall]
  exact .pure trivial

theorem settled_evalList {cs : Callees} {ι : Type} {frame : ι → Frame} {site : ι → Site}
    {es : List Expr} {k : Nat}
    (hes : ∀ k, ∀ e ∈ es, Stateful.Settled (realFree · = true)
      fun i => eval m p cs (frame i) ((site i).child k) e) :
    Stateful.Settled (realFreeList · = true)
      fun i => evalList m p cs (frame i) (site i) k es := by
  induction es generalizing k with
  | nil => exact .pure rfl
  | cons e es ih =>
    refine (hes k e List.mem_cons_self).bind fun v hv => ?_
    refine (ih fun k e he => hes k e (List.mem_cons_of_mem _ he)).bind fun vs hvs => ?_
    exact .pure (by rw [realFreeList, hv, hvs]; rfl)

theorem settled_evalFields {cs : Callees} {ι : Type} {frame : ι → Frame} {site : ι → Site}
    {fields : List (String × Expr)} {k : Nat} {r : List (String × Value)}
    (hfields : ∀ k, ∀ e ∈ fields.map (·.2), Stateful.Settled (realFree · = true)
      fun i => eval m p cs (frame i) ((site i).child k) e)
    (hr : realFreeFields r = true) :
    Stateful.Settled (realFreeFields · = true)
      fun i => evalFields m p cs (frame i) (site i) k r fields := by
  induction fields generalizing k r with
  | nil => exact .pure hr
  | cons f fields ih =>
    refine (hfields k f.2 List.mem_cons_self).bind fun v hv => ?_
    exact ih (fun k e he => hfields k e (List.mem_cons_of_mem _ he)) (realFree_insertField hv hr)

/-- A plain expression has one value in a cycle. -/
theorem Discrete.determined (h : Discrete c e) (he : Plain e) : Determined m p c e := by
  induction e using Expr.children_induct with
  | h e ih =>
  have hself := he.self
  by_cases hpre : ∃ arg, e = .pre arg
  · obtain ⟨arg, rfl⟩ := hpre
    refine ⟨preValue ⟨c.env, c.sim.state, []⟩ ⟨"", 0, []⟩ arg, fun i => ?_, fun v hv => ?_⟩
    · simp only [eval, preValue, Cycle.firstTick_of_onBase i.base]
      rfl
    · exact (h.child (by simp [Expr.children])).of_preValue rfl hv
  have hpre (arg : Expr) : e ≠ .pre arg := fun heq => hpre ⟨arg, heq⟩
  have hc (k : Nat) (a : Expr) (ha : a ∈ e.children) : Stateful.Settled (realFree · = true)
      fun i : Look c e => eval m p (callees m p m.stack) (c.frame i.env) (i.site.child k) a :=
    (ih a ha (h.child ha) (he.child ha)).reindex (Look.child k ha hpre)
  have huntaken (k : Nat) (a : Expr) (ha : a ∈ e.children) :=
    settled_stepUntaken (he.child ha).hasCall
      fun i : Look c e => eval m p (callees m p m.stack) (c.frame i.env) (i.site.child k) a
  unfold Determined
  cases e with
  | const lit =>
    refine .pure ?_
    cases lit <;> first | rfl | simp [plainTerm] at hself
  | var name =>
    refine ⟨variableValue p (c.frame c.env) name, fun i => ?_, fun v hv => h.of_variableValue hv⟩
    simp only [eval, variableValue, Cycle.frame, i.reads name (List.mem_singleton_self name)]
  | unary op arg =>
    exact (hc 0 arg (by simp [Expr.children])).bind fun v hv =>
      .lift fun w hw => realFree_evalUnary hv hw
  | binary op lhs rhs =>
    refine (hc 0 lhs (by simp [Expr.children])).bind fun l hl => ?_
    exact (hc 1 rhs (by simp [Expr.children])).bind fun r hr =>
      .lift fun w hw => realFree_evalBinary hl hw
  | ifThenElse cond thenBranch elseBranch =>
    refine (hc 0 cond (by simp [Expr.children])).bind fun b hcond => ?_
    refine Stateful.Settled.bind (P := fun _ => True) (.lift fun _ _ => trivial) fun taken _ => ?_
    cases taken with
    | true =>
      refine (hc 1 thenBranch (by simp [Expr.children])).bind fun v hv => ?_
      refine (huntaken 2 elseBranch (by simp [Expr.children])).bind fun _ _ => ?_
      simp only [commonReal_of_realFree hv]
      exact .pure hv
    | false =>
      refine (hc 2 elseBranch (by simp [Expr.children])).bind fun v hv => ?_
      refine (huntaken 1 thenBranch (by simp [Expr.children])).bind fun _ _ => ?_
      simp only [commonReal_of_realFree hv]
      exact .pure hv
  | pre arg => exact absurd rfl (hpre arg)
  | arrow init body =>
    simp only [eval, Cycle.firstTick_of_onBase (Look.base _)]
    split
    · refine (hc 0 init (by simp [Expr.children])).bind fun v hv => ?_
      refine (huntaken 1 body (by simp [Expr.children])).bind fun _ _ => ?_
      simp only [commonReal_of_realFree hv]
      exact .pure hv
    · refine (hc 1 body (by simp [Expr.children])).bind fun v hv => ?_
      refine (huntaken 0 init (by simp [Expr.children])).bind fun _ _ => ?_
      simp only [commonReal_of_realFree hv]
      exact .pure hv
  | when arg clock on => exact hc 0 arg (by simp [Expr.children])
  | merge clock onTrue onFalse =>
    have hclock (i : Look c (.merge clock onTrue onFalse)) : i.env clock = c.env clock :=
      i.reads clock List.mem_cons_self
    simp only [eval, Cycle.frame, hclock]
    split
    · refine (hc 0 onTrue (by simp [Expr.children])).bind fun v hv => ?_
      simp only [commonReal_of_realFree hv]
      exact .pure hv
    · refine (hc 1 onFalse (by simp [Expr.children])).bind fun v hv => ?_
      simp only [commonReal_of_realFree hv]
      exact .pure hv
    · exact .lift (by simp [error])
    · exact .lift (by simp [error])
  | cast target arg =>
    have htarget : target.isFloat = false := by simpa [plainTerm] using hself
    exact (hc 0 arg (by simp [Expr.children])).bind fun v hv =>
      .lift fun w hw => realFree_castValue htarget hv hw
  | field base field =>
    exact (hc 0 base (by simp [Expr.children])).bind fun v hv =>
      .lift fun w hw => realFree_fieldOf hv hw
  | index base index =>
    refine (hc 0 base (by simp [Expr.children])).bind fun v hv => ?_
    exact (hc 1 index (by simp [Expr.children])).bind fun i _ =>
      .lift fun w hw => realFree_indexOf hv hw
  | tuple items | array items =>
    refine (settled_evalList hc).bind fun vs hvs => ?_
    exact .pure (by rw [realFree]; exact hvs)
  | struct ty fields =>
    refine (settled_evalFields hc rfl).bind fun r hr => ?_
    exact .pure (by rw [realFree]; exact hr)
  | call node args => simp [plainTerm] at hself
  | iterate kind node init arrays => simp [plainTerm] at hself

end Evaluation

section Same

theorem eq_of_sameList {as as' : List Expr}
    (ih : ∀ a ∈ as, ∀ b, sameExpr a b = true → a = b) (h : sameList as as' = true) : as = as' := by
  induction as generalizing as' with
  | nil => cases as' <;> simp [sameList] at h ⊢
  | cons a as iha =>
    rw [List.forall_mem_cons] at ih
    cases as' with
    | nil => simp [sameList] at h
    | cons b as' =>
      rw [sameList, Bool.and_eq_true] at h
      rw [ih.1 b h.1, iha ih.2 h.2]

theorem eq_of_sameFields {fs fs' : List (String × Expr)}
    (ih : ∀ a ∈ fs.map (·.2), ∀ b, sameExpr a b = true → a = b) (h : sameFields fs fs' = true) :
    fs = fs' := by
  induction fs generalizing fs' with
  | nil => cases fs' <;> simp [sameFields] at h ⊢
  | cons f fs ihf =>
    rw [List.map_cons, List.forall_mem_cons] at ih
    cases fs' with
    | nil => simp [sameFields] at h
    | cons g fs' =>
      obtain ⟨f, a⟩ := f
      obtain ⟨g, b⟩ := g
      simp only [sameFields, Bool.and_eq_true, decide_eq_true_eq] at h
      obtain ⟨⟨rfl, hab⟩, hfs⟩ := h
      obtain rfl : a = b := ih.1 b hab
      rw [ihf ih.2 hfs]

/-- Plain expressions that are compared as the same are the same. -/
theorem eq_of_sameExpr {a b : Expr} (ha : Plain a) (h : sameExpr a b = true) : a = b := by
  induction a using Expr.children_induct generalizing b with
  | h a ih =>
  have hc (c : Expr) (hmem : c ∈ a.children) (b : Expr) (hb : sameExpr c b = true) : c = b :=
    ih c hmem (ha.child hmem) hb
  have hself := ha.self
  cases a with
  | const lit =>
    -- floats are left out: a NaN is not the same as itself
    cases lit <;> cases b <;> simp [sameExpr, plainTerm] at h hself ⊢ <;> exact h
  | var name => cases b <;> simp [sameExpr] at h ⊢ <;> exact h
  | unary op arg =>
    cases b <;> simp [sameExpr] at h ⊢
    exact ⟨h.1, hc arg (by simp [Expr.children]) _ h.2⟩
  | binary op lhs rhs =>
    cases b <;> simp [sameExpr] at h ⊢
    exact ⟨h.1.1, hc lhs (by simp [Expr.children]) _ h.1.2, hc rhs (by simp [Expr.children]) _ h.2⟩
  | ifThenElse cond thenBranch elseBranch =>
    cases b <;> simp [sameExpr] at h ⊢
    exact ⟨hc cond (by simp [Expr.children]) _ h.1.1,
      hc thenBranch (by simp [Expr.children]) _ h.1.2, hc elseBranch (by simp [Expr.children]) _ h.2⟩
  | pre arg =>
    cases b <;> simp [sameExpr] at h ⊢
    exact hc arg (by simp [Expr.children]) _ h
  | arrow init body =>
    cases b <;> simp [sameExpr] at h ⊢
    exact ⟨hc init (by simp [Expr.children]) _ h.1, hc body (by simp [Expr.children]) _ h.2⟩
  | when arg clock on =>
    cases b <;> simp [sameExpr] at h ⊢
    exact ⟨hc arg (by simp [Expr.children]) _ h.1.1, h.1.2, h.2⟩
  | merge clock onTrue onFalse =>
    cases b <;> simp [sameExpr] at h ⊢
    exact ⟨h.1.1, hc onTrue (by simp [Expr.children]) _ h.1.2,
      hc onFalse (by simp [Expr.children]) _ h.2⟩
  | cast target arg =>
    cases b <;> simp [sameExpr] at h ⊢
    exact ⟨h.1, hc arg (by simp [Expr.children]) _ h.2⟩
  | field base field =>
    cases b <;> simp [sameExpr] at h ⊢
    exact ⟨hc base (by simp [Expr.children]) _ h.1, h.2⟩
  | index base index =>
    cases b <;> simp [sameExpr] at h ⊢
    exact ⟨hc base (by simp [Expr.children]) _ h.1, hc index (by simp [Expr.children]) _ h.2⟩
  | tuple items =>
    cases b <;> simp [sameExpr] at h ⊢
    exact eq_of_sameList hc h
  | array items =>
    cases b <;> simp [sameExpr] at h ⊢
    exact eq_of_sameList hc h
  | struct ty fields =>
    cases b <;> simp [sameExpr] at h ⊢
    exact ⟨h.1, eq_of_sameFields hc h.2⟩
  | call node args => simp [plainTerm] at hself
  | iterate kind node init arrays => simp [plainTerm] at hself

end Same

section Soundness

variable {m : Machine} {p : Project} {c : Cycle} {e a b : Expr} {u v : Value}

/-- A plain expression has at most one value in a cycle, wherever it is evaluated. -/
theorem Discrete.unique (h : Discrete c e) (he : Plain e) (hu : c.Evaluates m p e u)
    (hv : c.Evaluates m p e v) : u = v ∧ realFree u = true := by
  obtain ⟨env, site, calls, calls', -, hbase, hreads, hu⟩ := hu
  obtain ⟨env₁, site₁, calls₁, calls₁', -, hbase₁, hreads₁, hv⟩ := hv
  exact (h.determined (m := m) (p := p) he).result (i := ⟨env, site, hbase, hreads⟩)
    (j := ⟨env₁, site₁, hbase₁, hreads₁⟩) hu hv

theorem Discrete.realFree (h : Discrete c e) (he : Plain e) (hv : c.Evaluates m p e v) :
    realFree v = true := (h.unique he hv hv).2

theorem Discrete.eq_of_sameExpr (h : Discrete c a) (ha : Plain a) (hsame : sameExpr a b = true)
    (hu : c.Evaluates m p a u) (hv : c.Evaluates m p b v) : u = v := by
  obtain rfl := ContractCheck.eq_of_sameExpr ha hsame
  exact (h.unique ha hu hv).1

/-- The value that the shape of an expression gives is the one it has in every cycle. -/
theorem Discrete.staticTruth (h : Discrete c e) (he : Plain e) {t : Bool}
    (ht : staticTruth e = some t) (hv : c.Evaluates m p e v) : v = .bool t := by
  induction e generalizing t v with
  | const lit =>
    cases lit <;> simp [ContractCheck.staticTruth] at ht
    rw [hv.const, ← ht]
    rfl
  | unary op arg ih =>
    cases op with
    | not =>
      obtain ⟨s, hs, rfl⟩ := Option.map_eq_some_iff.mp ht
      obtain ⟨w, hw, rfl⟩ := hv.not
      cases ih (h.child (by simp [Expr.children])) (he.child (by simp [Expr.children])) hs hw
      rfl
    | _ => cases ht
  | binary op lhs rhs ihl ihr =>
    obtain ⟨l, r, hl, hr, hv⟩ := hv.binary
    have hdiscrete : Discrete c lhs := h.child (by simp [Expr.children])
    have hplain : Plain lhs := he.child (by simp [Expr.children])
    have hlhs (s : Bool) (hs : ContractCheck.staticTruth lhs = some s) : l = .bool s :=
      ihl hdiscrete hplain hs hl
    have hrhs (s : Bool) (hs : ContractCheck.staticTruth rhs = some s) : r = .bool s :=
      ihr (h.child (by simp [Expr.children])) (he.child (by simp [Expr.children])) hs hr
    have hreal := hdiscrete.realFree hplain hl
    -- the two operands are evaluated at two places, in environments that may differ
    have hself (hsame : sameExpr lhs rhs = true) : l.eq r = true := by
      obtain rfl := hdiscrete.eq_of_sameExpr hplain hsame hl hr
      exact eq_self l hreal
    simp only [ContractCheck.staticTruth] at ht
    cases op
    case and | or | implies =>
      -- also where one operand decides, the other is evaluated and has to be a Boolean
      obtain ⟨x, y, rfl, rfl⟩ := evalBinary_logical (by simp) hreal hv
      generalize ContractCheck.staticTruth lhs = sl, ContractCheck.staticTruth rhs = sr at *
      simp only [evalBinary] at hv
      cases hv
      rcases sl with _ | _ | _ <;> rcases sr with _ | _ | _ <;> simp_all
    case eq =>
      rw [evalBinary_eq hreal hv]
      dsimp only at ht
      split at ht
      · next hsame =>
        cases ht
        rw [hself hsame]
      · split at ht
        · next x y hx hy =>
          cases ht
          rw [hlhs x hx, hrhs y hy]
          rfl
        · cases ht
    case neq =>
      rw [evalBinary_neq hreal hv]
      dsimp only at ht
      split at ht
      · next hsame =>
        cases ht
        rw [hself hsame]
        rfl
      · split at ht
        · next x y hx hy =>
          cases ht
          rw [hlhs x hx, hrhs y hy]
          rfl
        · cases ht
    all_goals cases ht
  | _ => cases ht

/-- Of an expression and its negation, one is the negation of the other in every cycle. -/
theorem Discrete.negation (ha : Discrete c a) (hb : Discrete c b) (hplain : Plain a)
    (hplain' : Plain b) (hneg : isNegationOf a b = true) (hu : c.Evaluates m p a u)
    (hv : c.Evaluates m p b v) :
    ∃ t, u = .bool t ∧ v = .bool !t := by
  unfold isNegationOf at hneg
  rw [Bool.or_eq_true] at hneg
  rcases hneg with hneg | hneg
  · split at hneg
    · next arg =>
      obtain ⟨t, ht, rfl⟩ := hu.not
      obtain rfl := (ha.child (by simp [Expr.children])).eq_of_sameExpr
        (hplain.child (by simp [Expr.children])) hneg ht hv
      exact ⟨!t, rfl, by simp⟩
    · cases hneg
  · split at hneg
    · next arg =>
      obtain ⟨t, ht, rfl⟩ := hv.not
      obtain rfl := (hb.child (by simp [Expr.children])).eq_of_sameExpr
        (hplain'.child (by simp [Expr.children])) hneg ht hu
      exact ⟨t, rfl, rfl⟩
    · cases hneg

/-- A clause that is true by its shape is true in every cycle. -/
theorem Discrete.vacuous (h : Discrete c e) (he : Plain e) (hvacuous : isVacuous e = true)
    (hv : c.Evaluates m p e v) : v = .bool true := by
  rw [isVacuous, Bool.or_eq_true, decide_eq_true_eq] at hvacuous
  rcases hvacuous with hstatic | hshape
  · exact h.staticTruth he hstatic hv
  unfold isTautology at hshape
  split at hshape
  · next lhs rhs =>
    obtain ⟨l, r, hl, hr, hv⟩ := hv.binary
    have hdiscrete : Discrete c lhs := h.child (by simp [Expr.children])
    have hlhs : Plain lhs := he.child (by simp [Expr.children])
    have hrhs : Plain rhs := he.child (by simp [Expr.children])
    rw [Bool.or_eq_true, Bool.and_eq_true, decide_eq_true_eq] at hshape
    rcases hshape with hneg | ⟨hsame, hstatic⟩
    · obtain ⟨t, rfl, rfl⟩ :=
        hdiscrete.negation (h.child (by simp [Expr.children])) hlhs hrhs hneg hl hr
      cases hv
      simp
    · obtain rfl := hdiscrete.eq_of_sameExpr hlhs hsame hl hr
      rw [hdiscrete.staticTruth hlhs hstatic hl] at hv
      cases hv
      rfl
  · next lhs rhs =>
    obtain ⟨l, r, hl, hr, hv⟩ := hv.binary
    have hdiscrete : Discrete c lhs := h.child (by simp [Expr.children])
    have hlhs : Plain lhs := he.child (by simp [Expr.children])
    obtain rfl := hdiscrete.eq_of_sameExpr hlhs hshape hl hr
    obtain ⟨x, y, rfl, hxy⟩ := evalBinary_logical (by simp) (hdiscrete.realFree hlhs hl) hv
    cases hv
    simp
  · next lhs rhs =>
    obtain ⟨l, r, hl, hr, hv⟩ := hv.binary
    have hdiscrete : Discrete c lhs := h.child (by simp [Expr.children])
    have hlhs : Plain lhs := he.child (by simp [Expr.children])
    have hreal := hdiscrete.realFree hlhs hl
    obtain rfl := hdiscrete.eq_of_sameExpr hlhs hshape hl hr
    rw [evalBinary_eq hreal hv, eq_self l hreal]
  · cases hshape

end Soundness

section Runs

variable {m : Machine} {p : Project} {sim : Sim} {rows : List Env} {cycles : List Cycle}

/-- What `e` reads has values without reals in every cycle of a run. -/
def RealFreeRun (cycles : List Cycle) (e : Expr) : Prop :=
  ∀ c ∈ cycles, ∀ x ∈ e.freeVars, ∀ v, c.env x = some v → realFree v = true

/-- The values at the start of a cycle are those of the cycles before it. -/
theorem RealFreeRun.discrete {e : Expr} (h : RealFreeRun cycles e)
    (hrun : sim.cycles m p rows = .ok cycles)
    (hstart : ∀ x ∈ e.freeVars, ∀ v, sim.state.prev x = some v → realFree v = true) :
    ∀ c ∈ cycles, Discrete c e := by
  induction rows generalizing sim cycles with
  | nil =>
    cases hrun
    simp
  | cons inputs rows ih =>
    simp only [Sim.cycles] at hrun
    split at hrun
    · cases hrun
    · next env sim' hstep =>
      obtain ⟨rest, hrest, rfl⟩ := Except.map_eq_ok.mp hrun
      rw [RealFreeRun, List.forall_mem_cons] at h
      rw [List.forall_mem_cons]
      refine ⟨⟨h.1, hstart⟩, ih h.2 hrest fun x hread v hv => ?_⟩
      obtain ⟨env₀, calls, ticks, -, -, rfl⟩ := Sim.stepEnv_eq_ok hstep
      simp only [State.next, Env.extend] at hv
      cases hx : env x with
      | some w =>
        rw [hx] at hv
        cases hv
        exact h.1 x hread v hx
      | none =>
        rw [hx] at hv
        exact hstart x hread v hv

/-- A run of the observer of a contract, without clocks and in an accepted project. -/
structure Observed (m : Machine) (p : Project) (c : ContractDef) (sim : Sim) (cycles : List Cycle) :
    Prop where
  accepted : Typecheck.Accepted p
  node : sim.node = (ContractDef.observer c).node
  started : ∃ name, Sim.new m p name = .ok sim
  runs : ∃ rows, sim.cycles m p rows = .ok cycles
  clocks : nodeUsesClocks (ContractDef.observer c).node = false

variable {c : ContractDef} {cy : Cycle}

theorem Observed.discrete (h : Observed m p c sim cycles) {e : Expr} (he : RealFreeRun cycles e)
    (hcy : cy ∈ cycles) : Discrete cy e := by
  obtain ⟨name, hsim⟩ := h.started
  obtain ⟨rows, hrun⟩ := h.runs
  refine he.discrete hrun (fun x _ v hv => ?_) cy hcy
  obtain ⟨-, -, -, -, hstate, -⟩ := Sim.new_eq_ok hsim
  simp [hstate, State.initial] at hv

/-- The port of a clause has the clause's value in every cycle. -/
theorem Observed.signal (h : Observed m p c sim cycles) (hcy : cy ∈ cycles) {s : ObserverSignal}
    {port : String} {e : Expr} (hclause : (s, port, e) ∈ ContractDef.signalClauses c) :
    ∃ v, cy.Evaluates m p e v ∧ cy.Stores m p port v := by
  obtain ⟨name, hsim⟩ := h.started
  obtain ⟨rows, hrun⟩ := h.runs
  obtain ⟨hnode, -, horder, hclocks, -⟩ := Sim.new_eq_ok hsim
  have hsingle := h.accepted.singleAssignment (Project.mem_of_findNode hnode)
  obtain ⟨t, ht⟩ := List.mem_iff_getElem?.mp hcy
  obtain ⟨hsame, -, -, ⟨next, hstep⟩, -⟩ := Sim.cycles_getElem? hrun ht
  have hruns : cy.Runs m p next := by
    refine ⟨hstep, ?_, ?_⟩
    · rw [hsame.node, hsame.eqOrder, horder]
    · rw [hsame.node]
      exact hsingle
  have hequation : (⟨[port], e⟩ : Equation) ∈ (ContractDef.observer c).node.equations :=
    List.mem_append_right _
      (List.mem_map_of_mem (f := fun s => (⟨[s.2.1], s.2.2⟩ : Equation)) hclause)
  obtain ⟨i, hi⟩ := List.mem_iff_getElem?.mp hequation
  rw [← h.node, ← hsame.node] at hi
  refine hruns.equation hi ?_
  have hnone : cy.sim.clockInfo = {} := by
    rw [hsame.clockInfo, hclocks, h.node]
    simp [clocksOf, h.clocks]
  constructor <;> simp [hnone]

/-- A plain clause that is true by its shape is signalled as true in every cycle. -/
theorem Observed.vacuous (h : Observed m p c sim cycles) (hcy : cy ∈ cycles) {s : ObserverSignal}
    {port : String} {e : Expr} (hclause : (s, port, e) ∈ ContractDef.signalClauses c)
    (he : Plain e) (hreals : RealFreeRun cycles e) (hvacuous : isVacuous e = true) :
    cy.env port = some (.bool true) := by
  obtain ⟨v, hv, hstores⟩ := h.signal hcy hclause
  obtain rfl := (h.discrete hreals hcy).vacuous he hvacuous hv
  exact hstores.bool

theorem mem_signalClauses_guarantee {i : Nat} {g : Clause} (hg : c.guarantees[i]? = some g) :
    (.guarantee i (ContractDef.clauseLabel "guarantee" i g), "ol_g" ++ toString i, g.expr) ∈
      ContractDef.signalClauses c := by
  refine List.mem_append_left _ (List.mem_append_right _ (List.mem_map.mpr ⟨(g, i), ?_, rfl⟩))
  exact List.mem_zipIdx_iff_getElem?.mpr hg

theorem mem_signalClauses_require {k j : Nat} {mode : Mode} {r : Expr}
    (hmode : c.modes[k]? = some mode) (hr : mode.requires[j]? = some r) :
    (.require k j, "ol_m" ++ toString k ++ "_r" ++ toString j, r) ∈
      ContractDef.signalClauses c := by
  refine List.mem_append_right _ (List.mem_flatMap.mpr ⟨(mode, k), ?_, List.mem_append_left _ ?_⟩)
  · exact List.mem_zipIdx_iff_getElem?.mpr hmode
  · exact List.mem_map.mpr ⟨(r, j), List.mem_zipIdx_iff_getElem?.mpr hr, rfl⟩

theorem mem_signalClauses_ensure {k j : Nat} {mode : Mode} {e : Expr}
    (hmode : c.modes[k]? = some mode) (he : mode.ensures[j]? = some e) :
    (.ensure k j, "ol_m" ++ toString k ++ "_e" ++ toString j, e) ∈
      ContractDef.signalClauses c := by
  refine List.mem_append_right _ (List.mem_flatMap.mpr ⟨(mode, k), ?_, List.mem_append_right _ ?_⟩)
  · exact List.mem_zipIdx_iff_getElem?.mpr hmode
  · exact List.mem_map.mpr ⟨(e, j), List.mem_zipIdx_iff_getElem?.mpr he, rfl⟩

section Reports

variable {mode : Mode} {ctx : String} {d : Diagnostic}

theorem vacuous_of_C0062 {g : Clause} {i : Nat} (hd : d ∈ checkGuarantee g i ctx)
    (hcode : d.code = "C0062") : isVacuous g.expr = true := by
  simp only [checkGuarantee, List.mem_append, List.mem_ite_nil_left, List.mem_ite_nil_right,
    List.mem_singleton] at hd
  rcases hd with ⟨-, rfl⟩ | ⟨hvacuous, -⟩
  · simp [Diagnostic.warning] at hcode
  · exact hvacuous

theorem false_of_C0063 {a : Clause} {i : Nat} {ins outs globals : List String}
    (hd : d ∈ checkAssumption a i ins outs globals ctx) (hcode : d.code = "C0063") :
    staticTruth a.expr = some false := by
  simp only [checkAssumption, List.mem_append, List.mem_flatMap, List.mem_ite_nil_right,
    List.mem_singleton] at hd
  rcases hd with ⟨x, -, ⟨-, rfl⟩ | ⟨-, rfl⟩⟩ | ⟨hfalse, -⟩
  · simp [Diagnostic.error] at hcode
  · simp [Diagnostic.warning] at hcode
  · exact hfalse

/-- What a report of a mode is about. -/
theorem mem_checkMode (hd : d ∈ checkMode mode ctx) :
    (d.code = "C0060" ∧ ((∃ (i : Nat) (r : Expr), mode.requires[i]? = some r ∧
        staticTruth r = some false) ∨
      ∃ (i j : Nat) (r₁ r₂ : Expr), mode.requires[i]? = some r₁ ∧ mode.requires[j]? = some r₂ ∧
        isNegationOf r₁ r₂ = true)) ∨
    (d.code = "C0061" ∧ ∃ (j : Nat) (e : Expr), mode.ensures[j]? = some e ∧
      isVacuous e = true ∧ d.message = vacuousEnsure mode j) ∨
    d.code ∈ ["C0040", "C0041", "C0042"] := by
  simp only [checkMode, List.mem_append, List.mem_flatMap, Prod.exists,
    List.mem_zipIdx_iff_getElem?, List.mem_ite_nil_left, List.mem_ite_nil_right,
    List.mem_singleton] at hd
  rcases hd with ((⟨r, i, hr, ⟨-, rfl⟩ | ⟨hfalse, rfl⟩⟩ | ⟨r₁, i, hr₁, r₂, hr₂, hneg, rfl⟩) |
    ⟨e, j, he, ⟨-, rfl⟩ | ⟨hvacuous, rfl⟩⟩) | ⟨-, rfl⟩
  · exact .inr (.inr (by simp [Diagnostic.warning]))
  · exact .inl ⟨rfl, .inl ⟨i, r, hr, hfalse⟩⟩
  · obtain ⟨j, hj⟩ := List.mem_iff_getElem?.mp hr₂
    rw [List.getElem?_drop] at hj
    exact .inl ⟨rfl, .inr ⟨i, i + 1 + j, r₁, r₂, hr₁, hj, hneg⟩⟩
  · exact .inr (.inr (by simp [Diagnostic.warning]))
  · exact .inr (.inl ⟨rfl, j, e, he, hvacuous, rfl⟩)
  · exact .inr (.inr (by simp [Diagnostic.warning]))

theorem contradiction_of_C0060 (hd : d ∈ checkMode mode ctx) (hcode : d.code = "C0060") :
    (∃ (i : Nat) (r : Expr), mode.requires[i]? = some r ∧ staticTruth r = some false) ∨
    ∃ (i j : Nat) (r₁ r₂ : Expr), mode.requires[i]? = some r₁ ∧ mode.requires[j]? = some r₂ ∧
      isNegationOf r₁ r₂ = true := by
  rcases mem_checkMode hd with ⟨-, h⟩ | ⟨h, -⟩ | h
  · exact h
  · simp [hcode] at h
  · simp [hcode] at h

theorem vacuous_of_C0061 (hd : d ∈ checkMode mode ctx) (hcode : d.code = "C0061") :
    ∃ (j : Nat) (e : Expr), mode.ensures[j]? = some e ∧ isVacuous e = true ∧
      d.message = vacuousEnsure mode j := by
  rcases mem_checkMode hd with ⟨h, -⟩ | ⟨-, h⟩ | h
  · simp [hcode] at h
  · exact h
  · simp [hcode] at h

end Reports

end Runs

/-- An assumption without calls that is reported as false is false, and a mode without calls in
its requires that is reported as unreachable is not active, in any cycle of any run of the
observer in which they read no reals. -/
theorem unreachable_clause {m : Machine} {p : Project} {c : ContractDef} {sim : Sim}
    {cycles : List Cycle} (h : Observed m p c sim cycles) (globals : List String) (ctx : String) :
    (∀ (i : Nat) (a : Clause), c.assumptions[i]? = some a → Plain a.expr →
      RealFreeRun cycles a.expr →
      (∃ d ∈ checkAssumption a i (inputNames c) (outputNames c) globals ctx, d.code = "C0063") →
      ∀ cy ∈ cycles, cy.env (assumptionPort i) = some (.bool false)) ∧
    ∀ (k : Nat) (mode : Mode), c.modes[k]? = some mode →
      (∀ r ∈ mode.requires, Plain r ∧ RealFreeRun cycles r) →
      (∃ d ∈ checkMode mode ctx, d.code = "C0060") →
      ∀ cy ∈ cycles, ∃ j < mode.requires.length,
        cy.env ("ol_m" ++ toString k ++ "_r" ++ toString j) = some (.bool false) := by
  constructor
  · rintro i a ha hplain hreals ⟨d, hd, hcode⟩ cy hcy
    obtain ⟨v, hv, hstores⟩ := h.signal hcy (List.mem_of_getElem? (signalClauses_getElem? ha))
    obtain rfl := (h.discrete hreals hcy).staticTruth hplain (false_of_C0063 hd hcode) hv
    exact hstores.bool
  · rintro k mode hmode hrequires ⟨d, hd, hcode⟩ cy hcy
    have hplain {j : Nat} {r : Expr} (hr : mode.requires[j]? = some r) : Plain r :=
      (hrequires r (List.mem_of_getElem? hr)).1
    have hdiscrete {j : Nat} {r : Expr} (hr : mode.requires[j]? = some r) : Discrete cy r :=
      h.discrete (hrequires r (List.mem_of_getElem? hr)).2 hcy
    have hsignal {j : Nat} {r : Expr} (hr : mode.requires[j]? = some r) :=
      h.signal hcy (mem_signalClauses_require hmode hr)
    have hlt {j : Nat} {r : Expr} (hr : mode.requires[j]? = some r) : j < mode.requires.length :=
      (List.getElem?_eq_some_iff.mp hr).1
    rcases contradiction_of_C0060 hd hcode with ⟨i, r, hr, hfalse⟩ | ⟨i, j, r₁, r₂, hr₁, hr₂, hneg⟩
    · obtain ⟨v, hv, hstores⟩ := hsignal hr
      obtain rfl := (hdiscrete hr).staticTruth (hplain hr) hfalse hv
      exact ⟨i, hlt hr, hstores.bool⟩
    · obtain ⟨u, hu, hstores₁⟩ := hsignal hr₁
      obtain ⟨v, hv, hstores₂⟩ := hsignal hr₂
      obtain ⟨t, rfl, rfl⟩ :=
        (hdiscrete hr₁).negation (hdiscrete hr₂) (hplain hr₁) (hplain hr₂) hneg hu hv
      cases t with
      | false => exact ⟨i, hlt hr₁, hstores₁.bool⟩
      | true => exact ⟨j, hlt hr₂, hstores₂.bool⟩

section Witness

/-- A guarantee and an ensure that are true by their shape, and a mode that excludes itself. -/
def idleContract : ContractDef where
  name := "Idle"
  inputs := [⟨"x", .bool⟩]
  outputs := [⟨"y", .bool⟩]
  guarantees := [⟨none, .binary .or (.var "x") (.unary .not (.var "x"))⟩]
  modes := [⟨"never", [.var "x", .unary .not (.var "x")], [.binary .eq (.var "y") (.var "y")]⟩]

def idleProject : Project where
  packages := [{ name := "main", nodes := [(ContractDef.observer idleContract).node] }]

def idleSim : Sim :=
  ⟨(ContractDef.observer idleContract).node, .initial, Calls.empty, fun _ => none, [0, 1, 2, 3], {}⟩

def idleRows : List Env :=
  [Env.set (Env.set (fun _ => none) "x" (.bool true)) "y" (.bool false),
    Env.set (Env.set (fun _ => none) "x" (.bool false)) "y" (.bool false)]

theorem idleSim_new : Sim.new ⟨true, 8⟩ idleProject "Idle_observer" = .ok idleSim := by
  have horder : evaluationOrder (ContractDef.observer idleContract).node = .ok [0, 1, 2, 3] := by
    decide +kernel
  have hclocks : clocksOf (ContractDef.observer idleContract).node = {} :=
    if_neg (by decide +kernel)
  have hnode : idleProject.findNode "Idle_observer" =
      some (ContractDef.observer idleContract).node := rfl
  have hconsts : evalConstants ⟨true, 8⟩ idleProject = .ok fun _ => none := rfl
  simp only [Sim.new, hnode, hconsts, horder, hclocks]
  rfl

/-- The signals that the clauses read are Booleans in both cycles. -/
theorem idle_cycles : ∃ cycles, Sim.cycles ⟨true, 8⟩ idleProject idleSim idleRows = .ok cycles ∧
    cycles.length = 2 ∧
    ∀ c ∈ cycles, ∀ x ∈ ["x", "y"], ∀ v, c.env x = some v → realFree v = true := by
  have hok : ((Sim.cycles ⟨true, 8⟩ idleProject idleSim idleRows).map fun cycles =>
      decide (cycles.length = 2) &&
        cycles.all fun c => ["x", "y"].all fun x => (c.env x).all realFree).toOption =
      some true := by
    decide +kernel
  cases h : Sim.cycles ⟨true, 8⟩ idleProject idleSim idleRows with
  | error e =>
    rw [h] at hok
    cases hok
  | ok cycles =>
    rw [h] at hok
    have hok := Option.some.inj hok
    rw [Bool.and_eq_true, decide_eq_true_eq] at hok
    refine ⟨cycles, rfl, hok.1, fun c hc x hx v hv => ?_⟩
    have hall := List.all_eq_true.mp (List.all_eq_true.mp hok.2 c hc) x hx
    simpa [hv] using hall

theorem idle_observed {cycles : List Cycle}
    (h : Sim.cycles ⟨true, 8⟩ idleProject idleSim idleRows = .ok cycles) :
    Observed ⟨true, 8⟩ idleProject idleContract idleSim cycles where
  accepted := by decide +kernel
  node := rfl
  started := ⟨_, idleSim_new⟩
  runs := ⟨_, h⟩
  clocks := by decide +kernel

end Witness

theorem unreachable_clause_idle : ∃ cycles : List Cycle, cycles.length = 2 ∧
    ∀ c ∈ cycles, ∃ j < 2, c.env ("ol_m0_r" ++ toString j) = some (.bool false) := by
  obtain ⟨cycles, hcycles, hlen, hreals⟩ := idle_cycles
  refine ⟨cycles, hlen, ?_⟩
  refine (unreachable_clause (idle_observed hcycles) [] "contract Idle").2 0 _ rfl ?_ ?_
  · intro r hr
    refine ⟨?_, fun c hc x hx => hreals c hc x ?_⟩
    · unfold Plain
      revert r
      decide +kernel
    · revert x r
      decide +kernel
  · decide +kernel

end OpenLustre.ContractCheck
