import OpenLustre.Sim.Instances
import OpenLustre.Sim.Isolation
import OpenLustre.Typecheck.Causality

/-! What an expression depends on in the current cycle: the values it reads now, the
C types its conditionals take from their branches, and its own instances. -/

namespace OpenLustre.Simulator

open OpenLustre.Ir OpenLustre.Typecheck

/-- From instances that agree at the given sites, related results or the same fault. -/
def Alike {α β : Type} (sites : Site → Prop) (Q : α → β → Prop) (x : EvalM α) (y : EvalM β) :
    Prop :=
  ∀ c d : Calls, (∀ s, sites s → c s = d s) → Except.Agree Q (x c).1 (y d).1

namespace Alike

variable {α β γ δ : Type} {sites : Site → Prop} {Q : α → β → Prop} {R : γ → δ → Prop}
  {x : EvalM α} {y : EvalM β} {f : α → EvalM γ} {g : β → EvalM δ}

theorem lift_agree {r : Except Fault α} {r' : Except Fault β} (h : Except.Agree Q r r') :
    Alike sites Q (.lift r) (.lift r') := fun _ _ _ => h

protected theorem lift (r : Except Fault α) : Alike sites (· = ·) (.lift r) (.lift r) :=
  lift_agree (.refl r)

protected theorem pure {a : α} {b : β} (h : Q a b) : Alike sites Q (pure a) (pure b) :=
  fun _ _ _ => .ok h

protected theorem fail (e : Fault) : Alike sites Q (.fail e) (.fail e) := fun _ _ _ => .error e

theorem mono {later : Site → Prop} (h : Alike later Q x y) (hle : ∀ s, later s → sites s) :
    Alike sites Q x y :=
  fun c d hcd => h c d fun s hs => hcd s (hle s hs)

/-- What the first computation changes, the second does not look at. -/
protected theorem bind {kept : Site → Prop} (h : Alike sites Q x y) (later : Site → Prop)
    (hx : Keeps kept x) (hy : Keeps kept y) (hlater : ∀ s, later s → sites s ∧ ¬ kept s)
    (hfg : ∀ a b, Q a b → Alike later R (f a) (g b)) : Alike sites R (x >>= f) (y >>= g) := by
  intro c d hcd
  have hagree := h c d hcd
  have hkeep := fun s hs => hx c s (hlater s hs).2
  have hkeep' := fun s hs => hy d s (hlater s hs).2
  rw [Stateful.bind_apply, Stateful.bind_apply]
  revert hagree hkeep hkeep'
  rcases x c with ⟨rx, c'⟩
  rcases y d with ⟨ry, d'⟩
  rintro (⟨a, b, rfl, rfl, hQ⟩ | ⟨e, rfl, rfl⟩) hkeep hkeep'
  · exact hfg a b hQ c' d' fun s hs =>
      (hkeep s hs).trans ((hcd s (hlater s hs).1).trans (hkeep' s hs).symm)
  · exact .error e

/-- What follows looks at no instance. -/
theorem andThen (h : Alike sites Q x y)
    (hfg : ∀ a b, Q a b → Alike (fun _ => False) R (f a) (g b)) :
    Alike sites R (x >>= f) (y >>= g) :=
  h.bind (fun _ => False) (fun _ _ hs => absurd trivial hs : Keeps (fun _ => True) x)
    (fun _ _ hs => absurd trivial hs) (fun _ hs => hs.elim) hfg

theorem lift_agree_bind {r : Except Fault α} {r' : Except Fault β} (h : Except.Agree Q r r')
    (hfg : ∀ a b, Q a b → Alike sites R (f a) (g b)) :
    Alike sites R (.lift r >>= f) (.lift r' >>= g) := by
  rcases h with ⟨a, b, rfl, rfl, hab⟩ | ⟨e, rfl, rfl⟩
  · exact hfg a b hab
  · exact .fail e

theorem lift_bind {r : Except Fault α} {f : α → EvalM γ} {g : α → EvalM δ}
    (hfg : ∀ a, Alike sites R (f a) (g a)) : Alike sites R (.lift r >>= f) (.lift r >>= g) :=
  lift_agree_bind (.refl r) fun a _ h => h ▸ hfg a

theorem map (h : Alike sites Q x y) {k : α → γ} {l : β → δ} (hkl : ∀ a b, Q a b → R (k a) (l b)) :
    Alike sites R (x >>= fun a => pure (k a)) (y >>= fun b => pure (l b)) :=
  h.andThen fun a b hab => .pure (hkl a b hab)

theorem and_left {P : α → Prop} (h : Alike sites Q x y)
    (hP : ∀ c a c', x c = (.ok a, c') → P a) : Alike sites (fun a b => Q a b ∧ P a) x y := by
  intro c d hcd
  refine (h c d hcd).imp ?_ id
  rintro ⟨a, b, ha, hb, hab⟩
  exact ⟨a, b, ha, hb, hab, hP c a (x c).2 (Prod.ext ha rfl)⟩

theorem discard {x y : EvalM Value} {Q : Value → Value → Prop} (h : Alike sites Q x y) :
    Alike sites (fun _ _ => True) (discard x) (discard y) := by
  intro c d hcd
  have hagree := h c d hcd
  unfold Simulator.discard
  revert hagree
  rcases x c with ⟨rx, c'⟩
  rcases y d with ⟨ry, d'⟩
  rintro (⟨v, w, rfl, rfl, -⟩ | ⟨e, rfl, rfl⟩)
  · exact .ok trivial
  · cases e with
    | error e => exact .ok trivial
    | panic e => exact .error _

theorem stepUntaken {x y : EvalM Value} {Q : Value → Value → Prop} (h : Alike sites Q x y)
    (other : Expr) : Alike sites (fun _ _ => True) (stepUntaken other x) (stepUntaken other y) := by
  unfold Simulator.stepUntaken
  split
  · exact h.discard
  · exact .pure trivial

end Alike

/-- The number type that a value has in C. -/
inductive NumberType
  | int
  | single
  | double
  deriving DecidableEq, Repr

def Value.numberType : Value → Option NumberType
  | .int _ => some .int
  | .float32 _ => some .single
  | .float _ => some .double
  | _ => none

/-- The variables that `realKind` looks at. -/
def realReads : Expr → List String
  | .var name => [name]
  | .unary _ arg | .pre arg | .when arg _ _ => realReads arg
  | .binary op lhs rhs =>
    match op with
    | .add | .sub | .mul | .div => realReads lhs ++ realReads rhs
    | _ => []
  | .ifThenElse _ a b | .arrow a b | .merge _ a b => realReads a ++ realReads b
  | _ => []

/-- The value is never in single precision, so that no conditional widens it. -/
def neverSingle : Expr → Bool
  | .const _ => true
  | .unary .not _ => true
  | .binary op _ _ =>
    match op with
    | .add | .sub | .mul | .div => false
    | _ => true
  | _ => false

/-- The variables whose number type decides what a conditional makes of its value. -/
def branchReads (a b : Expr) : List String :=
  (if neverSingle a then [] else realReads b) ++ if neverSingle b then [] else realReads a

def kindReads (e : Expr) : List String :=
  e.subterms.flatMap fun
    | .ifThenElse _ a b | .arrow a b | .merge _ a b => branchReads a b
    | _ => []

/-- What the calls of an expression can notice of its environment. -/
def Notices (p : Project) (e : Expr) (x : String) : Prop :=
  (∃ f args c, .call f args ∈ e.subterms ∧ p.findNode f = some c ∧ Outer p c x) ∨
  ∃ kind f init arrays c, .iterate kind f init arrays ∈ e.subterms ∧ p.findNode f = some c ∧
    p.isConstant x ∧ Outer p c x

/-- Two evaluations of `e` at one time, which agree on all that it depends on now. -/
structure Sees (p : Project) (e : Expr) (a b : Frame) : Prop where
  state : a.state = b.state
  siteClocks : a.siteClocks = b.siteClocks
  reads : ∀ x ∈ sameCycleReads e, a.env x = b.env x
  notices : EnvAgree (Notices p e) a.env b.env
  kinds : ∀ x ∈ kindReads e, (a.env x).bind Value.numberType = (b.env x).bind Value.numberType

/-- What equation `i` depends on in the current cycle. -/
inductive DependsNow (p : Project) (n : NodeDef) (i : Nat) : String → Prop
  | read {eq x} : n.equations[i]? = some eq → x ∈ sameCycleReads eq.rhs → DependsNow p n i x
  | clock {ck x} : (clocksOf n).equationClocks[i]? = some ck → x ∈ ck.conditions.map (·.1) →
      DependsNow p n i x
  | notice {eq x} : n.equations[i]? = some eq → Notices p eq.rhs x → DependsNow p n i x
  | kind {eq x} : n.equations[i]? = some eq → x ∈ kindReads eq.rhs →
      x ∈ n.equations.flatMap (·.lhs) → DependsNow p n i x

/-- What can differ in a cycle in which the sources do. -/
inductive Affected (p : Project) (n : NodeDef) (sources : String → Prop) : String → Prop
  | source {x} : sources x → Affected p n sources x
  | equation {i eq x y} : n.equations[i]? = some eq → x ∈ eq.lhs → DependsNow p n i y →
      Affected p n sources y → Affected p n sources x

/-- The sites of the operator calls of an expression. -/
def Stepped (p : Project) (site : Site) (e : Expr) (s : Site) : Prop :=
  s ∈ (operatorCalls p site e).map (·.1)

def SteppedList (p : Project) (site : Site) (k : Nat) (es : List Expr) (s : Site) : Prop :=
  s ∈ (operatorCallsList p site k es).map (·.1)

section Kinds

variable {m : Machine} {p : Project} {a b : Env} {e other : Expr} {v : Value}

theorem realKind_numberType
    (h : ∀ x ∈ realReads e, (a x).bind Value.numberType = (b x).bind Value.numberType) :
    realKind p a e = realKind p b e := by
  induction e with
  | const lit => cases lit <;> rfl
  | var name =>
    have hname := h name (by simp [realReads])
    simp only [realKind]
    cases ha : a name with
    | none =>
      cases hb : b name with
      | none => rfl
      | some w => cases w <;> simp_all [Value.numberType]
    | some v =>
      cases hb : b name with
      | none => cases v <;> simp_all [Value.numberType]
      | some w => cases v <;> cases w <;> simp_all [Value.numberType]
  | unary _ arg ih | pre arg ih | when arg _ _ ih => exact ih h
  | binary op lhs rhs ihl ihr =>
    cases op with
    | add | sub | mul | div =>
      simp only [realReads, List.forall_mem_append] at h
      simp only [realKind, ihl h.1, ihr h.2]
    | _ => rfl
  | ifThenElse _ _ _ _ iht ihe | arrow _ _ iht ihe | merge _ _ _ iht ihe =>
    simp only [realReads, List.forall_mem_append] at h
    simp only [realKind, iht h.1, ihe h.2]
  | call | field | index | tuple | array | struct | cast | iterate => rfl

theorem commonReal_of_numberType (h : v.numberType = some .single →
      ∀ x ∈ realReads other, (a x).bind Value.numberType = (b x).bind Value.numberType) :
    commonReal p a v other = commonReal p b v other := by
  cases v with
  | float32 x => simp only [commonReal, realKind_numberType (p := p) (h rfl)]
  | _ => rfl

theorem literal_not_single (lit : Literal) : (literal lit).numberType ≠ some .single := by
  cases lit <;> simp [literal, Value.numberType]

end Kinds

section

variable {m : Machine} {p : Project} {cs : Callees} {fr a b : Frame} {site : Site} {e c : Expr}

theorem evalBinary_not_single {op : BinOp} {l r v : Value} (hop : neverSingle (.binary op c e))
    (h : evalBinary m op l r = .ok v) : v.numberType ≠ some .single := by
  unfold evalBinary at h
  split at h
  · cases h; simp [Value.numberType]
  · cases h; simp [Value.numberType]
  · cases h; simp [Value.numberType]
  · cases h; simp [Value.numberType]
  · split at h
    · split at h
      · next hreal =>
        cases h
        cases op <;> simp_all [neverSingle, evalReal] <;> subst hreal <;> simp [Value.numberType]
      · cases h
    · split at h
      · next i j =>
        cases op <;> simp only [neverSingle, evalInt, Bool.false_eq_true] at hop h <;>
          (repeat' split at h) <;> cases h <;> simp [Value.numberType, bitwise]
      · cases h; simp [Value.numberType]
      · cases h; simp [Value.numberType]
      · cases h

theorem eval_not_single {calls calls' : Calls} {v : Value} (he : neverSingle e)
    (h : eval m p cs fr site e calls = (.ok v, calls')) : v.numberType ≠ some .single := by
  cases e with
  | const lit =>
    cases h
    exact literal_not_single lit
  | unary op arg =>
    cases op with
    | not =>
      obtain ⟨w, _, -, h⟩ := Stateful.bind_eq_ok.mp h
      have hv := (Stateful.lift_eq_ok.mp h).1
      cases w <;> cases hv
      simp [Value.numberType]
    | neg => cases he
  | binary op lhs rhs =>
    obtain ⟨l, _, -, h⟩ := Stateful.bind_eq_ok.mp h
    obtain ⟨r, _, -, h⟩ := Stateful.bind_eq_ok.mp h
    exact evalBinary_not_single he (Stateful.lift_eq_ok.mp h).1
  | _ => cases he

/-- A conditional makes the same of the value of a branch in both environments. -/
theorem alike_commonReal {sites : Site → Prop} {taken other : Expr} {s : Site}
    (hkinds : ∀ x ∈ (if neverSingle taken then [] else realReads other),
      (a.env x).bind Value.numberType = (b.env x).bind Value.numberType)
    (h : Alike sites (· = ·) (eval m p cs a s taken) (eval m p cs b s taken)) :
    Alike sites (fun v w => v = w ∧ commonReal p a.env v other = commonReal p b.env w other)
      (eval m p cs a s taken) (eval m p cs b s taken) := by
  intro c d hcd
  refine (h c d hcd).imp ?_ id
  rintro ⟨v, _, hv, hw, rfl⟩
  refine ⟨v, v, hv, hw, rfl, commonReal_of_numberType fun hsingle => ?_⟩
  have hnot : neverSingle taken = false := by
    by_contra htaken
    exact eval_not_single (by simpa using htaken) (Prod.ext hv rfl) hsingle
  simpa [hnot] using hkinds

section

variable {n : NodeDef}

theorem Sees.refl (e : Expr) (a : Frame) : Sees p e a a :=
  ⟨rfl, rfl, fun _ _ => rfl, fun _ _ => rfl, fun _ _ => rfl⟩

theorem sameCycleReads_of_child (h : c ∈ e.children) (hpre : ∀ arg, e ≠ .pre arg) {x : String}
    (hx : x ∈ sameCycleReads c) : x ∈ sameCycleReads e := by
  cases e with
  | const | var => cases h
  | pre arg => exact absurd rfl (hpre arg)
  | unary | cast | field =>
    obtain rfl := List.mem_singleton.mp h
    exact hx
  | when =>
    obtain rfl := List.mem_singleton.mp h
    exact List.mem_cons_of_mem _ hx
  | binary | arrow | index | ifThenElse | merge =>
    simp only [Expr.children, List.mem_cons, List.not_mem_nil, or_false] at h
    simp only [sameCycleReads, List.mem_append, List.mem_cons]
    rcases h with rfl | rfl | rfl <;> tauto
  | call _ items | tuple items | array items => exact mem_sameCycleReadsList.mpr ⟨c, h, hx⟩
  | struct _ fields =>
    obtain ⟨f, hf, rfl⟩ := List.mem_map.mp h
    exact mem_sameCycleReadsFields.mpr ⟨f, hf, hx⟩
  | iterate kind node init arrays =>
    cases init with
    | none => exact mem_sameCycleReadsList.mpr ⟨c, h, hx⟩
    | some seed =>
      simp only [sameCycleReads, List.mem_append, mem_sameCycleReadsList]
      rcases List.mem_cons.mp h with rfl | h
      · exact .inl hx
      · exact .inr ⟨c, h, hx⟩

/-- What `e` depends on, its subexpressions depend on, unless it is under `pre`. -/
theorem Sees.child (h : Sees p e a b) (hc : c ∈ e.children) (hpre : ∀ arg, e ≠ .pre arg) :
    Sees p c a b where
  state := h.state
  siteClocks := h.siteClocks
  reads x hx := h.reads x (sameCycleReads_of_child hc hpre hx)
  notices x hx := by
    refine h.notices x (hx.imp ?_ ?_)
    · rintro ⟨f, args, n, ht, hn⟩
      exact ⟨f, args, n, Expr.subterms_of_child hc ht, hn⟩
    · rintro ⟨kind, f, init, arrays, n, ht, hn⟩
      exact ⟨kind, f, init, arrays, n, Expr.subterms_of_child hc ht, hn⟩
  kinds x hx := by
    obtain ⟨t, ht, hx⟩ := List.mem_flatMap.mp hx
    exact h.kinds x (List.mem_flatMap.mpr ⟨t, Expr.subterms_of_child hc ht, hx⟩)

theorem Sees.branches (h : Sees p e a b) {l r : Expr}
    (hsub : ∀ x ∈ branchReads l r, x ∈ kindReads e) :
    (∀ x ∈ (if neverSingle l then [] else realReads r),
      (a.env x).bind Value.numberType = (b.env x).bind Value.numberType) ∧
    ∀ x ∈ (if neverSingle r then [] else realReads l),
      (a.env x).bind Value.numberType = (b.env x).bind Value.numberType :=
  ⟨fun x hx => h.kinds x (hsub x (List.mem_append_left _ hx)),
    fun x hx => h.kinds x (hsub x (List.mem_append_right _ hx))⟩

theorem kindReads_of_mem {t : Expr} {x : String} (ht : t ∈ e.subterms)
    (hx : x ∈ (match t with
      | .ifThenElse _ a b | .arrow a b | .merge _ a b => branchReads a b
      | _ => [])) : x ∈ kindReads e :=
  List.mem_flatMap.mpr ⟨t, ht, hx⟩

theorem Sees.firstTick (h : Sees p e a b) (site : Site) : firstTick a site = firstTick b site := by
  simp only [Simulator.firstTick, h.state, h.siteClocks]

theorem Sees.preValue {arg : Expr} (h : Sees p e a b) (site : Site) :
    preValue a site arg = preValue b site arg := by
  simp only [Simulator.preValue, h.firstTick site, h.state]

theorem stepped_below {s : Site} (h : Stepped p site e s) : Below site e s :=
  (operatorCalls_sublist e site).subset h

theorem steppedList_below {k : Nat} {es : List Expr} {s : Site} (h : SteppedList p site k es s) :
    BelowList site k es s :=
  (operatorCallsList_sublist (fun e _ site => operatorCalls_sublist e site) k).subset h

theorem steppedList_cons {k : Nat} {es : List Expr} {s : Site} :
    SteppedList p site k (e :: es) s ↔
      Stepped p (site.child k) e s ∨ SteppedList p site (k + 1) es s := by
  rw [SteppedList, operatorCallsList, List.map_append, List.mem_append]
  rfl

theorem belowList_getElem {k : Nat} {es : List Expr} {s : Site} :
    BelowList site k es s ↔ ∃ i e, es[i]? = some e ∧ Below (site.child (k + i)) e s := by
  induction es generalizing k with
  | nil => simp [BelowList, Site.subtermsList]
  | cons e es ih =>
    rw [belowList_cons, ih]
    constructor
    · rintro (h | ⟨i, c, hc, h⟩)
      · exact ⟨0, e, rfl, h⟩
      · exact ⟨i + 1, c, hc, by rwa [Nat.add_comm i 1, ← Nat.add_assoc]⟩
    · rintro ⟨i, c, hc, h⟩
      cases i with
      | zero =>
        cases hc
        exact .inl h
      | succ i => exact .inr ⟨i, c, hc, by rwa [Nat.add_comm i 1, ← Nat.add_assoc] at h⟩

/-- A call is at none of the sites below it. -/
theorem not_belowList_self (es : List Expr) (k : Nat) : ¬ BelowList site k es site := by
  rw [belowList_getElem]
  rintro ⟨i, e, -, h⟩
  obtain ⟨x, hx, hsite⟩ := List.mem_map.mp h
  have hlen := (Site.below e (site.child (k + i)) x hx).2.2.length_le
  rw [hsite] at hlen
  exact absurd hlen (Nat.not_succ_le_self _)

end

end

section

variable {m : Machine} {p : Project} {cs : Callees} {a b : Frame} {site : Site}

/-- A call depends on its arguments, on what it can notice of its caller's
environment and, for an operator, on its own instance. -/
structure CalleesAlike (p : Project) (cs : Callees) : Prop where
  keep : CalleesKeep p cs
  stepInstance : ∀ site f c, p.findNode f = some c → ∀ args, args.length = c.inputs.length →
    ∀ a b, EnvAgree (Outer p c) a b →
    Alike (fun s => c.kind = .operator ∧ s = site) (· = ·) (cs.stepInstance site c args a)
      (cs.stepInstance site c args b)
  callFunctionValues : ∀ f c, p.findNode f = some c → ∀ args a b, EnvAgree (Outer p c) a b →
    cs.callFunctionValues c args a = cs.callFunctionValues c args b

theorem alike_evalList (hcs : CalleesKeep p cs) {es : List Expr} {k : Nat}
    (h : ∀ i e, es[i]? = some e → Alike (Stepped p (site.child (k + i)) e) (· = ·)
      (eval m p cs a (site.child (k + i)) e) (eval m p cs b (site.child (k + i)) e)) :
    Alike (SteppedList p site k es) (· = ·) (evalList m p cs a site k es)
      (evalList m p cs b site k es) := by
  induction es generalizing k with
  | nil => exact .pure rfl
  | cons e es ih =>
    refine ((h 0 e rfl).mono fun s hs => steppedList_cons.mpr (.inl hs)).bind
      (SteppedList p site (k + 1) es) (keeps_eval hcs e _) (keeps_eval hcs e _) (fun s hs => ?_) ?_
    · exact ⟨steppedList_cons.mpr (.inr hs),
        fun hs' => not_belowList hs' (Nat.lt_succ_self k) es (steppedList_below hs)⟩
    · rintro v _ rfl
      refine (ih fun i e he => ?_).map ?_
      · rw [Nat.add_assoc, Nat.add_comm 1 i]
        exact h (i + 1) e he
      · rintro vs _ rfl
        rfl

theorem alike_evalFields (hcs : CalleesKeep p cs) {fields : List (String × Expr)} {k : Nat}
    {r : List (String × Value)}
    (h : ∀ i e, (fields.map (·.2))[i]? = some e → Alike (Stepped p (site.child (k + i)) e) (· = ·)
      (eval m p cs a (site.child (k + i)) e) (eval m p cs b (site.child (k + i)) e)) :
    Alike (SteppedList p site k (fields.map (·.2))) (· = ·) (evalFields m p cs a site k r fields)
      (evalFields m p cs b site k r fields) := by
  induction fields generalizing k r with
  | nil => exact .pure rfl
  | cons f fields ih =>
    refine ((h 0 f.2 rfl).mono fun s hs => steppedList_cons.mpr (.inl hs)).bind
      (SteppedList p site (k + 1) (fields.map (·.2))) (keeps_eval hcs f.2 _) (keeps_eval hcs f.2 _)
      (fun s hs => ?_) ?_
    · exact ⟨steppedList_cons.mpr (.inr hs),
        fun hs' => not_belowList hs' (Nat.lt_succ_self k) _ (steppedList_below hs)⟩
    · rintro v _ rfl
      refine ih fun i e he => ?_
      rw [Nat.add_assoc, Nat.add_comm 1 i]
      exact h (i + 1) e he

theorem alike_evalArrays (hcs : CalleesKeep p cs) {es : List Expr} {k : Nat}
    (h : ∀ i e, es[i]? = some e → Alike (Stepped p (site.child (k + i)) e) (· = ·)
      (eval m p cs a (site.child (k + i)) e) (eval m p cs b (site.child (k + i)) e)) :
    Alike (SteppedList p site k es) (· = ·) (evalArrays m p cs a site k es)
      (evalArrays m p cs b site k es) := by
  induction es generalizing k with
  | nil => exact .pure rfl
  | cons e es ih =>
    refine ((h 0 e rfl).mono fun s hs => steppedList_cons.mpr (.inl hs)).bind
      (SteppedList p site (k + 1) es) (keeps_eval hcs e _) (keeps_eval hcs e _) (fun s hs => ?_) ?_
    · exact ⟨steppedList_cons.mpr (.inr hs),
        fun hs' => not_belowList hs' (Nat.lt_succ_self k) es (steppedList_below hs)⟩
    · rintro v _ rfl
      refine .lift_bind fun xs => (ih fun i e he => ?_).map ?_
      · rw [Nat.add_assoc, Nat.add_comm 1 i]
        exact h (i + 1) e he
      · rintro xss _ rfl
        rfl

theorem Sees.call {f : String} {args : List Expr} {c : NodeDef} (h : Sees p (.call f args) a b)
    (hf : p.findNode f = some c) : EnvAgree (Outer p c) a.env b.env :=
  fun x hx => h.notices x (.inl ⟨f, args, c, Expr.self_mem_subterms _, hf, hx⟩)

theorem Sees.iterate {kind : IterKind} {f : String} {init : Option Expr} {arrays : List Expr}
    {c : NodeDef} (h : Sees p (.iterate kind f init arrays) a b) (hf : p.findNode f = some c) :
    EnvAgree (Outer p c) (constantsFromEnv p a.env) (constantsFromEnv p b.env) := by
  intro x hx
  unfold constantsFromEnv
  cases hconst : p.isConstant x with
  | false => rfl
  | true =>
    exact h.notices x (.inr ⟨kind, f, init, arrays, c, Expr.self_mem_subterms _, hf, hconst, hx⟩)

theorem alike_held (hcs : CalleesKeep p cs) {defaults : List Expr} {sites : Site → Prop}
    (hself : sites site) (hbelow : ∀ s, BelowList site 2 defaults s → sites s)
    (h : ∀ i e, defaults[i]? = some e → Alike (Stepped p (site.child (2 + i)) e) (· = ·)
      (eval m p cs a (site.child (2 + i)) e) (eval m p cs b (site.child (2 + i)) e)) :
    Alike sites (· = ·) (held m p cs a site defaults) (held m p cs b site defaults) := by
  intro c d hcd
  have hlast : lastOutputs site c = lastOutputs site d := by
    rw [lastOutputs, lastOutputs, hcd site hself]
  simp only [held, Stateful.bind_apply, Stateful.get_apply, hlast]
  cases lastOutputs site d with
  | some v => exact .ok rfl
  | none =>
    have hlist := (alike_evalList (a := a) (b := b) hcs h).mono fun s hs =>
      hbelow s (steppedList_below hs)
    refine (hlist.andThen (R := (· = ·)) ?_) c d hcd
    rintro vs _ rfl
    split <;> exact .pure rfl

theorem alike_condact (hcs : CalleesKeep p cs) {node : String} {args : List Expr}
    (hnode : isCondact p node = true)
    (h : ∀ i e, args[i]? = some e → Alike (Stepped p (site.child i) e) (· = ·)
      (eval m p cs a (site.child i) e) (eval m p cs b (site.child i) e)) :
    Alike (Stepped p site (.call node args)) (· = ·) (eval m p cs a site (.call node args))
      (eval m p cs b site (.call node args)) := by
  have hcondact := isCondact_iff.mp hnode
  match args with
  | [] | [_] =>
    rw [eval_condact_arity hcondact (by simp), eval_condact_arity hcondact (by simp)]
    exact .lift _
  | clock :: call :: defaults =>
    have hstepped (s : Site) : Stepped p site (.call node (clock :: call :: defaults)) s ↔
        s = site ∨ Stepped p (site.child 0) clock s ∨ BelowList site 1 (call :: defaults) s := by
      simp only [Stepped, operatorCalls, if_pos hnode, condactCalls, BelowList, List.map_cons,
        List.map_append, List.map_map, List.mem_cons, List.mem_append]
      rfl
    rw [eval_condact hcondact, eval_condact hcondact]
    refine ((h 0 clock rfl).mono fun s hs => (hstepped s).mpr (.inr (.inl hs))).bind
      (fun s => s = site ∨ BelowList site 1 (call :: defaults) s) (keeps_eval hcs clock _)
      (keeps_eval hcs clock _) ?_ ?_
    · refine fun s hs => ⟨(hstepped s).mpr (hs.imp_right .inr), fun hclock => ?_⟩
      rcases hs with rfl | hs
      · exact not_belowList_self [clock] 0 (belowList_cons.mpr (.inl hclock))
      · exact not_belowList hclock Nat.one_pos _ hs
    · rintro v _ rfl
      refine .lift_bind fun holds => ?_
      cases holds with
      | true =>
        refine ((h 1 call rfl).mono fun s hs => .inr (belowList_cons.mpr
          (.inl (stepped_below hs)))).andThen ?_
        rintro w _ rfl
        exact fun c d _ => .ok rfl
      | false =>
        refine alike_held hcs (.inl rfl) (fun s hs => .inr (belowList_cons.mpr (.inr hs))) ?_
        intro i e he
        rw [Nat.add_comm]
        exact h (i + 2) e he

theorem alike_call (hcs : CalleesAlike p cs) {node : String} {args : List Expr}
    (hfr : Sees p (.call node args) a b)
    (h : ∀ i e, args[i]? = some e → Alike (Stepped p (site.child i) e) (· = ·)
      (eval m p cs a (site.child i) e) (eval m p cs b (site.child i) e)) :
    Alike (Stepped p site (.call node args)) (· = ·) (eval m p cs a site (.call node args))
      (eval m p cs b site (.call node args)) := by
  by_cases hnode : isCondact p node = true
  · exact alike_condact hcs.keep hnode h
  · rw [eval_call (not_isCondact hnode), eval_call (not_isCondact hnode)]
    cases hcallee : callee p node args.length with
    | error e => exact .fail e
    | ok c =>
      obtain ⟨hf, hlen, -⟩ := callee_eq_ok hcallee
      have hlist : Alike (SteppedList p site 0 args) (· = ·) (evalList m p cs a site 0 args)
          (evalList m p cs b site 0 args) :=
        alike_evalList hcs.keep fun i e he => by simpa using h i e he
      have hstepped (s : Site) : Stepped p site (.call node args) s ↔
          s ∈ (operatorCall p site node).map (·.1) ∨ SteppedList p site 0 args s := by
        rw [Stepped, operatorCalls, if_neg hnode, List.map_append, List.mem_append]
        rfl
      change Alike _ _ (do
        let vs ← evalList m p cs a site 0 args
        cs.stepInstance site c vs a.env) (do
        let vs ← evalList m p cs b site 0 args
        cs.stepInstance site c vs b.env)
      refine ((hlist.mono fun s hs => (hstepped s).mpr (.inr hs)).and_left
        (fun _ _ _ => evalList_length)).bind (fun s => c.kind = .operator ∧ s = site)
        (keeps_evalList (fun e _ => keeps_eval hcs.keep e) 0)
        (keeps_evalList (fun e _ => keeps_eval hcs.keep e) 0) ?_ ?_
      · rintro s ⟨hkind, rfl⟩
        refine ⟨(hstepped s).mpr (.inl ?_), not_belowList_self args 0⟩
        rw [operatorCall_of_callee hcallee, if_pos hkind]
        exact List.mem_singleton.mpr rfl
      · rintro vs _ ⟨rfl, hvs⟩
        exact hcs.stepInstance site node c hf vs (hvs.trans hlen) _ _ (hfr.call hf)

theorem alike_iterate (hcs : CalleesAlike p cs) {kind : IterKind} {f : String} {init : Option Expr}
    {arrays : List Expr} (hfr : Sees p (.iterate kind f init arrays) a b)
    (h : ∀ i e, (init.toList ++ arrays)[i]? = some e → Alike (Stepped p (site.child i) e) (· = ·)
      (eval m p cs a (site.child i) e) (eval m p cs b (site.child i) e)) :
    Alike (Stepped p site (.iterate kind f init arrays)) (· = ·)
      (eval m p cs a site (.iterate kind f init arrays))
      (eval m p cs b site (.iterate kind f init arrays)) := by
  have hcalls {c : NodeDef} (hc : iterated p f = .ok c) (args : List Value) :
      cs.callFunctionValues c args (constantsFromEnv p a.env) =
        cs.callFunctionValues c args (constantsFromEnv p b.env) :=
    hcs.callFunctionValues f c (iterated_eq_ok hc).1 args _ _
      (hfr.iterate (iterated_eq_ok hc).1)
  simp only [eval]
  cases hc : iterated p f with
  | error e => exact .fail e
  | ok c =>
    cases init with
    | none =>
      have harrays : Alike (Stepped p site (.iterate kind f none arrays)) (· = ·)
          (evalArrays m p cs a site 0 arrays) (evalArrays m p cs b site 0 arrays) :=
        alike_evalArrays hcs.keep fun i e he => by simpa using h i e he
      refine harrays.andThen ?_
      rintro arrs _ rfl
      refine .lift_bind fun rows => ?_
      cases kind with
      | map =>
        simp only [hcalls hc]
        exact .lift_bind fun out => .pure rfl
      | fold => exact .lift _
    | some seed =>
      have hstepped (s : Site) : Stepped p site (.iterate kind f (some seed) arrays) s ↔
          Stepped p (site.child 0) seed s ∨ SteppedList p site 1 arrays s := by
        rw [Stepped, operatorCalls, List.map_append, List.mem_append]
        rfl
      have harrays : Alike (SteppedList p site 1 arrays) (· = ·)
          (evalArrays m p cs a site 1 arrays) (evalArrays m p cs b site 1 arrays) :=
        alike_evalArrays hcs.keep fun i e he => h (1 + i) e (by rw [Nat.add_comm]; simpa using he)
      refine (harrays.mono fun s hs => (hstepped s).mpr (.inr hs)).bind
        (Stepped p (site.child 0) seed) (keeps_evalArrays (fun e _ => keeps_eval hcs.keep e) 1)
        (keeps_evalArrays (fun e _ => keeps_eval hcs.keep e) 1) (fun s hs => ?_) ?_
      · exact ⟨(hstepped s).mpr (.inl hs), not_belowList (stepped_below hs) Nat.one_pos arrays⟩
      · rintro arrs _ rfl
        refine .lift_bind fun rows => ?_
        cases kind with
        | map =>
          simp only [hcalls hc]
          exact .lift_bind fun out => .pure rfl
        | fold =>
          refine (h 0 seed rfl).andThen ?_
          rintro acc _ rfl
          cases arrs with
          | nil => exact .fail _
          | cons elems _ =>
            simp only [foldFunction, hcalls hc]
            exact .lift _

theorem stepped_pair {e l r : Expr} {s t : Site}
    (h : operatorCalls p site e = operatorCalls p s l ++ operatorCalls p t r) (x : Site) :
    Stepped p site e x ↔ Stepped p s l x ∨ Stepped p t r x := by
  simp only [Stepped, h, List.map_append, List.mem_append]

/-- Two operands, the first first. -/
theorem alike_pair (hcs : CalleesKeep p cs) {e l r : Expr} {f : Value → Value → Except Fault Value}
    (h : operatorCalls p site e = operatorCalls p (site.child 0) l ++ operatorCalls p (site.child 1) r)
    (hl : Alike (Stepped p (site.child 0) l) (· = ·) (eval m p cs a (site.child 0) l)
      (eval m p cs b (site.child 0) l))
    (hr : Alike (Stepped p (site.child 1) r) (· = ·) (eval m p cs a (site.child 1) r)
      (eval m p cs b (site.child 1) r)) :
    Alike (Stepped p site e) (· = ·)
      (do
        let v ← eval m p cs a (site.child 0) l
        let w ← eval m p cs a (site.child 1) r
        .lift (f v w))
      (do
        let v ← eval m p cs b (site.child 0) l
        let w ← eval m p cs b (site.child 1) r
        .lift (f v w)) := by
  refine (hl.mono fun s hs => (stepped_pair h s).mpr (.inl hs)).bind (Stepped p (site.child 1) r)
    (keeps_eval hcs l _) (keeps_eval hcs l _) (fun s hs => ?_) ?_
  · exact ⟨(stepped_pair h s).mpr (.inr hs), not_below_child (stepped_below hs) Nat.one_ne_zero⟩
  · rintro v _ rfl
    refine hr.andThen ?_
    rintro w _ rfl
    exact .lift _

/-- One branch for its value, then the other for its state. -/
theorem alike_branches (hcs : CalleesKeep p cs) {taken other : Expr} {s t : Site}
    (hst : ∀ r, Stepped p t other r → ¬ Below s taken r)
    (hkinds : ∀ x ∈ (if neverSingle taken then [] else realReads other),
      (a.env x).bind Value.numberType = (b.env x).bind Value.numberType)
    (htaken : Alike (Stepped p s taken) (· = ·) (eval m p cs a s taken) (eval m p cs b s taken))
    (hother : Alike (Stepped p t other) (· = ·) (eval m p cs a t other) (eval m p cs b t other)) :
    Alike (fun r => Stepped p s taken r ∨ Stepped p t other r) (· = ·)
      (do
        let v ← eval m p cs a s taken
        stepUntaken other (eval m p cs a t other)
        pure (commonReal p a.env v other))
      (do
        let v ← eval m p cs b s taken
        stepUntaken other (eval m p cs b t other)
        pure (commonReal p b.env v other)) := by
  refine ((alike_commonReal hkinds htaken).mono fun r => .inl).bind (Stepped p t other)
    (keeps_eval hcs taken s) (keeps_eval hcs taken s) (fun r hr => ⟨.inr hr, hst r hr⟩) ?_
  rintro v _ ⟨rfl, hv⟩
  exact (hother.stepUntaken other).andThen fun _ _ _ => .pure hv

/-- An expression has one value in evaluations that agree on what it depends on now. -/
theorem alike_eval (hcs : CalleesAlike p cs) (e : Expr) : ∀ site : Site, Sees p e a b →
    Alike (Stepped p site e) (· = ·) (eval m p cs a site e) (eval m p cs b site e) := by
  induction e using Expr.children_induct with
  | h e ih =>
  intro site hfr
  have hc (hpre : ∀ arg, e ≠ .pre arg) (k : Nat) (c : Expr) (hk : e.children[k]? = some c) :
      Alike (Stepped p (site.child k) c) (· = ·) (eval m p cs a (site.child k) c)
        (eval m p cs b (site.child k) c) :=
    ih c (List.mem_of_getElem? hk) _ (hfr.child (List.mem_of_getElem? hk) hpre)
  have happart {k l : Nat} (hkl : k ≠ l) (c d : Expr) (s : Site)
      (hs : Stepped p (site.child l) d s) : ¬ Below (site.child k) c s :=
    not_below_child (stepped_below hs) hkl.symm
  cases e with
  | const lit => exact .pure rfl
  | var name =>
    have hname : a.env name = b.env name := hfr.reads name (by simp [sameCycleReads])
    simp only [eval, variableValue, hname]
    exact .lift _
  | unary op arg =>
    refine (hc (by simp) 0 arg rfl).andThen ?_
    rintro v _ rfl
    exact .lift _
  | cast target arg =>
    refine (hc (by simp) 0 arg rfl).andThen ?_
    rintro v _ rfl
    exact .lift _
  | field base field =>
    refine (hc (by simp) 0 base rfl).andThen ?_
    rintro v _ rfl
    exact .lift _
  | when arg clock on => exact hc (by simp) 0 arg rfl
  | pre arg =>
    simp only [eval, hfr.preValue]
    exact .lift _
  | binary op lhs rhs =>
    exact alike_pair hcs.keep rfl (hc (by simp) 0 lhs rfl) (hc (by simp) 1 rhs rfl)
  | index base index =>
    exact alike_pair hcs.keep rfl (hc (by simp) 0 base rfl) (hc (by simp) 1 index rfl)
  | ifThenElse cond thenBranch elseBranch =>
    obtain ⟨hthen, helse⟩ := hfr.branches fun x hx => kindReads_of_mem (Expr.self_mem_subterms _) hx
    have hstepped (s : Site) : Stepped p site (.ifThenElse cond thenBranch elseBranch) s ↔
        Stepped p (site.child 0) cond s ∨ Stepped p (site.child 1) thenBranch s ∨
          Stepped p (site.child 2) elseBranch s := by
      simp only [Stepped, operatorCalls, List.map_append, List.mem_append]
    refine ((hc (by simp) 0 cond rfl).mono fun s hs => (hstepped s).mpr (.inl hs)).bind
      (fun s => Stepped p (site.child 1) thenBranch s ∨ Stepped p (site.child 2) elseBranch s)
      (keeps_eval hcs.keep cond _) (keeps_eval hcs.keep cond _) (fun s hs => ?_) ?_
    · exact ⟨(hstepped s).mpr (.inr hs), fun hcond => hs.elim
        (fun hs => happart Nat.zero_ne_one cond thenBranch s hs hcond)
        fun hs => happart (Nat.zero_ne_add_one 1) cond elseBranch s hs hcond⟩
    · rintro v _ rfl
      refine .lift_bind fun taken => ?_
      cases taken with
      | true =>
        exact alike_branches hcs.keep (happart (Nat.succ_ne_self 1).symm thenBranch elseBranch)
          hthen (hc (by simp) 1 thenBranch rfl) (hc (by simp) 2 elseBranch rfl)
      | false =>
        exact (alike_branches hcs.keep (happart (Nat.succ_ne_self 1) elseBranch thenBranch)
          helse (hc (by simp) 2 elseBranch rfl) (hc (by simp) 1 thenBranch rfl)).mono fun s => Or.symm
  | arrow init body =>
    obtain ⟨hinit, hbody⟩ := hfr.branches fun x hx => kindReads_of_mem (Expr.self_mem_subterms _) hx
    simp only [eval, hfr.firstTick site]
    split
    · exact (alike_branches hcs.keep (happart Nat.zero_ne_one init body) hinit
        (hc (by simp) 0 init rfl) (hc (by simp) 1 body rfl)).mono fun s => (stepped_pair rfl s).mpr
    · exact (alike_branches hcs.keep (happart Nat.one_ne_zero body init) hbody
        (hc (by simp) 1 body rfl) (hc (by simp) 0 init rfl)).mono fun s hs => (stepped_pair rfl s).mpr hs.symm
  | merge clock onTrue onFalse =>
    obtain ⟨htrue, hfalse⟩ := hfr.branches fun x hx => kindReads_of_mem (Expr.self_mem_subterms _) hx
    have hclock : a.env clock = b.env clock := hfr.reads clock (by simp [sameCycleReads])
    simp only [eval, hclock]
    split
    · exact ((alike_commonReal htrue (hc (by simp) 0 onTrue rfl)).mono fun s hs =>
        (stepped_pair rfl s).mpr (.inl hs)).andThen fun v w h => .pure h.2
    · exact ((alike_commonReal hfalse (hc (by simp) 1 onFalse rfl)).mono fun s hs =>
        (stepped_pair rfl s).mpr (.inr hs)).andThen fun v w h => .pure h.2
    · exact .lift _
    · exact .lift _
  | tuple items | array items =>
    refine (alike_evalList (k := 0) hcs.keep fun i e he => ?_).andThen fun vs _ h => h ▸ .pure rfl
    simpa using hc (by simp) i e he
  | struct ty fields =>
    have hfields : Alike (SteppedList p site 0 (fields.map (·.2))) (· = ·)
        (evalFields m p cs a site 0 [] fields) (evalFields m p cs b site 0 [] fields) :=
      alike_evalFields hcs.keep fun i e he => by simpa using hc (by simp) i e he
    refine (hfields.mono fun s hs => ?_).andThen fun r _ h => h ▸ .pure rfl
    rwa [Stepped, operatorCalls, operatorCallsFields_eq]
  | call node args => exact alike_call hcs hfr (hc (by simp))
  | iterate kind node init arrays => exact alike_iterate hcs hfr (hc (by simp))

end

section

variable {m : Machine} {p : Project} {cs : Callees} {n : NodeDef}

theorem StateAgree.refl (names : String → Prop) (s : State) : StateAgree p names s s := by
  refine @State.rec (fun s => ∀ names, StateAgree p names s s)
    (fun child => ∀ s ∈ child, ∀ names, StateAgree p names s s) ?_ ?_ ?_ s names
  · intro cycle prev clockTicks childCalls ih names
    refine .mk rfl rfl (fun _ _ => rfl) (fun _ => rfl) fun site s t hs ht => ?_
    obtain rfl : s = t := Option.some.inj (hs.symm.trans ht)
    exact ih site s hs _
  · exact nofun
  · intro s ih t ht
    cases ht
    exact ih

theorem CallsAgree.refl (calls : Calls) : CallsAgree p calls calls :=
  fun site => ⟨rfl, fun s t hs ht => by
    obtain rfl : s = t := by simpa [hs] using ht
    exact .refl _ s⟩

/-- A body without operator calls does not look at the instances. -/
theorem alike_equationSteps (hcs : CalleesAlike p cs) (hnone : ∀ i, equationCalls p n i = [])
    (info : ClockInfo) (state : State) (order : List Nat) (env : Env) :
    Alike (fun _ => False) (· = ·) (equationSteps m p cs n info state order env)
      (equationSteps m p cs n info state order env) := by
  induction order generalizing env with
  | nil => exact .pure rfl
  | cons i order ih =>
    refine Alike.andThen (Q := (· = ·)) ?_ fun env' _ h => h ▸ ih env'
    unfold equationStep
    cases heq : n.equations[i]? with
    | none => exact .pure rfl
    | some eq =>
      refine .lift_bind fun active => ?_
      cases active with
      | false => exact .pure rfl
      | true =>
        refine ((alike_eval hcs eq.rhs _ (.refl _ _)).mono fun s hs => ?_).andThen
          fun v _ h => h ▸ .lift _
        rw [Stepped, ← equationCalls_of_getElem? heq, hnone i] at hs
        exact List.not_mem_nil hs

/-- The cycle of an instance that has left its place in the calls, in two environments that
agree. -/
theorem related_cycle (hn : n ∈ p.allNodes) (hname : p.allNodes.find? (·.name = n.name) = some n)
    (hcs : CalleesAgree p cs) (site : Site) (order : List Nat) {a b : Env}
    (h : EnvAgree (Inner p n) a b) (c d : Calls) (state : State) :
    Stateful.Related (fun _ _ => True) (· = ·)
      (do
        .set (c.set site none)
        let (env, childCalls) ← .within state.childCalls
          (equationSteps m p cs n (clocksOf n) state order (reseed n state.prev a))
        let ((), ticks) ← .within state.clockTicks (tickChains env (clocksOf n).chains)
        .set (c.set site (some (state.next env ticks childCalls)))
        pure (extractOutput n env) : EvalM Value)
      (do
        .set (d.set site none)
        let (env, childCalls) ← .within state.childCalls
          (equationSteps m p cs n (clocksOf n) state order (reseed n state.prev b))
        let ((), ticks) ← .within state.clockTicks (tickChains env (clocksOf n).chains)
        .set (d.set site (some (state.next env ticks childCalls)))
        pure (extractOutput n env)) := by
  have hinfo := clocksOf_from p n
  refine (Stateful.Related.set trivial).bind fun _ _ _ => ?_
  refine ((related_equationSteps hn hname hcs hinfo rfl rfl (fun _ _ => rfl) order
    (h.reseed fun _ _ => rfl)).within (CallsAgree.refl state.childCalls)).bind ?_
  rintro ⟨a', c'⟩ ⟨b', d'⟩ ⟨h', -⟩
  replace h' : EnvAgree (Inner p n) a' b' := h'
  have hticks : Stateful.Related (ε := Fault) (· = ·) (· = ·) (tickChains a' (clocksOf n).chains)
      (tickChains b' (clocksOf n).chains) := by
    rw [tickChains_congr h' hinfo.chains]
    rintro s t rfl
    exact ⟨rfl, .refl _⟩
  refine (hticks.within rfl).bind ?_
  rintro ⟨_, ticks⟩ ⟨_, _⟩ ⟨-, rfl⟩
  refine (Stateful.Related.set trivial).bind fun _ _ _ => ?_
  exact .pure (extractOutput_congr h')

/-- A cycle of an operator's instance looks at no other instance of its caller. -/
theorem alike_stepOperator (hn : n ∈ p.allNodes)
    (hname : p.allNodes.find? (·.name = n.name) = some n) (hcs : CalleesAgree p cs) (site : Site)
    (order : List Nat) {a b : Env} (h : EnvAgree (Inner p n) a b) :
    Alike (· = site) (· = ·) (stepOperator m p cs site n order a)
      (stepOperator m p cs site n order b) := by
  intro c d hcd
  have hstate : c site = d site := hcd site rfl
  have hagree :=
    (related_cycle (m := m) hn hname hcs site order h c d ((c site).getD .initial) c d trivial).2
  simp only [stepOperator, Stateful.bind_apply, Stateful.get_apply]
  rw [← hstate]
  exact hagree

/-- Calls to any depth. -/
theorem calleesAlike (m : Machine) (hp : FunctionsStateless p) (depth : Nat) :
    CalleesAlike p (callees m p depth) ∧
      CalleesTick p (callees m p depth) fun _ _ _ _ _ => False := by
  induction depth with
  | zero =>
    refine ⟨⟨fun _ _ _ _ _ => .of_same fun _ => rfl, ?_, fun _ _ _ _ _ _ _ => rfl⟩,
      ⟨fun _ _ _ _ _ => .of_same fun _ => rfl, fun _ _ h => h.elim, fun _ _ _ _ _ _ _ => rfl⟩⟩
    exact fun _ _ _ _ _ _ _ _ _ => .fail _
  | succ depth ih =>
    obtain ⟨ih, hticks⟩ := ih
    have hkeep : CalleesKeep p (callees m p (depth + 1)) := fun site n vs consts hn =>
      keeps_stepInstance hticks hp hn site vs consts
    refine ⟨⟨hkeep, ?_, (calleesAgree m p (depth + 1)).callFunctionValues⟩,
      ⟨hkeep, fun _ _ h => h.elim, fun site n vs consts calls hn hkind =>
        stepFunction_calls hticks hp hn hkind site vs consts calls⟩⟩
    intro site f n hf args hlen a b h
    have hn := Project.mem_of_findNode hf
    have hname := Project.find?_name_of_findNode hf
    have hagree := calleesAgree m p depth
    change Alike _ _ (stepInstance m p _ site n args a) (stepInstance m p _ site n args b)
    unfold stepInstance
    refine .lift_agree_bind (agree_calleeEnv hlen h) fun a' b' (h' : EnvAgree (Inner p n) a' b') => ?_
    refine .lift_bind fun order => ?_
    cases hkind : n.kind with
    | operator => exact (alike_stepOperator hn hname hagree site order h').mono fun s hs => ⟨rfl, hs⟩
    | imported => exact .fail _
    | function =>
      refine Alike.andThen (Q := EnvAgree (Inner p n)) ?_ fun a'' b'' h'' =>
        .pure (extractOutput_congr h'')
      intro c d _
      rw [← (alike_equationSteps ih (hp n hn hkind) _ _ order b' c d nofun).eq]
      exact (related_equationSteps hn hname hagree (clocksOf_from p n) rfl rfl (fun _ _ => rfl) order
        h' c c (.refl c)).2

end

section

variable {m : Machine} {p : Project} {cs : Callees} {n : NodeDef} {state : State}
  {sources : String → Prop} {i : Nat} {a b a' b' : Env} {c d c' d' : Calls}

theorem keeps_equationStep (hcs : CalleesKeep p cs) (info : ClockInfo) (env : Env) (i : Nat) :
    Keeps (fun s => s.eq = i) (equationStep m p cs n info state env i) := by
  unfold equationStep
  cases heq : n.equations[i]? with
  | none => exact .pure env
  | some eq =>
    refine (Keeps.lift _).bind fun active => ?_
    cases active with
    | false => exact .pure env
    | true =>
      refine ((keeps_eval hcs eq.rhs _).mono fun s hs => ?_).bind fun v => .lift _
      obtain ⟨x, hx, rfl⟩ := List.mem_map.mp hs
      exact (Site.below eq.rhs _ x hx).2.1

theorem equationStep_keeps (hcs : CalleesKeep p cs) {info : ClockInfo} {s : Site}
    (h : equationStep m p cs n info state a i c = (.ok a', c')) (hs : ¬ s.eq = i) : c' s = c s := by
  have hkeep : (equationStep m p cs n info state a i c).2 s = c s :=
    keeps_equationStep hcs info a i c s hs
  rwa [h] at hkeep

/-- Two environments in which the sources may differ, with values of one number type
where no equation computes them. -/
structure Differ (p : Project) (n : NodeDef) (sources : String → Prop) (a b : Env) : Prop where
  agree : EnvAgree (fun x => ¬ Affected p n sources x) a b
  kinds : ∀ x, x ∉ n.equations.flatMap (·.lhs) →
    (a x).bind Value.numberType = (b x).bind Value.numberType

theorem not_mem_defines {x : String} (hx : x ∉ n.equations.flatMap (·.lhs)) : x ∉ n.defines i := by
  intro hdef
  obtain ⟨eq, heq, hmem⟩ := mem_defines.mp hdef
  exact hx (List.mem_flatMap.mpr ⟨eq, List.mem_of_getElem? heq, hmem⟩)

/-- An equation that depends on nothing that differs. -/
theorem agree_equationStep (hcs : CalleesAlike p cs)
    (hclean : ∀ y, DependsNow p n i y → ¬ Affected p n sources y) (h : Differ p n sources a b)
    (hcalls : ∀ s, s.eq = i → c s = d s) :
    Except.Agree (EnvAgree fun x => ¬ Affected p n sources x)
      (equationStep m p cs n (clocksOf n) state a i c).1
      (equationStep m p cs n (clocksOf n) state b i d).1 := by
  unfold equationStep
  cases heq : n.equations[i]? with
  | none => exact .ok h.agree
  | some eq =>
    have hactive : isActive (clocksOf n) i a = isActive (clocksOf n) i b := by
      unfold isActive
      cases hck : (clocksOf n).equationClocks[i]? with
      | none => rfl
      | some ck =>
        refine clockActiveOn_congr fun cond hcond => h.agree _ (hclean _ ?_)
        exact .clock hck (List.mem_map_of_mem hcond)
    have hfr : Sees p eq.rhs ⟨a, state, (clocksOf n).siteClocks⟩ ⟨b, state, (clocksOf n).siteClocks⟩ :=
      { state := rfl
        siteClocks := rfl
        reads := fun x hx => h.agree x (hclean x (.read heq hx))
        notices := fun x hx => h.agree x (hclean x (.notice heq hx))
        kinds := fun x hx => by
          by_cases hdef : x ∈ n.equations.flatMap (·.lhs)
          · exact congrArg (·.bind Value.numberType) (h.agree x (hclean x (.kind heq hx hdef)))
          · exact h.kinds x hdef }
    have hsites : ∀ s, Stepped p ⟨n.name, i, []⟩ eq.rhs s → s.eq = i := fun s hs => by
      obtain ⟨x, hx, rfl⟩ := List.mem_map.mp (stepped_below hs)
      exact (Site.below eq.rhs _ x hx).2.1
    have hstep : Alike (fun s => s.eq = i) (EnvAgree fun x => ¬ Affected p n sources x)
        (do
          if ← .lift (isActive (clocksOf n) i a) then
            let v ← eval m p cs ⟨a, state, (clocksOf n).siteClocks⟩ ⟨n.name, i, []⟩ eq.rhs
            .lift (bindLhs m p n eq a v)
          else pure a)
        (do
          if ← .lift (isActive (clocksOf n) i b) then
            let v ← eval m p cs ⟨b, state, (clocksOf n).siteClocks⟩ ⟨n.name, i, []⟩ eq.rhs
            .lift (bindLhs m p n eq b v)
          else pure b) := by
      rw [hactive]
      refine .lift_bind fun active => ?_
      cases active with
      | false => exact .pure h.agree
      | true =>
        refine ((alike_eval hcs eq.rhs _ hfr).mono hsites).andThen ?_
        rintro v _ rfl
        exact .lift_agree (agree_bindLhs h.agree eq v)
    exact hstep c d hcalls

/-- What is not affected by the sources stays the same. -/
theorem differ_equationStep (hcs : CalleesAlike p cs) (h : Differ p n sources a b)
    (hcalls : ∀ s, s.eq = i → c s = d s)
    (ha : equationStep m p cs n (clocksOf n) state a i c = (.ok a', c'))
    (hb : equationStep m p cs n (clocksOf n) state b i d = (.ok b', d')) :
    Differ p n sources a' b' where
  agree := by
    by_cases hclean : ∀ y, DependsNow p n i y → ¬ Affected p n sources y
    · have hagree : Except.Agree (EnvAgree fun x => ¬ Affected p n sources x)
          (equationStep m p cs n (clocksOf n) state a i c).1
          (equationStep m p cs n (clocksOf n) state b i d).1 :=
        agree_equationStep hcs hclean h hcalls
      rw [ha, hb] at hagree
      rcases hagree with ⟨_, _, ha', hb', hab⟩ | ⟨e, he, -⟩
      · cases ha'
        cases hb'
        exact hab
      · cases he
    · -- all that the equation defines may differ
      push Not at hclean
      obtain ⟨y, hy, haffected⟩ := hclean
      intro x hx
      have hdef : x ∉ n.defines i := by
        intro hdef
        obtain ⟨eq, heq, hmem⟩ := mem_defines.mp hdef
        exact hx (.equation heq hmem hy haffected)
      rw [equationStep_frame ha hdef, equationStep_frame hb hdef]
      exact h.agree x hx
  kinds x hx := by
    rw [equationStep_frame ha (not_mem_defines hx), equationStep_frame hb (not_mem_defines hx)]
    exact h.kinds x hx

theorem differ_equationSteps (hcs : CalleesAlike p cs) {order : List Nat} (hnodup : order.Nodup)
    (h : Differ p n sources a b) (hcalls : ∀ s, s.eq ∈ order → c s = d s)
    (ha : equationSteps m p cs n (clocksOf n) state order a c = (.ok a', c'))
    (hb : equationSteps m p cs n (clocksOf n) state order b d = (.ok b', d')) :
    Differ p n sources a' b' := by
  induction order generalizing a b c d with
  | nil =>
    cases ha
    cases hb
    exact h
  | cons i order ih =>
    obtain ⟨a₁, c₁, ha₁, ha⟩ := Stateful.bind_eq_ok.mp ha
    obtain ⟨b₁, d₁, hb₁, hb⟩ := Stateful.bind_eq_ok.mp hb
    rw [List.nodup_cons] at hnodup
    refine ih hnodup.2 (differ_equationStep hcs h ?_ ha₁ hb₁) (fun s hs => ?_) ha hb
    · exact fun s hs => hcalls s (hs ▸ List.mem_cons_self)
    · have hne : ¬ s.eq = i := fun heq => hnodup.1 (heq ▸ hs)
      have hc := equationStep_keeps hcs.keep ha₁ hne
      have hd := equationStep_keeps hcs.keep hb₁ hne
      exact hc.trans ((hcalls s (List.mem_cons_of_mem _ hs)).trans hd.symm)

end

end OpenLustre.Simulator
