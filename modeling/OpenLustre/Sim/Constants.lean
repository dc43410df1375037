import OpenLustre.NativeProject.Ordering
import OpenLustre.Sim.Faults
import OpenLustre.Typecheck.Check

/-! The names a constant reads, in its value and in the bodies of the functions it calls,
against the order in which constants are evaluated. -/

namespace OpenLustre.Simulator

open OpenLustre.Ir OpenLustre.NativeProject

/-- A node whose body runs when `e` is evaluated: one that `e` applies, or one applied in such
a body. -/
inductive Reaches (p : Project) : Expr → NodeDef → Prop
  | applied {e : Expr} {f : String} {n : NodeDef} : f ∈ e.applied → p.findNode f = some n →
      Reaches p e n
  | body {e : Expr} {n c : NodeDef} {eq : Equation} : Reaches p e n → eq ∈ n.equations →
      Reaches p eq.rhs c → Reaches p e c

/-- The names that `e` reads, directly or through the body of a node it reaches. -/
def ReadsName (p : Project) (e : Expr) (x : String) : Prop :=
  x ∈ e.freeVars ∨
    ∃ n, Reaches p e n ∧ ∃ eq ∈ n.equations, x ∈ eq.rhs.freeVars ∧ x ∉ n.declaredNames

/-- Every constant comes after the constants it reads, and reads no other name but a
variant. -/
def ConstantsOrdered (p : Project) : Prop :=
  ∀ before c after, p.allConstants = before ++ c :: after → ∀ x, ReadsName p c.value x →
    x ∈ before.map (·.name) ∨ (enumVariantValue p x).isSome

/-- A name had no value. -/
def EvalError.IsUnbound : EvalError → Prop
  | .unbound _ => True
  | .constant _ e => e.IsUnbound
  | _ => False

def Fault.Named : Fault → Prop
  | .error e => ¬ e.IsUnbound
  | .panic _ => True

mutual

/-- The names that every evaluation of an expression reads: those outside branches. -/
def strictReads : Expr → List String
  | .var name => [name]
  | .const _ | .pre _ | .arrow _ _ | .merge _ _ _ => []
  | .unary _ arg | .cast _ arg | .field arg _ | .when arg _ _ => strictReads arg
  | .binary _ lhs rhs | .index lhs rhs => strictReads lhs ++ strictReads rhs
  | .ifThenElse c _ _ => strictReads c
  | .call node args => if node = condact then [] else strictReadsList args
  | .tuple items | .array items => strictReadsList items
  | .struct _ fields => strictReadsFields fields
  | .iterate _ _ _ arrays => strictReadsList arrays

def strictReadsList : List Expr → List String
  | [] => []
  | e :: es => strictReads e ++ strictReadsList es

def strictReadsFields : List (String × Expr) → List String
  | [] => []
  | (_, e) :: fields => strictReads e ++ strictReadsFields fields

end

section

variable {m : Machine} {p : Project}

theorem named_of_isPlain (f : Fault) (h : f.IsPlain) : f.Named := by
  cases f with
  | panic => trivial
  | error e =>
    cases e with
    | unbound | constant => exact h.elim
    | _ => exact id

theorem named_constant (name : String) (e : EvalError) :
    (Fault.error (.constant name e)).Named ↔ (Fault.error e).Named := Iff.rfl

theorem mem_applied_of_call {e : Expr} {f : String} {args : List Expr}
    (h : .call f args ∈ e.subterms) : f ∈ e.applied :=
  List.mem_filterMap.mpr ⟨_, h, rfl⟩

theorem mem_applied_of_iterate {e : Expr} {kind : IterKind} {f : String} {init : Option Expr}
    {arrays : List Expr} (h : .iterate kind f init arrays ∈ e.subterms) : f ∈ e.applied :=
  List.mem_filterMap.mpr ⟨_, h, rfl⟩

/-! ## A name that is read has a value -/

/-- The nodes a constant reaches, run where every constant that it reads has a value. -/
theorem fails_reached {e : Expr} {env : Env} (hreads : ∀ x, ReadsName p e x →
      p.isConstant x = true ∧ (env x).isSome ∨ (enumVariantValue p x).isSome)
    (depth : Nat) {n : NodeDef} (hn : Reaches p e n) {env' : Env}
    (henv : KeepsConstants p env env') :
    (∀ site vs, vs.length = n.inputs.length →
      ((callees m p depth).stepInstance site n vs env').Fails Fault.Named) ∧
    ∀ vs, ((callees m p depth).callFunctionValues n vs env').Fails Fault.Named := by
  induction depth generalizing n env' with
  | zero => exact ⟨fun _ _ _ => .fail trivial, fun _ => .error trivial⟩
  | succ depth ih =>
    have hbody : SoundBody m p Fault.Named (callees m p depth) env' n := by
      refine ⟨fun port _ => ⟨fails_defaultValue trivial _ _, fails_fitTo trivial _ _⟩, ?_, ?_, ?_⟩
      · intro eq heq x hx
        by_cases hdecl : x ∈ n.declaredNames
        · exact .inl hdecl
        · have hfree : x ∈ eq.rhs.freeVars := Expr.mem_freeVars.mpr ⟨_, hx, rfl⟩
          rcases hreads x (.inr ⟨n, hn, eq, heq, hfree, hdecl⟩) with ⟨hconst, hsome⟩ | hvariant
          · exact .inr (.inl ⟨hconst, henv x hconst hsome⟩)
          · exact .inr (.inr (.inl hvariant))
      · intro eq heq f args hx c hc _ env'' henv'' site vs hlen
        have hreach := hn.body heq (.applied (mem_applied_of_call hx) hc)
        exact (ih hreach fun x hx hsome => henv'' x hx (henv x hx hsome)).1 site vs hlen
      · intro eq heq kind f init arrays hx c hc _ env'' henv'' vs
        have hreach := hn.body heq (.applied (mem_applied_of_iterate hx) hc)
        exact (ih hreach fun x hx hsome => henv'' x hx (henv x hx hsome)).2 vs
    exact ⟨fun site vs hlen => fails_stepInstance named_of_isPlain hbody hlen (fun _ _ h => h) site,
      fun vs => fails_callFunctionValues named_of_isPlain hbody vs fun _ _ h => h⟩

theorem fails_evalConstant {c : ConstDef} {env : Env} (hreads : ∀ x, ReadsName p c.value x →
      p.isConstant x = true ∧ (env x).isSome ∨ (enumVariantValue p x).isSome) :
    (evalConstant m p env c).Fails Fault.Named := by
  have hsound : Sound p Fault.Named (callees m p m.stack) ⟨env, .initial, []⟩ c.value := by
    refine ⟨fun x hx => ?_, fun f args hx n hn _ site vs hlen => ?_,
      fun kind f init arrays hx n hn _ vs => ?_⟩
    · rcases hreads x (.inl (Expr.mem_freeVars.mpr ⟨_, hx, rfl⟩)) with ⟨-, hsome⟩ | hvariant
      · exact .inl (.inl hsome)
      · exact .inl (.inr hvariant)
    · exact (fails_reached hreads _ (.applied (mem_applied_of_call hx) hn)
        fun _ _ h => h).1 site vs hlen
    · refine (fails_reached hreads _ (.applied (mem_applied_of_iterate hx) hn) ?_).2 vs
      exact fun x hx hsome => by simpa [constantsFromEnv, hx] using hsome
  have heval := fails_eval (m := m) named_of_isPlain _ hsound ⟨c.name, 0, []⟩ Calls.empty
  unfold evalConstant
  split
  · exact (fails_fitTo trivial _ _ _).map _
  case h_2 e he => exact .error ((named_constant _ _).mpr (heval _ he))
  · exact .error trivial

theorem isSome_evalConstant {c : ConstDef} {env env' : Env} (h : evalConstant m p env c = .ok env')
    (x : String) : (env' x).isSome ↔ x = c.name ∨ (env x).isSome := by
  unfold evalConstant at h
  split at h
  · obtain ⟨v, -, rfl⟩ := Except.map_eq_ok.mp h
    by_cases hx : x = c.name <;> simp [Env.set, hx]
  · cases h
  · cases h

theorem isSome_evalConstants {cs : List ConstDef} {env env' : Env}
    (h : cs.foldlM (evalConstant m p) env = .ok env') (x : String) :
    (env' x).isSome ↔ x ∈ cs.map (·.name) ∨ (env x).isSome := by
  induction cs generalizing env with
  | nil =>
    cases h
    simp
  | cons c cs ih =>
    rw [List.foldlM_cons] at h
    obtain ⟨env₁, h₁, h⟩ := Except.bind_eq_ok.mp h
    rw [ih h, isSome_evalConstant h₁, List.map_cons, List.mem_cons]
    tauto

theorem isConstant_of_mem {x : String} (h : x ∈ p.allConstants.map (·.name)) :
    p.isConstant x = true := by
  simpa [Project.isConstant] using h

/-- Constants in order, from those that are evaluated to the last. -/
theorem fails_evalConstants (h : ConstantsOrdered p) (before : List ConstDef)
    {after : List ConstDef} {env : Env}
    (hsplit : p.allConstants = before ++ after)
    (henv : ∀ x ∈ before.map (·.name), (env x).isSome) :
    (after.foldlM (evalConstant m p) env).Fails Fault.Named := by
  induction after generalizing before env with
  | nil => exact .ok _
  | cons c after ih =>
    rw [List.foldlM_cons]
    refine .bind (fails_evalConstant fun x hx => ?_) fun env' henv' => ?_
    · refine (h before c after hsplit x hx).imp (fun hmem => ⟨isConstant_of_mem ?_, henv x hmem⟩) id
      rw [hsplit, List.map_append]
      exact List.mem_append_left _ hmem
    · have hnames (x : String) (hx : x ∈ (before ++ [c]).map (·.name)) : (env' x).isSome := by
        rw [List.map_append, List.mem_append, List.map_singleton, List.mem_singleton] at hx
        exact (isSome_evalConstant henv' x).mpr (hx.symm.imp id (henv x))
      exact ih (before ++ [c]) (by rw [hsplit, List.append_assoc, List.singleton_append]) hnames

theorem fails_new (h : ConstantsOrdered p) (name : String) :
    (Sim.new m p name).Fails Fault.Named := by
  unfold Sim.new
  split
  · exact .error id
  · refine .bind (fails_evalConstants h [] rfl (by simp)) fun consts _ => ?_
    refine .bind ?_ fun order _ => .ok _
    intro e he
    cases horder : evaluationOrder _ with
    | ok order =>
      rw [horder] at he
      cases he
    | error msg =>
      rw [horder] at he
      cases he
      exact id

/-! ## A constant that is evaluated had its names -/

section Strict

variable {cs : Callees} {fr : Frame}

/-- Every name that the evaluation reads for certain has a value, when the evaluation ends. -/
def Reading (p : Project) (fr : Frame) {α : Type} (names : List String) (x : EvalM α) : Prop :=
  ∀ calls a calls', x calls = (.ok a, calls') → ∀ n ∈ names, Bound p fr.env n

theorem Reading.none {α : Type} (x : EvalM α) : Reading p fr [] x := fun _ _ _ _ _ hn => nomatch hn

theorem Reading.bind {α β : Type} {x : EvalM α} {f : α → EvalM β} {ns ns' : List String}
    (hx : Reading p fr ns x) (hf : ∀ a, Reading p fr ns' (f a)) :
    Reading p fr (ns ++ ns') (x >>= f) := by
  intro calls b calls' h n hn
  obtain ⟨a, calls₁, hxa, hfa⟩ := Stateful.bind_eq_ok.mp h
  rcases List.mem_append.mp hn with hn | hn
  · exact hx calls a calls₁ hxa n hn
  · exact hf a calls₁ b calls' hfa n hn

theorem Reading.left {α β : Type} {x : EvalM α} {f : α → EvalM β} {ns : List String}
    (hx : Reading p fr ns x) : Reading p fr ns (x >>= f) := by
  have h := hx.bind (f := f) fun a => .none (f a)
  rwa [List.append_nil] at h

theorem Reading.right {α β : Type} {x : EvalM α} {f : α → EvalM β} {ns : List String}
    (hf : ∀ a, Reading p fr ns (f a)) : Reading p fr ns (x >>= f) :=
  (Reading.none x).bind hf

theorem reading_var (name : String) : Reading p fr [name] (.lift (variableValue p fr name)) := by
  intro calls v calls' h n hn
  obtain rfl := List.mem_singleton.mp hn
  have hv := (Stateful.lift_eq_ok.mp h).1
  unfold variableValue at hv
  split at hv
  case h_1 hsome => exact .inl (by simp [hsome])
  case h_2 =>
    split at hv
    case h_1 hvariant => exact .inr (by simp [hvariant])
    case h_2 => cases hv

theorem reading_evalList {es : List Expr} (h : ∀ e ∈ es, ∀ site,
    Reading p fr (strictReads e) (eval m p cs fr site e)) (site : Site) (k : Nat) :
    Reading p fr (strictReadsList es) (evalList m p cs fr site k es) := by
  induction es generalizing k with
  | nil => exact .none _
  | cons e es ih =>
    refine (h e List.mem_cons_self _).bind fun v => ?_
    exact (ih (fun e he => h e (List.mem_cons_of_mem _ he)) _).left

theorem reading_evalFields {fields : List (String × Expr)} (h : ∀ f ∈ fields, ∀ site,
    Reading p fr (strictReads f.2) (eval m p cs fr site f.2)) (site : Site) (k : Nat)
    (r : List (String × Value)) :
    Reading p fr (strictReadsFields fields) (evalFields m p cs fr site k r fields) := by
  induction fields generalizing k r with
  | nil => exact .none _
  | cons f fields ih =>
    refine (h f List.mem_cons_self _).bind fun v => ?_
    exact ih (fun e he => h e (List.mem_cons_of_mem _ he)) _ _

theorem reading_evalArrays {es : List Expr} (h : ∀ e ∈ es, ∀ site,
    Reading p fr (strictReads e) (eval m p cs fr site e)) (site : Site) (k : Nat) :
    Reading p fr (strictReadsList es) (evalArrays m p cs fr site k es) := by
  induction es generalizing k with
  | nil => exact .none _
  | cons e es ih =>
    refine (h e List.mem_cons_self _).bind fun v => .right fun xs => ?_
    exact (ih (fun e he => h e (List.mem_cons_of_mem _ he)) _).left

theorem reading_eval (e : Expr) (site : Site) :
    Reading p fr (strictReads e) (eval m p cs fr site e) := by
  induction e generalizing site with
  | const | pre | arrow | merge => exact .none _
  | var name => exact reading_var name
  | unary _ _ ih | cast _ _ ih | field _ _ ih => exact (ih _).left
  | when _ _ _ ih => exact ih _
  | binary _ _ _ ihl ihr | index _ _ ihl ihr => exact (ihl _).bind fun _ => (ihr _).left
  | ifThenElse _ _ _ ihc _ _ => exact (ihc _).left
  | tuple _ ih | array _ ih => exact (reading_evalList ih _ _).left
  | struct _ _ ih => exact (reading_evalFields ih _ _ _).left
  | iterate kind f init arrays _ ih =>
    simp only [eval, strictReads]
    exact .right fun n => (reading_evalArrays ih _ _).left
  | call node args ih =>
    simp only [strictReads]
    split
    case isTrue => exact .none _
    case isFalse hne =>
      rw [eval_call (fun h => hne h.1)]
      exact .right fun n => (reading_evalList ih _ _).left

theorem strict_of_evalConstants {cs : List ConstDef} {env env' : Env}
    (h : cs.foldlM (evalConstant m p) env = .ok env') {before after : List ConstDef} {c : ConstDef}
    (hsplit : cs = before ++ c :: after) {x : String} (hx : x ∈ strictReads c.value) :
    x ∈ before.map (·.name) ∨ (env x).isSome ∨ (enumVariantValue p x).isSome := by
  rw [hsplit, List.foldlM_append] at h
  obtain ⟨env₁, h₁, h⟩ := Except.bind_eq_ok.mp h
  rw [List.foldlM_cons] at h
  obtain ⟨env₂, h₂, -⟩ := Except.bind_eq_ok.mp h
  unfold evalConstant at h₂
  split at h₂
  case h_1 v hv =>
    rcases reading_eval c.value _ _ v _ (Prod.ext hv rfl) x hx with hsome | hvariant
    · exact ((isSome_evalConstants h₁ x).mp hsome).imp id .inl
    · exact .inr (.inr hvariant)
  case h_2 => cases h₂
  case h_3 => cases h₂

end Strict

end

/-! ## Native packages -/

theorem not_reaches {p : Project} {e : Expr} {n : NodeDef} (h : e.applied = []) :
    ¬ Reaches p e n := by
  intro hn
  induction hn with
  | applied hf _ => simp [h] at hf
  | body _ _ _ ih _ => exact ih h

/-- Constants in the order of their direct references, where no body reads a constant. -/
theorem constantsOrdered_of_follows {p : Project}
    (hfollow : Follows (·.name) (·.value.freeVars) p.allConstants)
    (hnames : ∀ c ∈ p.allConstants, ∀ x ∈ c.value.freeVars,
      x ∈ p.allConstants.map (·.name) ∨ (enumVariantValue p x).isSome)
    (hbodies : ∀ c ∈ p.allConstants, ∀ n, Reaches p c.value n → ∀ eq ∈ n.equations,
      ∀ x ∈ eq.rhs.freeVars, x ∈ n.declaredNames ∨ (enumVariantValue p x).isSome) :
    ConstantsOrdered p := by
  intro before c after hsplit x hx
  have hc : c ∈ p.allConstants := hsplit ▸ List.mem_append_right _ List.mem_cons_self
  rcases hx with hx | ⟨n, hn, eq, heq, hx, hdecl⟩
  · exact (hnames c hc x hx).imp (hfollow before c after hsplit x hx) id
  · exact .inr ((hbodies c hc n hn eq heq x hx).resolve_left hdecl)

/-- When each constant comes after the constants it reads, in its value and through the
functions it calls, no simulation fails for a name without a value; and where a simulation can
be made, each constant comes at least after those its value reads outside branches.  A native
package is put in an order exactly when neither its constants nor its types refer to
themselves, directly, and then each declaration comes after those it refers to: the constants
of a native project come in order when no function that they call reads a constant. -/
theorem constants_follow (p : Project) :
    (ConstantsOrdered p → ∀ m name e, Sim.new m p name = .error (.error e) → ¬ e.IsUnbound) ∧
    (∀ m name sim, Sim.new m p name = .ok sim → ∀ before c after,
      p.allConstants = before ++ c :: after → ∀ x ∈ strictReads c.value,
        x ∈ before.map (·.name) ∨ (enumVariantValue p x).isSome) ∧
    (∀ package symbols,
      ((∃ package', orderDeclarations package symbols = .ok package') ↔
        ¬ Dependency.Cyclic (constantRefersTo package) ∧
        ¬ Dependency.Cyclic (typeRefersTo package)) ∧
      ∀ package', orderDeclarations package symbols = .ok package' → Ordered package package') ∧
    ∀ package symbols package', orderDeclarations package symbols = .ok package' →
      p.allConstants = package'.constants →
      (∀ c ∈ p.allConstants, ∀ x ∈ c.value.freeVars,
        x ∈ p.allConstants.map (·.name) ∨ (enumVariantValue p x).isSome) →
      (∀ c ∈ p.allConstants, ∀ n, Reaches p c.value n → ∀ eq ∈ n.equations,
        ∀ x ∈ eq.rhs.freeVars, x ∈ n.declaredNames ∨ (enumVariantValue p x).isSome) →
      ConstantsOrdered p := by
  refine ⟨fun h m name e he => fails_new h name _ he, fun m name sim hsim before c after hsplit x hx
    => ?_, orderDeclarations_spec, fun package symbols package' horder hconsts hnames hbodies => ?_⟩
  · have hconsts := (Sim.new_eq_ok hsim).2.1
    simpa using strict_of_evalConstants hconsts hsplit hx
  · have hordered := (orderDeclarations_spec package symbols).2 package' horder
    exact constantsOrdered_of_follows (hconsts ▸ hordered.constants_follow) hnames hbodies

/-- Constants `B = 1` and `A = B / 0`, and a node to simulate. -/
def dividedPackage : Package where
  name := "main"
  constants := [⟨"B", .int32, .const (.int 1)⟩,
    ⟨"A", .int32, .binary .div (.var "B") (.const (.int 0))⟩]
  nodes := [{
    name := "N", kind := .operator, inputs := [], outputs := [⟨"y", .int32⟩], locals := []
    equations := [⟨["y"], .var "A"⟩] }]

def dividedProject : Project where packages := [dividedPackage]

theorem constants_follow_divided :
    Sim.new ⟨true, 8⟩ dividedProject "N" =
      .error (.error (.constant "A" (.binaryOperands .div (.int 1) (.int 0)))) ∧
    ¬ (EvalError.constant "A" (.binaryOperands .div (.int 1) (.int 0))).IsUnbound := by
  obtain ⟨hbound, -, -, hnative⟩ := constants_follow dividedProject
  have hnew : Sim.new ⟨true, 8⟩ dividedProject "N" =
      .error (.error (.constant "A" (.binaryOperands .div (.int 1) (.int 0)))) := by rfl
  refine ⟨hnew, hbound (hnative dividedPackage [] dividedPackage (by rfl) rfl (by decide) ?_)
    _ _ _ hnew⟩
  intro c hc n hn
  have happlied : ∀ c ∈ dividedProject.allConstants, c.value.applied = [] := by decide
  exact absurd hn (not_reaches (happlied c hc))

/-- Constants `A = B` and `B = 1`, in this order, and a node to simulate. -/
def forwardProject : Project where
  packages := [{
    name := "main"
    constants := [⟨"A", .int32, .var "B"⟩, ⟨"B", .int32, .const (.int 1)⟩]
    nodes := [{
      name := "N", kind := .operator, inputs := [], outputs := [⟨"y", .int32⟩], locals := []
      equations := [⟨["y"], .var "A"⟩] }] }]

/-- Constants `A = F()` and `B = 1` of a native package, where the function reads `B`. -/
def throughFunction : Package where
  name := "main"
  constants := [⟨"A", .int32, .call "F" []⟩, ⟨"B", .int32, .const (.int 1)⟩]
  nodes := [
    { name := "F", kind := .function, inputs := [], outputs := [⟨"y", .int32⟩], locals := []
      equations := [⟨["y"], .var "B"⟩] },
    { name := "N", kind := .operator, inputs := [], outputs := [⟨"y", .int32⟩], locals := []
      equations := [⟨["y"], .var "A"⟩] }]

def throughProject : Project where packages := [throughFunction]

/-- The checker accepts a constant that reads a later one, and a native package is left in an
order in which a function reads a later one. -/
theorem forward_unbound :
    (Typecheck.Accepted forwardProject ∧ Sim.new ⟨true, 8⟩ forwardProject "N" =
      .error (.error (.constant "A" (.unbound "B")))) ∧
    Typecheck.Accepted throughProject ∧
      orderDeclarations throughFunction [] = .ok throughFunction ∧
      Sim.new ⟨true, 8⟩ throughProject "N" = .error (.error (.constant "A" (.unbound "B"))) :=
  ⟨⟨by decide, by rfl⟩, by decide, by rfl, by rfl⟩

end OpenLustre.Simulator
