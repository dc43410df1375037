import OpenLustre.Ir.Clocks
import OpenLustre.Ir.Order
import OpenLustre.Typecheck.Cycle
import OpenLustre.Typecheck.Infer

/-! The well-formedness checks on nodes, constants and projects. -/

namespace OpenLustre.Typecheck

open OpenLustre.Ir

mutual

def checkPreInitialization (ctx : String) (underArrowBody : Bool) : Expr → List Diagnostic
  | .pre arg =>
    (if underArrowBody then []
      else [.error "E0070" "`pre` must appear under an `->` providing an initial value" [ctx]]) ++
      checkPreInitialization ctx false arg
  | .arrow init body =>
    checkPreInitialization ctx underArrowBody init ++ checkPreInitialization ctx true body
  | .unary _ arg | .cast _ arg => checkPreInitialization ctx underArrowBody arg
  | .binary _ lhs rhs =>
    checkPreInitialization ctx underArrowBody lhs ++ checkPreInitialization ctx underArrowBody rhs
  | .ifThenElse c t e =>
    checkPreInitialization ctx underArrowBody c ++
      (checkPreInitialization ctx underArrowBody t ++ checkPreInitialization ctx underArrowBody e)
  | .call _ args => checkPreInitializationList ctx underArrowBody args
  | .field base _ => checkPreInitialization ctx underArrowBody base
  | .index base i =>
    checkPreInitialization ctx underArrowBody base ++ checkPreInitialization ctx underArrowBody i
  | .tuple items | .array items => checkPreInitializationList ctx underArrowBody items
  | .struct _ fields => checkPreInitializationFields ctx underArrowBody fields
  | .when arg _ _ => checkPreInitialization ctx underArrowBody arg
  | .merge _ t f =>
    checkPreInitialization ctx underArrowBody t ++ checkPreInitialization ctx underArrowBody f
  | .iterate _ _ none arrays => checkPreInitializationList ctx underArrowBody arrays
  | .iterate _ _ (some init) arrays =>
    checkPreInitialization ctx underArrowBody init ++
      checkPreInitializationList ctx underArrowBody arrays
  | .const _ | .var _ => []

def checkPreInitializationList (ctx : String) (underArrowBody : Bool) :
    List Expr → List Diagnostic
  | [] => []
  | e :: es =>
    checkPreInitialization ctx underArrowBody e ++ checkPreInitializationList ctx underArrowBody es

def checkPreInitializationFields (ctx : String) (underArrowBody : Bool) :
    List (String × Expr) → List Diagnostic
  | [] => []
  | (_, e) :: fields =>
    checkPreInitialization ctx underArrowBody e ++
      checkPreInitializationFields ctx underArrowBody fields

end

def forbidNested (ctx : String) (e : Expr) : List Diagnostic :=
  e.subterms.filterMap fun
    | .iterate _ _ _ _ => some (.error "E0146"
        "map/fold may only be the whole right-hand side of an equation, not nested inside another expression"
        [ctx])
    | _ => none

/-- An array iterator may only be the whole right-hand side of an equation. -/
def checkIteratorPlacement (ctx : String) : Expr → List Diagnostic
  | .iterate _ _ init arrays => (init.toList ++ arrays).flatMap (forbidNested ctx)
  | rhs => forbidNested ctx rhs

def nodeEnv (n : NodeDef) (name : String) : Option Ty :=
  (n.declared.reverse.find? (·.name = name)).map (·.ty)

/-- Report every declaration whose name one of `before` or an earlier one has. -/
def duplicates (report : String → Diagnostic) : List String → List Port → List Diagnostic
  | _, [] => []
  | before, p :: ps =>
    (if before.contains p.name then [report p.name] else []) ++
      duplicates report (p.name :: before) ps

def checkDeclarations (n : NodeDef) (ctx : String) : List Diagnostic :=
  let inputs := n.inputs.map (·.name)
  let ports := inputs ++ n.outputs.map (·.name)
  duplicates (fun name => .error "E0010" ("duplicate input `" ++ name ++ "`") [ctx]) [] n.inputs ++
    duplicates (fun name => .error "E0011" ("output `" ++ name ++ "` shadows another port") [ctx])
      inputs n.outputs ++
    duplicates (fun name => .error "E0012" ("local `" ++ name ++ "` shadows another binding") [ctx])
      ports n.locals

/-- The checks on the left-hand side of one equation, after the names in
`assigned` have been. -/
def checkAssigned (n : NodeDef) (ctx : String) : List String → List String → List Diagnostic
  | _, [] => []
  | assigned, l :: ls =>
    (if (nodeEnv n l).isNone then
        [.error "E0020" ("equation defines unknown name `" ++ l ++ "`") [ctx]]
      else if n.inputs.any (·.name = l) then
        [.error "E0022" ("equation assigns input `" ++ l ++ "`") [ctx]]
      else []) ++
      (if assigned.contains l then
        [.error "E0021" ("name `" ++ l ++ "` is assigned by more than one equation") [ctx]]
      else []) ++
      checkAssigned n ctx (l :: assigned) ls

def nodeCx (p : Project) (n : NodeDef) (ctx : String) : InferCx where
  env := nodeEnv n
  sigs := signatures p
  nodeName := n.name
  isFunction := n.isFunction
  ctx := ctx
  tctx := .fromProject p

/-- The declared type of the left-hand side against the inferred one. -/
def checkEquationType (p : Project) (n : NodeDef) (ctx : String) (eq : Equation) (rhsTy : Ty) :
    List Diagnostic :=
  match eq.lhs with
  | [x] =>
    match nodeEnv n x with
    | some expected =>
      if !typesCompatible (.fromProject p) expected rhsTy && decide (rhsTy ≠ tupleTy) then
        [.error "E0040" ("equation `" ++ x ++ " = ...` has type " ++ rhsTy.debug ++ " but `" ++ x ++
          "` is declared as " ++ expected.debug) [ctx]]
      else []
    | none => []
  | _ =>
    if rhsTy = tupleTy then []
    else [.error "E0041" "multi-output equation must bind to a node call returning a tuple" [ctx]]

def lhsHint (n : NodeDef) (eq : Equation) : Option Ty :=
  match eq.lhs with
  | [x] => nodeEnv n x
  | _ => none

def equationCtx (n : NodeDef) (i : Nat) : String :=
  "node " ++ n.name ++ " · equation " ++ toString i

def checkBody (p : Project) (n : NodeDef) (i : Nat) (eq : Equation) : List Diagnostic :=
  let ctx := equationCtx n i
  let inferred := inferExprType (nodeCx p n ctx) (lhsHint n eq) eq.rhs
  (if n.isFunction && eq.rhs.containsTemporal then
    [.error "E0030" "function bodies may not use temporal operators (`pre`, `->`)" [ctx]] else []) ++
    checkPreInitialization ctx false eq.rhs ++
    checkIteratorPlacement ctx eq.rhs ++
    inferred.diags ++
    match inferred.result with
    | some rhsTy => checkEquationType p n ctx eq rhsTy
    | none => []

def checkEquations (p : Project) (n : NodeDef) :
    List (Equation × Nat) → List String → List Diagnostic
  | [], _ => []
  | (eq, i) :: rest, assigned =>
    checkAssigned n (equationCtx n i) assigned eq.lhs ++ checkBody p n i eq ++
      checkEquations p n rest (eq.lhs ++ assigned)

def NodeDef.assigned (n : NodeDef) : List String := n.equations.flatMap (·.lhs)

def checkCoverage (n : NodeDef) (ctx : String) : List Diagnostic :=
  (n.outputs.filterMap fun out =>
    if (NodeDef.assigned n).contains out.name then none
    else some (.error "E0050" ("output `" ++ out.name ++ "` is never assigned") [ctx])) ++
  n.locals.filterMap fun l =>
    if (NodeDef.assigned n).contains l.name then none
    else some (.warning "W0051" ("local `" ++ l.name ++ "` is declared but never assigned") [ctx])

def checkCycle (n : NodeDef) (ctx : String) : List Diagnostic :=
  if n.isFunction then []
  else
    match detectCombinationalCycle n with
    | some cycle => [.error "E0060"
        ("combinational cycle without a temporal break: " ++ String.intercalate " -> " cycle) [ctx]]
    | none => []

def checkProbes (n : NodeDef) (ctx : String) : List Diagnostic :=
  n.probes.filterMap fun probe =>
    if (nodeEnv n probe.var).isSome then none
    else some
      (.error "E0150" ("log message references unknown variable `" ++ probe.var ++ "`") [ctx])

/-- What a function may not do on a clock, and what a clocked array cannot. -/
def checkClockedEquation (p : Project) (n : NodeDef) (i : Nat) (eq : Equation) (ck : Clock) :
    List Diagnostic :=
  let ctx := equationCtx n i
  if ck.isBase then []
  else
    (if n.isFunction then
      [.error "E0134" ("function `" ++ n.name ++ "` has an equation on " ++ ck.describe ++
        " — holding a value through inactive cycles is state; make this a node") [ctx]] else []) ++
    eq.lhs.filterMap fun l =>
      match (nodeEnv n l).map (TypeContext.fromProject p).resolve with
      | some (.array _ _) => some (.error "E0135" ("`" ++ l ++
          "` has an array type and cannot be clocked yet — held array values are roadmap") [ctx])
      | _ => none

/-- Stateful callees must run on their whole equation's clock. -/
def checkStatefulCalls (p : Project) (n : NodeDef) (info : ClockInfo) (i : Nat) (eq : Equation)
    (ck : Clock) : List Diagnostic :=
  (Site.subterms ⟨n.name, i, []⟩ eq.rhs).filterMap fun (site, e) =>
    match e with
    | .call callee _ =>
      if (signatures p callee).any (fun sig => decide (sig.kind = .operator)) then
        match info.callClocks.lookup site with
        | some callClock =>
          if callClock = ck then none
          else some (.error "E0133" ("stateful operator `" ++ callee ++ "` is called on " ++
            callClock.describe ++ " inside an equation on " ++ ck.describe ++
            " — move the call into its own equation so its activation clock is explicit")
            [equationCtx n i])
        | none => none
      else none
    | _ => none

def checkClocks (p : Project) (n : NodeDef) (ctx : String) : List Diagnostic :=
  if nodeUsesClocks n then
    let info := inferClocks n
    let clocked := n.equations.zipIdx.zip info.equationClocks
    (info.errors.map fun e =>
      .error "E0132" e.message
        [match e.equation with
        | some i => equationCtx n i
        | none => ctx]) ++
      (clocked.flatMap fun ((eq, i), ck) => checkClockedEquation p n i eq ck) ++
      clocked.flatMap fun ((eq, i), ck) => checkStatefulCalls p n info i eq ck
  else []

def checkNode (p : Project) (n : NodeDef) : List Diagnostic :=
  let ctx := "node " ++ n.name
  if n.isImported then
    if n.equations.isEmpty then []
    else [.error "E0002" "imported nodes must not have equations; their body is external C" [ctx]]
  else
    checkDeclarations n ctx ++ checkEquations p n n.equations.zipIdx [] ++ checkCoverage n ctx ++
      checkCycle n ctx ++ checkProbes n ctx ++ checkClocks p n ctx

def constCx (p : Project) (ctx : String) : InferCx where
  env := fun _ => none
  sigs := signatures p
  nodeName := "<consts>"
  isFunction := true
  ctx := ctx
  tctx := .fromProject p

def checkConstant (p : Project) (c : ConstDef) : List Diagnostic :=
  let ctx := "constant " ++ c.name
  let inferred := inferExprType (constCx p ctx) (some c.ty) c.value
  (if c.value.containsTemporal then
    [.error "E0004" "constant values may not use temporal operators (`pre`, `->`)" [ctx]] else []) ++
    inferred.diags ++
    match inferred.result with
    | some t =>
      if typesCompatible (.fromProject p) c.ty t then []
      else [.error "E0005" ("constant `" ++ c.name ++ "` declared as " ++ c.ty.debug ++
        " but value has type " ++ t.debug) [ctx]]
    | none => []

def checkConstants (p : Project) : List String → List ConstDef → List Diagnostic
  | _, [] => []
  | seen, c :: cs =>
    (if seen.contains c.name then
      [.error "E0003" ("duplicate constant `" ++ c.name ++ "`") ["constant " ++ c.name]]
    else checkConstant p c) ++ checkConstants p (c.name :: seen) cs

def checkVariants (pkg enumName : String) : List String → List String → List Diagnostic
  | _, [] => []
  | seen, v :: vs =>
    (if seen.contains v then
      [.error "E0007" ("duplicate enum variant `" ++ v ++ "`")
        ["enum " ++ enumName ++ " in package " ++ pkg]]
    else []) ++ checkVariants pkg enumName (v :: seen) vs

def TypeBody.variants : TypeBody → List String
  | .enum e => e.variants
  | _ => []

/-- Type and variant names are project-wide; `seen` and `variants` are those of
the types before. -/
def checkTypeNames : List String → List String → List (String × TypeDef) → List Diagnostic
  | _, _, [] => []
  | seen, variants, (pkg, t) :: rest =>
    (if seen.contains t.name then
      [.error "E0006" ("duplicate type name `" ++ t.name ++ "`") ["package " ++ pkg]] else []) ++
      checkVariants pkg t.name variants (TypeBody.variants t.body) ++
      checkTypeNames (t.name :: seen) (TypeBody.variants t.body ++ variants) rest

def aliasNames (p : Project) : List String :=
  sortedSet (p.allTypes.filterMap fun t =>
    match t.body with
    | .aliasOf name _ => some name
    | _ => none)

def checkAliases (p : Project) : List Diagnostic :=
  let tctx := TypeContext.fromProject p
  (aliasNames p).filterMap fun name =>
    if (tctx.tryResolve TypeContext.resolveFuel [] (.named name)).isSome then none
    else some (.error "E0008" ("type alias `" ++ name ++
      "` is recursive or exceeds the supported nesting depth of 64") ["type " ++ name])

def checkNodeNames : List String → List NodeDef → List Diagnostic
  | _, [] => []
  | seen, n :: ns =>
    (if seen.contains n.name then
      [.error "E0001" ("duplicate node name `" ++ n.name ++ "`") ["node " ++ n.name]] else []) ++
      checkNodeNames (n.name :: seen) ns

def checkProject (p : Project) : List Diagnostic :=
  checkTypeNames [] [] (p.packages.flatMap fun pkg => pkg.types.map (pkg.name, ·)) ++
    checkAliases p ++ checkNodeNames [] p.allNodes ++ checkConstants p [] p.allConstants ++
    p.allNodes.flatMap (checkNode p)

/-- No diagnostic is an error. -/
def Accepted (p : Project) : Prop := (checkProject p).all (fun d => !d.isError) = true

instance (p : Project) : Decidable (Accepted p) := inferInstanceAs (Decidable (_ = true))

section

variable {p : Project} {n : NodeDef}

theorem Accepted.isError (h : Accepted p) (hn : n ∈ p.allNodes) :
    ∀ d ∈ checkNode p n, d.isError = false := by
  intro d hd
  have hd : d ∈ checkProject p :=
    List.mem_append_right _ (List.mem_flatMap.mpr ⟨n, hn, hd⟩)
  simpa using List.all_eq_true.mp h d hd

theorem Accepted.equations_of_imported (h : Accepted p) (hn : n ∈ p.allNodes)
    (himp : n.isImported = true) : n.equations = [] := by
  by_contra hne
  have hd := h.isError hn
  simp [checkNode, himp, hne] at hd

theorem checkAssigned_nodup {ctx : String} {assigned ls : List String}
    (h : ∀ d ∈ checkAssigned n ctx assigned ls, d.isError = false) :
    ls.Nodup ∧ ∀ l ∈ ls, l ∉ assigned := by
  induction ls generalizing assigned with
  | nil => simp
  | cons l ls ih =>
    simp only [checkAssigned, List.mem_append] at h
    obtain ⟨hnodup, hnew⟩ := ih fun d hd => h d (.inr hd)
    have hl : l ∉ assigned := by
      intro hmem
      have := h (.error "E0021" ("name `" ++ l ++ "` is assigned by more than one equation") [ctx])
        (.inl (.inr (by simp [hmem])))
      simp at this
    refine ⟨List.nodup_cons.mpr ⟨fun hmem => hnew l hmem List.mem_cons_self, hnodup⟩, ?_⟩
    intro x hx
    rcases List.mem_cons.mp hx with rfl | hx
    · exact hl
    · exact fun hmem => hnew x hx (List.mem_cons_of_mem _ hmem)

theorem checkEquations_nodup {eqs : List (Equation × Nat)} {assigned : List String}
    (h : ∀ d ∈ checkEquations p n eqs assigned, d.isError = false) :
    (eqs.flatMap (·.1.lhs)).Nodup ∧ ∀ l ∈ eqs.flatMap (·.1.lhs), l ∉ assigned := by
  induction eqs generalizing assigned with
  | nil => simp
  | cons eq eqs ih =>
    obtain ⟨eq, i⟩ := eq
    simp only [checkEquations, List.mem_append] at h
    obtain ⟨hnodup, hnew⟩ := checkAssigned_nodup fun d hd => h d (.inl (.inl hd))
    obtain ⟨hnodups, hnews⟩ := ih fun d hd => h d (.inr hd)
    rw [List.flatMap_cons]
    refine ⟨List.nodup_append.mpr ⟨hnodup, hnodups, ?_⟩, ?_⟩
    · rintro a ha b hb rfl
      exact hnews a hb (List.mem_append_left _ ha)
    · intro l hl
      rcases List.mem_append.mp hl with hl | hl
      · exact hnew l hl
      · exact fun hmem => hnews l hl (List.mem_append_right _ hmem)

theorem Accepted.singleAssignment (h : Accepted p) (hn : n ∈ p.allNodes) :
    n.SingleAssignment := by
  cases himp : n.isImported with
  | true => simp [NodeDef.SingleAssignment, h.equations_of_imported hn himp]
  | false =>
    have hd := h.isError hn
    simp only [checkNode, himp, Bool.false_eq_true, if_false, List.mem_append] at hd
    have hnodup := (checkEquations_nodup fun d hd' => hd d (by tauto)).1
    have hmap : n.equations.flatMap (·.lhs) = n.equations.zipIdx.flatMap (·.1.lhs) := by
      conv_lhs => rw [← List.zipIdx_map_fst 0 n.equations, List.flatMap_map]
    rwa [NodeDef.SingleAssignment, hmap]

theorem Accepted.no_cycle (h : Accepted p) (hn : n ∈ p.allNodes)
    (hfun : n.isFunction = false) : detectCombinationalCycle n = none := by
  cases himp : n.isImported with
  | true =>
    simp [detectCombinationalCycle, assignedNames, sortedSet,
      h.equations_of_imported hn himp]
  | false =>
    by_contra hne
    obtain ⟨cycle, hcycle⟩ := Option.ne_none_iff_exists'.mp hne
    have hd := h.isError hn
    simp only [checkNode, himp, Bool.false_eq_true, if_false, List.mem_append] at hd
    have hd' := fun d hd' => hd d (.inl (.inl (.inr hd')))
    simp [checkCycle, hfun, hcycle] at hd'

end

end OpenLustre.Typecheck
