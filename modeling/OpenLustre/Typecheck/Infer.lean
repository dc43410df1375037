import OpenLustre.Ir.Project

/-! Type inference of expressions.  Inference reports diagnostics and goes on
where the source goes on; it returns no type where the source gives up. -/

namespace OpenLustre.Typecheck

open OpenLustre.Ir

/-- A partial result together with the diagnostics reported on the way. -/
structure Infer (α : Type) where
  result : Option α
  diags : List Diagnostic

namespace Infer

def bind {α β : Type} (x : Infer α) (f : α → Infer β) : Infer β :=
  match x.result with
  | some a => ⟨(f a).result, x.diags ++ (f a).diags⟩
  | none => ⟨none, x.diags⟩

instance : Monad Infer where
  pure a := ⟨some a, []⟩
  bind := bind

def report (d : Diagnostic) : Infer Unit := ⟨some (), [d]⟩
def fail {α : Type} (d : Diagnostic) : Infer α := ⟨none, [d]⟩
def attempt {α : Type} (x : Infer α) : Infer (Option α) := ⟨some x.result, x.diags⟩

@[simp] theorem pure_result {α : Type} (a : α) : (pure a : Infer α).result = some a := rfl
@[simp] theorem pure_diags {α : Type} (a : α) : (pure a : Infer α).diags = [] := rfl
@[simp] theorem report_result (d : Diagnostic) : (report d).result = some () := rfl
@[simp] theorem report_diags (d : Diagnostic) : (report d).diags = [d] := rfl
@[simp] theorem fail_result {α : Type} (d : Diagnostic) : (fail d : Infer α).result = none := rfl
@[simp] theorem fail_diags {α : Type} (d : Diagnostic) : (fail d : Infer α).diags = [d] := rfl
@[simp] theorem attempt_result {α : Type} (x : Infer α) : x.attempt.result = some x.result := rfl
@[simp] theorem attempt_diags {α : Type} (x : Infer α) : x.attempt.diags = x.diags := rfl

theorem bind_result_eq_some {α β : Type} {x : Infer α} {f : α → Infer β} {b : β} :
    (x >>= f).result = some b ↔ ∃ a, x.result = some a ∧ (f a).result = some b := by
  change (bind x f).result = some b ↔ _
  unfold bind
  cases x.result <;> simp

theorem bind_diags_of_some {α β : Type} {x : Infer α} {f : α → Infer β} {a : α}
    (h : x.result = some a) : (x >>= f).diags = x.diags ++ (f a).diags := by
  change (bind x f).diags = _
  simp [bind, h]

theorem bind_diags_of_none {α β : Type} {x : Infer α} {f : α → Infer β}
    (h : x.result = none) : (x >>= f).diags = x.diags := by
  change (bind x f).diags = _
  simp [bind, h]

end Infer

/-- A node's interface as callers see it. -/
structure Signature where
  inputs : List Port
  outputs : List Port
  kind : NodeKind

/-- Project-wide type information; a later declaration of a name wins. -/
structure TypeContext where
  aliases : String → Option Ty
  records : String → Option (List RecordField)
  enumForVariant : String → Option String
  constType : String → Option Ty

namespace TypeContext

def fromProject (p : Project) : TypeContext where
  aliases name := p.allTypes.reverse.findSome? fun t =>
    match t.body with
    | .aliasOf n target => if n = name then some target else none
    | _ => none
  records name := p.allTypes.reverse.findSome? fun t =>
    match t.body with
    | .record n fields => if n = name then some fields else none
    | _ => none
  enumForVariant variant := p.allTypes.reverse.findSome? fun t =>
    match t.body with
    | .enum e => if e.variants.contains variant then some e.name else none
    | _ => none
  constType name := p.allConstants.reverse.findSome? fun c =>
    if c.name = name then some c.ty else none

/-- Resolve aliases and array elements, to a nesting depth of `fuel`. -/
def tryResolve (tctx : TypeContext) : Nat → List String → Ty → Option Ty
  | 0, _, _ => none
  | fuel + 1, visited, ty =>
    match ty with
    | .named name =>
      match tctx.aliases name with
      | some target =>
        if visited.contains name then none else tctx.tryResolve fuel (name :: visited) target
      | none => some ty
    | .array elem len => (tctx.tryResolve fuel visited elem).map (.array · len)
    | other => some other

/-- Nesting depths 0 to 64 are resolved. -/
def resolveFuel : Nat := 65

def resolve (tctx : TypeContext) (ty : Ty) : Ty := (tctx.tryResolve resolveFuel [] ty).getD ty

end TypeContext

def signatures (p : Project) (name : String) : Option Signature :=
  (p.allNodes.reverse.find? (·.name = name)).map fun n => ⟨n.inputs, n.outputs, n.kind⟩

def typesCompatible (tctx : TypeContext) (a b : Ty) : Bool :=
  decide (tctx.resolve a = tctx.resolve b)

def fitsInInteger (value : Int) : Ty → Bool
  | .int8 => decide (-128 ≤ value ∧ value ≤ 127)
  | .int16 => decide (-32768 ≤ value ∧ value ≤ 32767)
  | .int32 => decide (-2147483648 ≤ value ∧ value ≤ 2147483647)
  | .int64 => true
  | .uint8 => decide (0 ≤ value ∧ value ≤ 255)
  | .uint16 => decide (0 ≤ value ∧ value ≤ 65535)
  | .uint32 => decide (0 ≤ value ∧ value ≤ 4294967295)
  | .uint64 => decide (0 ≤ value)
  | _ => false

def integerLiteralType (value : Int) (hint : Option Ty) (tctx : TypeContext) : Ty :=
  match hint with
  | some h =>
    let resolved := tctx.resolve h
    if resolved.isInteger && fitsInInteger value resolved then resolved else .int32
  | none => .int32

def floatLiteralType (hint : Option Ty) (tctx : TypeContext) : Ty :=
  match hint.map tctx.resolve with
  | some t => if t.isFloat then t else .float64
  | none => .float64

/-- The type of a multi-output call or a tuple, and of a call without outputs. -/
def tupleTy : Ty := .named "__tuple__"
def unitTy : Ty := .named "__unit__"

/-- What inference reads besides the expression and the hint. -/
structure InferCx where
  env : String → Option Ty
  sigs : String → Option Signature
  nodeName : String
  isFunction : Bool
  ctx : String
  tctx : TypeContext

namespace InferCx

def error (cx : InferCx) (code message : String) : Diagnostic := .error code message [cx.ctx]

def fail {α : Type} (cx : InferCx) (code message : String) : Infer α := .fail (cx.error code message)
def report (cx : InferCx) (code message : String) : Infer Unit := .report (cx.error code message)

end InferCx

/-- The condition of a `when` or `merge` must be a declared boolean variable. -/
def checkClockVarIsBool (cx : InferCx) (clock : String) : Infer Unit :=
  match cx.env clock with
  | some t =>
    if (cx.tctx.resolve t).isBool then pure ()
    else cx.report "E0130" ("clock `" ++ clock ++ "` must be bool, got " ++ t.debug)
  | none => cx.report "E0080" ("unknown identifier `" ++ clock ++ "`")

def BinOp.isLogical : BinOp → Bool
  | .and | .or | .xor | .implies => true
  | _ => false

def BinOp.isEquality : BinOp → Bool
  | .eq | .neq => true
  | _ => false

def BinOp.isOrdering : BinOp → Bool
  | .lt | .le | .gt | .ge => true
  | _ => false

def BinOp.isArithmetic : BinOp → Bool
  | .add | .sub | .mul | .div | .mod => true
  | _ => false

/-- The type of a binary operation from the types of its operands. -/
def binaryType (cx : InferCx) (op : BinOp) (l r : Ty) : Infer Ty :=
  let lr := cx.tctx.resolve l
  let rr := cx.tctx.resolve r
  let got := l.debug ++ " and " ++ r.debug
  if BinOp.isLogical op then
    if lr.isBool && rr.isBool then pure .bool
    else cx.fail "E0083" ("logical operator requires bool operands, got " ++ got)
  else if BinOp.isEquality op then
    if typesCompatible cx.tctx l r then pure .bool
    else cx.fail "E0084" ("equality requires matching types, got " ++ got)
  else if BinOp.isOrdering op then
    if lr.isNumeric && rr.isNumeric && typesCompatible cx.tctx l r then pure .bool
    else cx.fail "E0085" ("ordering requires matching numeric types, got " ++ got)
  else if BinOp.isArithmetic op then
    if lr.isNumeric && rr.isNumeric && typesCompatible cx.tctx l r then pure l
    else cx.fail "E0086" ("arithmetic requires matching numeric types, got " ++ got)
  else
    if lr.isInteger && rr.isInteger && typesCompatible cx.tctx l r then pure l
    else cx.fail "E0087" ("bitwise operator requires matching integer operands, got " ++ got)

/-- The hint an operator passes on to its operands. -/
def subHint (op : BinOp) (hint : Option Ty) : Option Ty :=
  if BinOp.isLogical op || BinOp.isEquality op || BinOp.isOrdering op then none else hint

def iterName : IterKind → String
  | .map => "map"
  | .fold => "fold"

/-- The first array operand whose element type the iterated function does not
accept, checked in order. -/
def mapElemCheck (cx : InferCx) (fName : String) :
    Nat → List Port → List (Ty × Nat) → List Diagnostic
  | i, p :: ps, (e, _) :: es =>
    if typesCompatible cx.tctx p.ty e then mapElemCheck cx fName (i + 1) ps es
    else [cx.error "E0145" ("map: array #" ++ toString i ++ " has element type " ++ e.debug ++
      " but `" ++ fName ++ "` expects " ++ p.ty.debug)]
  | _, _, _ => []

/-- The checks on an iterator's function before its operands are typed. -/
def iteratedFunction (cx : InferCx) (kind : IterKind) (fName : String) : Infer (Signature × Ty) :=
  let iter := iterName kind
  match cx.sigs fName with
  | none => cx.fail "E0140" (iter ++ " calls unknown function `" ++ fName ++ "`")
  | some sig =>
    if sig.kind ≠ .function then
      cx.fail "E0141" (iter ++ " requires a stateless `function`, but `" ++ fName ++
        "` is not one — iterating stateful operators is not supported yet")
    else
      match sig.outputs with
      | [out] => pure (sig, out.ty)
      | _ => cx.fail "E0142" (iter ++ "'s function `" ++ fName ++
          "` must have exactly one output")

def mapType (cx : InferCx) (fName : String) (sig : Signature) (fOut : Ty) (elems : List (Ty × Nat))
    (n : Nat) : Infer Ty :=
  if sig.inputs.length ≠ elems.length then
    cx.fail "E0145" ("map: `" ++ fName ++ "` takes " ++ toString sig.inputs.length ++
      " input(s) but " ++ toString elems.length ++ " array(s) were given")
  else
    match mapElemCheck cx fName 0 sig.inputs elems with
    | [] => pure (.array fOut n)
    | d :: _ => .fail d

/-- The checks of a fold once its seed, if any, has been typed. -/
def foldElemType (cx : InferCx) (fName : String) (elemTy fOut : Ty) (elems : List (Ty × Nat)) :
    Infer Ty :=
  match elems with
  | (e, _) :: _ =>
    if typesCompatible cx.tctx elemTy e then pure fOut
    else cx.fail "E0145" ("fold: array element type " ++ e.debug ++ " but `" ++ fName ++
      "` expects " ++ elemTy.debug)
  | [] => pure fOut

def callType (outputs : List Port) : Ty :=
  match outputs with
  | [] => unitTy
  | [out] => out.ty
  | _ => tupleTy

mutual

def inferExprType (cx : InferCx) (hint : Option Ty) : Expr → Infer Ty
  | .const (.bool _) => pure .bool
  | .const (.int value) => pure (integerLiteralType value hint cx.tctx)
  | .const (.float _) => pure (floatLiteralType hint cx.tctx)
  | .const (.char _) => pure .char
  | .cast target arg => do
    let a ← inferExprType cx none arg
    if !(cx.tctx.resolve a).isNumeric then
      cx.fail "E0093" ("numeric_cast requires a numeric operand, got " ++ a.debug)
    else if !target.isNumeric then
      cx.fail "E0094" ("numeric_cast target must be numeric, got " ++ target.debug)
    else pure target
  | .var name =>
    match cx.env name with
    | some t => pure t
    | none =>
      match cx.tctx.constType name with
      | some t => pure t
      | none =>
        match cx.tctx.enumForVariant name with
        | some enumName => pure (.named enumName)
        | none => cx.fail "E0080" ("unknown identifier `" ++ name ++ "`")
  | .unary .neg (.const (.int value)) => pure (integerLiteralType (-value) hint cx.tctx)
  | .unary op arg => do
    let a ← inferExprType cx hint arg
    match op with
    | .not =>
      if (cx.tctx.resolve a).isBool then pure .bool
      else cx.fail "E0081" ("`not` requires bool, got " ++ a.debug)
    | .neg =>
      if (cx.tctx.resolve a).isNumeric then pure a
      else cx.fail "E0082" ("unary `-` requires numeric, got " ++ a.debug)
  | .binary op lhs rhs => do
    let l ← inferExprType cx (subHint op hint) lhs
    let r ← inferExprType cx (if l.isInteger then some l else subHint op hint) rhs
    binaryType cx op l r
  | .ifThenElse cond thenBranch elseBranch => do
    let c ← inferExprType cx (some .bool) cond
    if !(cx.tctx.resolve c).isBool then
      cx.fail "E0090" ("if-condition must be bool, got " ++ c.debug)
    else
      let t ← inferExprType cx hint thenBranch
      let e ← inferExprType cx (hint.or (some t)) elseBranch
      if typesCompatible cx.tctx t e then pure t
      else cx.fail "E0091" ("if branches must agree in type; got " ++ t.debug ++ " vs " ++ e.debug)
  | .pre arg => inferExprType cx hint arg
  | .arrow init body => do
    let i ← inferExprType cx hint init
    let b ← inferExprType cx (hint.or (some i)) body
    if typesCompatible cx.tctx i b then pure i
    else cx.fail "E0092" ("`->` operands must have the same type; got " ++ i.debug ++
      " and " ++ b.debug)
  | .call callee args =>
    match cx.sigs callee with
    | none => cx.fail "E0100" ("call to unknown node `" ++ callee ++ "`")
    | some sig => do
      if cx.isFunction && decide (sig.kind = .operator) then
        cx.report "E0101" ("function `" ++ cx.nodeName ++
          "` cannot call stateful operator `" ++ callee ++ "`")
      if args.length ≠ sig.inputs.length then
        cx.fail "E0102" ("call to `" ++ callee ++ "` expects " ++
          toString sig.inputs.length ++ " arguments, got " ++ toString args.length)
      else
        ⟨some (callType sig.outputs), inferArgs cx callee 0 sig.inputs args⟩
  | .field base field => do
    let bt ← inferExprType cx none base
    match cx.tctx.resolve bt with
    | .named recName =>
      match cx.tctx.records recName with
      | some fields =>
        match fields.find? (·.name = field) with
        | some f => pure f.ty
        | none => cx.fail "E0120" ("struct `" ++ recName ++ "` has no field `" ++ field ++ "`")
      | none => cx.fail "E0121" ("cannot access field `" ++ field ++ "`: `" ++ recName ++
          "` is not a struct type")
    | other => cx.fail "E0122" ("cannot access field `" ++ field ++ "` on type " ++
        other.debug ++ "; expected a struct")
  | .index base index => do
    let bt ← inferExprType cx none base
    let it ← inferExprType cx (some .int32) index
    if !(cx.tctx.resolve it).isInteger then
      cx.report "E0111" ("array index must be an integer, got " ++ it.debug)
    match cx.tctx.resolve bt with
    | .array elem _ => pure elem
    | other => cx.fail "E0110" ("indexing a non-array of type " ++ other.debug)
  | .array items =>
    let elemHint : Option Ty :=
      match hint.map cx.tctx.resolve with
      | some (.array elem _) => some elem
      | _ => none
    if items.isEmpty then
      match elemHint with
      | some e => pure (.array e 0)
      | none => cx.fail "E0123"
          "empty array literal needs a type annotation to fix its element type"
    else do
      let elem ← inferItems cx elemHint none items
      pure (.array (elem.getD .bool) items.length)
  | .struct ty fields =>
    let recName : String :=
      match cx.tctx.resolve (.named ty) with
      | .named name => name
      | _ => ty
    match cx.tctx.records recName with
    | some schema =>
      let missing := schema.filterMap fun rf =>
        if fields.any (·.1 = rf.name) then none
        else some (cx.error "E0128" ("struct `" ++ recName ++ "` literal is missing field `" ++
          rf.name ++ "`"))
      ⟨some (.named recName), inferFields cx recName schema fields ++ missing⟩
    | none => cx.fail "E0125" ("`" ++ recName ++ "` is not a struct type, so `" ++ recName ++
        " \x7b … \x7d` is not a value")
  | .tuple _ => pure tupleTy
  | .when arg clock _ => do
    checkClockVarIsBool cx clock
    inferExprType cx hint arg
  | .merge clock onTrue onFalse => do
    checkClockVarIsBool cx clock
    let t ← inferExprType cx hint onTrue
    let f ← inferExprType cx (hint.or (some t)) onFalse
    if typesCompatible cx.tctx t f then pure t
    else cx.fail "E0131" ("merge branches must agree in type, got " ++ t.debug ++ " and " ++
      f.debug)
  | .iterate kind fName init arrays => do
    let (sig, fOut) ← iteratedFunction cx kind fName
    let elems ← inferArrays cx kind arrays
    let n := (elems.map (·.2)).headD 0
    if elems.any (fun e => decide (e.2 ≠ n)) then
      cx.fail "E0144" (iterName kind ++ "'s array operands must have equal length")
    else
      match kind with
      | .map => mapType cx fName sig fOut elems n
      | .fold =>
        match sig.inputs with
        | [acc, elem] =>
          if !typesCompatible cx.tctx acc.ty fOut then
            cx.fail "E0145" ("fold: `" ++ fName ++ "`'s accumulator input " ++
              acc.ty.debug ++ " and output " ++ fOut.debug ++ " must be the same type")
          else
            match init with
            | some seed => do
              let seedTy ← (inferExprType cx (some acc.ty) seed).attempt
              match seedTy with
              | some t =>
                if typesCompatible cx.tctx acc.ty t then foldElemType cx fName elem.ty fOut elems
                else cx.fail "E0145" ("fold: seed has type " ++ t.debug ++ " but `" ++
                  fName ++ "`'s accumulator is " ++ acc.ty.debug)
              | none => foldElemType cx fName elem.ty fOut elems
            | none => foldElemType cx fName elem.ty fOut elems
        | _ => cx.fail "E0145" ("fold: `" ++ fName ++
            "` must take exactly two inputs (accumulator, element)")

/-- Each argument against the port it is passed to. -/
def inferArgs (cx : InferCx) (callee : String) (i : Nat) :
    List Port → List Expr → List Diagnostic
  | p :: ps, a :: as =>
    let t := inferExprType cx (some p.ty) a
    let mismatch : List Diagnostic :=
      match t.result with
      | some ty =>
        if typesCompatible cx.tctx p.ty ty then []
        else [cx.error "E0103" ("call to `" ++ callee ++ "`: argument #" ++ toString i ++ " (" ++
          p.name ++ ") has type " ++ ty.debug ++ ", expected " ++ p.ty.debug)]
      | none => []
    t.diags ++ mismatch ++ inferArgs cx callee (i + 1) ps as
  | _, _ => []

/-- The common element type of an array literal. -/
def inferItems (cx : InferCx) (elemHint : Option Ty) (prev : Option Ty) :
    List Expr → Infer (Option Ty)
  | [] => pure prev
  | e :: es => do
    let t ← inferExprType cx elemHint e
    match prev with
    | none => inferItems cx elemHint (some t) es
    | some p =>
      if typesCompatible cx.tctx p t then inferItems cx elemHint (some p) es
      else cx.fail "E0124" ("array elements must share one type: " ++ p.debug ++ " vs " ++
        t.debug)

/-- Each initialiser of a record literal against the field it initialises. -/
def inferFields (cx : InferCx) (recName : String) (schema : List RecordField) :
    List (String × Expr) → List Diagnostic
  | [] => []
  | (field, value) :: rest =>
    let ds : List Diagnostic :=
      match schema.find? (·.name = field) with
      | some rf =>
        let t := inferExprType cx (some rf.ty) value
        let mismatch : List Diagnostic :=
          match t.result with
          | some ty =>
            if typesCompatible cx.tctx rf.ty ty then []
            else [cx.error "E0127" ("struct `" ++ recName ++ "` field `" ++ field ++ "` expects " ++
              rf.ty.debug ++ ", got " ++ ty.debug)]
          | none => []
        t.diags ++ mismatch
      | none => [cx.error "E0126" ("struct `" ++ recName ++ "` has no field `" ++ field ++ "`")]
    ds ++ inferFields cx recName schema rest

/-- The element type and length of each array operand. -/
def inferArrays (cx : InferCx) (kind : IterKind) : List Expr → Infer (List (Ty × Nat))
  | [] => pure []
  | a :: as => do
    let at' ← inferExprType cx none a
    match cx.tctx.resolve at' with
    | .array elem len => do
      let rest ← inferArrays cx kind as
      pure ((elem, len) :: rest)
    | other => cx.fail "E0143" (iterName kind ++ " operand must be an array, got " ++
        other.debug)

end

end OpenLustre.Typecheck
