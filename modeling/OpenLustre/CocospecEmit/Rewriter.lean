import OpenLustre.Typecheck.Check

/-! The rewriting of a node into the integer semantics of C that the prover's view lacks, by
calls of helper functions. -/

namespace OpenLustre.CocospecEmit

open OpenLustre.Ir OpenLustre.Typecheck

/-- The pseudo-call of clock elimination, `condact(clock, call, defaults…)`. -/
def condact : String := "condact"

mutual

/-- An expression whose clocked calls stand for themselves, and the same with only its proper
subexpressions changed. -/
def stripBoth : Expr → Expr × Expr
  | .const lit => (.const lit, .const lit)
  | .var name => (.var name, .var name)
  | .unary op arg => both (.unary op (stripBoth arg).1)
  | .binary op lhs rhs => both (.binary op (stripBoth lhs).1 (stripBoth rhs).1)
  | .ifThenElse c t e => both (.ifThenElse (stripBoth c).1 (stripBoth t).1 (stripBoth e).1)
  | .pre arg => both (.pre (stripBoth arg).1)
  | .arrow init body => both (.arrow (stripBoth init).1 (stripBoth body).1)
  | .call node args =>
    let parts := stripBothList args
    let below := .call node (parts.map (·.1))
    match parts with
    | _ :: inner :: _ => (if node = condact then inner.2 else below, below)
    | _ => (below, below)
  | .field base f => both (.field (stripBoth base).1 f)
  | .index base i => both (.index (stripBoth base).1 (stripBoth i).1)
  | .tuple items => both (.tuple ((stripBothList items).map (·.1)))
  | .array items => both (.array ((stripBothList items).map (·.1)))
  | .struct ty fields => both (.struct ty (stripBothFields fields))
  | .cast target arg => both (.cast target (stripBoth arg).1)
  | .when arg clock on => both (.when (stripBoth arg).1 clock on)
  | .merge clock t f => both (.merge clock (stripBoth t).1 (stripBoth f).1)
  | .iterate kind node none arrays =>
    both (.iterate kind node none ((stripBothList arrays).map (·.1)))
  | .iterate kind node (some init) arrays =>
    both (.iterate kind node (some (stripBoth init).1) ((stripBothList arrays).map (·.1)))
where both (e : Expr) : Expr × Expr := (e, e)

def stripBothList : List Expr → List (Expr × Expr)
  | [] => []
  | e :: es => stripBoth e :: stripBothList es

def stripBothFields : List (String × Expr) → List (String × Expr)
  | [] => []
  | (f, e) :: fields => (f, (stripBoth e).1) :: stripBothFields fields

end

def stripCondact (e : Expr) : Expr := (stripBoth e).1

/-- Types the expressions of a project that has been checked. -/
structure ExprTyper where
  typeOf : NodeDef → Expr → Option Ty
  resolve : Ty → Ty

def ExprTyper.new (p : Project) : ExprTyper where
  typeOf n e := (inferExprType (nodeCx p n "") none (stripCondact e)).result.map
    (TypeContext.fromProject p).resolve
  resolve := (TypeContext.fromProject p).resolve

def isInt (t : Ty) : Bool := t.isInteger || decide (t = .char)

def intRange : Ty → Option (Int × Int)
  | .int8 => some (-128, 127)
  | .int16 => some (-32768, 32767)
  | .int32 => some (-2147483648, 2147483647)
  | .int64 => some (-9223372036854775808, 9223372036854775807)
  | .uint8 | .char => some (0, 255)
  | .uint16 => some (0, 65535)
  | .uint32 => some (0, 4294967295)
  | .uint64 => some (0, 18446744073709551615)
  | _ => none

def wrapName : Ty → String
  | .int8 => "__ol_wrap_int8"
  | .int16 => "__ol_wrap_int16"
  | .int32 => "__ol_wrap_int32"
  | .int64 => "__ol_wrap_int64"
  | .uint8 | .char => "__ol_wrap_uint8"
  | .uint16 => "__ol_wrap_uint16"
  | .uint32 => "__ol_wrap_uint32"
  | _ => "__ol_wrap_uint64"

def bitOp : BinOp → Option String
  | .bitAnd => some "bit_and"
  | .bitOr => some "bit_or"
  | .bitXor => some "bit_xor"
  | .shl => some "shift_left"
  | .shr => some "shift_right"
  | _ => none

/-- `e` converted from one integer type to another, wrapping like C when the target cannot hold
every value. -/
def wrap (source target : Ty) (e : Expr) : Expr :=
  match intRange source, intRange target with
  | some (lo, hi), some (lo', hi') =>
    if lo' ≤ lo ∧ hi ≤ hi' then e else .call (wrapName target) [e]
  | _, _ => e

namespace Rewriter

variable (typer : ExprTyper) (n : NodeDef)

def isInteger (e : Expr) : Bool := (typer.typeOf n e).any isInt

/-- A binary operation on rewritten operands; `lhs` is the left one as the model has it. -/
def binary (op : BinOp) (lhs l r : Expr) : Expr :=
  if op = .div ∧ isInteger typer n lhs then .call "__ol_div" [l, r]
  else if op = .mod ∧ isInteger typer n lhs then .call "__ol_mod" [l, r]
  else
    match bitOp op with
    | some f => .call f [l, r]
    | none => .binary op l r

/-- A cast of the rewritten operand `a`; `arg` is the operand as the model has it. -/
def cast (target : Ty) (arg a : Expr) : Expr :=
  let to' := typer.resolve target
  match typer.typeOf n arg with
  | some source =>
    if isInt source ∧ to'.isFloat then .call "real" [a]
    -- Out of range is undefined in C: no wrap to model.
    else if source.isFloat ∧ isInt to' then .call "__ol_trunc" [a]
    else if isInt source ∧ isInt to' then wrap source to' a
    else a
  | none => a

mutual

def expr : Expr → Expr
  | .const lit => .const lit
  | .var name => .var name
  | .unary op arg => .unary op (expr arg)
  | .binary op lhs rhs => binary typer n op lhs (expr lhs) (expr rhs)
  | .ifThenElse c t e => .ifThenElse (expr c) (expr t) (expr e)
  | .pre arg => .pre (expr arg)
  | .arrow init body => .arrow (expr init) (expr body)
  | .call node args => .call node (exprs args)
  | .field base f => .field (expr base) f
  | .index base i => .index (expr base) (expr i)
  | .tuple items => .tuple (exprs items)
  | .array items => .array (exprs items)
  | .struct ty fields => .struct ty (exprFields fields)
  | .cast target arg => cast typer n target arg (expr arg)
  | .when arg clock on => .when (expr arg) clock on
  | .merge clock t f => .merge clock (expr t) (expr f)
  | .iterate kind node none arrays => .iterate kind node none (exprs arrays)
  | .iterate kind node (some init) arrays => .iterate kind node (some (expr init)) (exprs arrays)

def exprs : List Expr → List Expr
  | [] => []
  | e :: es => expr e :: exprs es

def exprFields : List (String × Expr) → List (String × Expr)
  | [] => []
  | (f, e) :: fields => (f, expr e) :: exprFields fields

end

/-- A node with its equations rewritten; no local is added. -/
def node : NodeDef :=
  if n.isImported then n
  else { n with equations := n.equations.map fun eq => ⟨eq.lhs, expr typer n eq.rhs⟩ }

/-- A contract's expressions are typed against its ports and ghost variables. -/
def contractNode (c : ContractDef) : NodeDef where
  name := c.name
  kind := .operator
  inputs := c.inputs
  outputs := c.outputs
  locals := c.ghostVars.map fun g => ⟨g.name, g.ty⟩
  equations := []

end Rewriter

/-- A contract with the expressions of its clauses changed. -/
def mapContract (f : Expr → Expr) (c : ContractDef) : ContractDef :=
  { c with
    ghostVars := c.ghostVars.map fun g => { g with definition := f g.definition }
    assumptions := c.assumptions.map fun a => { a with expr := f a.expr }
    guarantees := c.guarantees.map fun g => { g with expr := f g.expr }
    modes := c.modes.map fun m => { m with requires := m.requires.map f, ensures := m.ensures.map f } }

def Rewriter.contract (typer : ExprTyper) (c : ContractDef) : ContractDef :=
  mapContract (expr typer (contractNode c)) c

namespace Rewriter

variable (typer : ExprTyper) (n : NodeDef)

@[simp] theorem node_name : (node typer n).name = n.name := by
  unfold node
  split <;> rfl

@[simp] theorem node_inputs : (node typer n).inputs = n.inputs := by
  unfold node
  split <;> rfl

@[simp] theorem node_outputs : (node typer n).outputs = n.outputs := by
  unfold node
  split <;> rfl

@[simp] theorem node_locals : (node typer n).locals = n.locals := by
  unfold node
  split <;> rfl

end Rewriter

end OpenLustre.CocospecEmit
