import OpenLustre.CocospecEmit.Propagate
import OpenLustre.Lib.Bounds
import OpenLustre.LustreEmit.Format

/-! The interval analysis of integer expressions, and the runtime-error checks it leaves. -/

namespace OpenLustre.CocospecEmit

open OpenLustre.Ir OpenLustre.Typecheck Bounds

def isNarrow : Ty → Bool
  | .int8 | .int16 | .uint8 | .uint16 | .char => true
  | _ => false

/-- The type C evaluates an operation on `t` in. -/
def promoted (t : Ty) : Ty := if isNarrow t then .int32 else t

def typeName : Ty → String
  | .int8 => "int8"
  | .int16 => "int16"
  | .int32 => "int32"
  | .int64 => "int64"
  | .uint8 => "uint8"
  | .uint16 => "uint16"
  | .uint32 => "uint32"
  | .uint64 => "uint64"
  | .char => "char"
  | _ => "?"

/-- What the analysis of a node reads: the types of expressions, the variables of the node, the
integer constants and the nodes of the project. -/
structure RteCx where
  typeOf : Expr → Option Ty
  resolve : Ty → Ty
  inEnv : String → Bool
  constants : String → Option Int
  isNode : String → Bool
  /-- A conversion has the type it converts to. -/
  typeOf_cast : ∀ target arg t, typeOf (.cast target arg) = some t → t = resolve target

/-- The value of a constant that is a literal, perhaps negated. -/
def constantValue : Expr → Option Int
  | .const (.int value) => some value
  | .unary .neg arg => (constantValue arg).map (-·)
  | _ => none

def integerConstants (p : Project) (name : String) : Option Int :=
  p.allConstants.reverse.findSome? fun c => if c.name = name then constantValue c.value else none

theorem typeOf_cast_new (p : Project) (n : NodeDef) (target : Ty) (arg : Expr) (t : Ty)
    (h : (ExprTyper.new p).typeOf n (.cast target arg) = some t) :
    t = (TypeContext.fromProject p).resolve target := by
  obtain ⟨u, hu, rfl⟩ := Option.map_eq_some_iff.mp h
  simp only [stripCondact, stripBoth, stripBoth.both, inferExprType] at hu
  obtain ⟨a, -, hu⟩ := Infer.bind_result_eq_some.mp hu
  split at hu
  · cases hu
  · split at hu
    · cases hu
    · cases hu
      rfl

def RteCx.new (p : Project) (n : NodeDef) : RteCx where
  typeOf := (ExprTyper.new p).typeOf n
  resolve := (ExprTyper.new p).resolve
  inEnv name := (nodeEnv n name).isSome
  constants := integerConstants p
  isNode name := (p.findNode name).isSome
  typeOf_cast := typeOf_cast_new p n

/-- A result that has to fit a machine integer of 128 bits. -/
def i128 (v : Int) : Option Int := if -2 ^ 127 ≤ v ∧ v < 2 ^ 127 then some v else none

/-- An operation whose values are checked to fit the type C computes it in. -/
def isArith : BinOp → Bool
  | .add | .sub | .mul | .div | .mod => true
  | _ => false

def isOp : Expr → Bool
  | .unary .neg _ => true
  | .binary op _ _ => isArith op
  | _ => false

section

-- How a bound is represented; nothing where it does not fit.
variable (lim : Int → Option Int)

def limRange (r : Range) : Option Range := do some (← lim r.1, ← lim r.2)

def limCorners (f : Int → Int → Int) (a b : Range) : Option Range := do
  let _ ← limRange lim (f a.1 b.1, f a.1 b.2)
  let _ ← limRange lim (f a.2 b.1, f a.2 b.2)
  some (corners f a b)

def limAbsMax (r : Range) : Option Int := do
  let _ ← limRange lim (|r.1|, |r.2|)
  some (absMax r)

/-- The bounds of an operation from those of its operands. -/
def opBounds (op : BinOp) (a b : Range) : Option Range :=
  match op with
  | .add => limRange lim (a.1 + b.1, a.2 + b.2)
  | .sub => limRange lim (a.1 - b.2, a.2 - b.1)
  | .mul => limCorners lim (· * ·) a b
  | .div =>
    if 0 < b.1 ∨ b.2 < 0 then limCorners lim Int.tdiv a b
    else do
      -- A zero divisor is a check of its own.
      let m ← limAbsMax lim a
      some (-m, m)
  | _ => do
    let _ ← limAbsMax lim a
    let _ ← limAbsMax lim b
    some (remainder a b)

namespace RteCx

variable (cx : RteCx)

def intType (e : Expr) : Option Ty := (cx.typeOf e).filter fun t => (intRange t).isSome

/-- The range of an expression's integer type. -/
def typeRange (e : Expr) : Option Range := (cx.intType e).bind intRange

/-- The range of the type C computes an expression in. -/
def promotedRange (e : Expr) : Option Range := (cx.intType e).bind fun t => intRange (promoted t)

/-- An operation is checked to fit the type C computes it in. -/
def clip (e : Expr) (raw : Option Range) : Option Range :=
  if isOp e then
    match raw, cx.promotedRange e with
    | some c, some k => some (meet c k)
    | some c, none => some c
    | none, k => k
  else raw

/-- The bounds of an expression before its own check; the outer `none` where a bound does not
fit. -/
def rawIntervalIn : Expr → Option (Option Range)
  | .const (.int value) => some (some (value, value))
  | .const (.char value) => some (some (value.toNat, value.toNat))
  | .var name =>
    if cx.inEnv name then some (cx.typeRange (.var name))
    else
      match cx.constants name with
      | some v => some (some (v, v))
      | none => some (cx.typeRange (.var name))
  | .unary .neg arg => do
    match cx.clip arg (← rawIntervalIn arg) with
    | some r => (limRange lim (-r.2, -r.1)).map some
    | none => some none
  | .binary op lhs rhs =>
    if isArith op then do
      match cx.clip lhs (← rawIntervalIn lhs), cx.clip rhs (← rawIntervalIn rhs) with
      | some a, some b => (opBounds lim op a b).map some
      | _, _ => some (cx.typeRange (.binary op lhs rhs))
    else some (cx.typeRange (.binary op lhs rhs))
  | .ifThenElse c t e => do
    match cx.clip t (← rawIntervalIn t), cx.clip e (← rawIntervalIn e) with
    | some a, some b => some (some (hull a b))
    | _, _ => some (cx.typeRange (.ifThenElse c t e))
  | .arrow t e => do
    match cx.clip t (← rawIntervalIn t), cx.clip e (← rawIntervalIn e) with
    | some a, some b => some (some (hull a b))
    | _, _ => some (cx.typeRange (.arrow t e))
  | e => some (cx.typeRange e)

end RteCx

end

namespace RteCx

variable (cx : RteCx)

/-- The bounds of an expression before its own check; nothing where one overflows. -/
def rawInterval (e : Expr) : Option (Option Range) := cx.rawIntervalIn i128 e

/-- The bounds of an expression behind its own check. -/
def interval (e : Expr) : Option (Option Range) := (cx.rawInterval e).map (cx.clip e)

/-- The bounds of an expression over unbounded integers. -/
def bounds (e : Expr) : Option Range := cx.clip e (cx.rawIntervalIn some e).join

def fits (e : Expr) (r : Range) : Bool := (cx.interval e).join.any fun b => r.1 ≤ b.1 && b.2 ≤ r.2

end RteCx

/-- A condition an expression is evaluated under; `clock` when it is a clock. -/
structure Guard where
  cond : Expr
  clock : Bool
  deriving Repr

/-- A check before it has a local: what must hold where all its guards do. -/
structure Obligation where
  guards : List Guard
  cond : Expr
  kind : RteKind
  what : String
  deriving Repr

def maxLit : Nat := 9223372036854775807

/-- The top half of `uint64` has no literal: it is a sum. -/
def natLit (n : Nat) : Expr :=
  if maxLit < n then .binary .add (.const (.int maxLit)) (natLit (n - maxLit)) else .const (.int n)
  termination_by n
  decreasing_by exact Nat.sub_lt (by omega) (by decide)

def intLit (v : Int) : Expr := if v < 0 then .unary .neg (natLit v.natAbs) else natLit v.natAbs

def realLit (x : F64) : Expr :=
  if x.lt (.zero false) then .unary .neg (.const (.float x.negate)) else .const (.float x)

/-- The condition that a value lies in a range. -/
def within (e : Expr) (r : Range) : Expr :=
  .binary .and (.binary .le (intLit r.1) e) (.binary .le e (intLit r.2))

/-- An expression in model syntax, shortened for a report line. -/
def shown (e : Expr) : String :=
  let s := (LustreEmit.formatExpr e).toList
  if 72 < s.length then String.ofList (s.take 71 ++ ['…']) else String.ofList s

/-- A clock condition introduced by clock elimination. -/
def isClock : Expr → Bool
  | .var name => "__ck".toList.isPrefixOf name.toList
  | _ => false

/-- True in the first cycle only. -/
def firstCycle : Expr := .arrow (.const (.bool true)) (.const (.bool false))

namespace RteCx

variable (cx : RteCx)

/-- A narrow value stored (into `target`, or an argument, element, memory) fits its type. -/
def store (e : Expr) (target : Option String) (guards : List Guard) : List Obligation :=
  match cx.intType e with
  | none => []
  | some t =>
    match intRange t with
    | none => []
    | some r =>
      if !isNarrow t || cx.fits e r then []
      else
        match target with
        | some x => [⟨guards, within (.var x) r, .narrowing,
            x ++ " = " ++ shown e ++ " fits " ++ typeName t⟩]
        | none => [⟨guards, within e r, .narrowing, shown e ++ " fits " ++ typeName t⟩]

/-- The values of an operation fit the type C computes it in; `subject` is what is compared. -/
def overflow (e subject : Expr) (t : Ty) (guards : List Guard) : List Obligation :=
  match intRange (promoted t) with
  | none => []
  | some r =>
    if (cx.rawInterval subject).join.any fun b => r.1 ≤ b.1 && b.2 ≤ r.2 then []
    else [⟨guards, within subject r, .overflow, shown e ++ " fits " ++ typeName (promoted t)⟩]

/-- The check of a divisor, where its bounds leave zero possible. -/
def divisor (e rhs : Expr) (guards : List Guard) : List Obligation :=
  if (cx.interval rhs).join.all fun b => b.1 ≤ 0 && 0 ≤ b.2 then
    [⟨guards, .binary .neq rhs (.const (.int 0)), .divisionByZero,
      shown rhs ++ " <> 0 in " ++ shown e⟩]
  else []

/-- The conditions behind the check of a divisor. -/
def behindDivisor (op : BinOp) (e rhs : Expr) (guards : List Guard) : List Guard :=
  if op = .div ∨ op = .mod then guards ++ (cx.divisor e rhs guards).map fun o => ⟨o.cond, false⟩
  else guards

/-- The checks of one operation, without those of its operands. -/
def ownChecks (e : Expr) (guards : List Guard) : List Obligation :=
  match e with
  | .binary op lhs rhs =>
    if isArith op then
      match cx.intType e with
      | none => []
      | some t =>
        -- `a % b` overflows exactly when `a / b` does.
        let subject := if op = .mod then .binary .div lhs rhs else e
        (if op = .div ∨ op = .mod then cx.divisor e rhs guards else []) ++
          cx.overflow e subject t (cx.behindDivisor op e rhs guards)
    else []
  | .unary .neg _ => ((cx.intType e).map fun t => cx.overflow e e t guards).getD []
  | .index base index =>
    match cx.typeOf base with
    | some (.array _ len) =>
      let r : Range := (0, (len : Int) - 1)
      if cx.fits index r then []
      else [⟨guards, within index r, .indexOutOfBounds, shown index ++ " indexes " ++ shown base ++
        " (0.." ++ toString (len - 1) ++ ")"⟩]
    | _ => []
  | .cast target arg =>
    match intRange (cx.resolve target), (cx.typeOf arg).any (·.isFloat) with
    | some (lo, hi), true =>
      let one := Ieee.Num.ofInt Ieee.Format.binary64 1
      [⟨guards, .binary .and
          (.binary .lt (realLit ((Ieee.Num.ofInt _ lo).sub one)) arg)
          (.binary .lt arg (realLit ((Ieee.Num.ofInt _ hi).add one))), .conversion,
        shown arg ++ " converts to " ++ typeName (cx.resolve target)⟩]
    | _, _ => []
  | .array items => items.flatMap fun i => cx.store i none guards
  | .struct _ fields => fields.flatMap fun f => cx.store f.2 none guards
  | .call node args => if cx.isNode node then args.flatMap fun a => cx.store a none guards else []
  | _ => []

mutual

/-- The checks of every operation of an expression, each under the conditions under which C
evaluates it. -/
def walk (guards : List Guard) : Expr → List Obligation
  | .ifThenElse c t e =>
    walk guards c ++ walk (guards ++ [⟨c, isClock c⟩]) t ++
      walk (guards ++ [⟨.unary .not c, false⟩]) e
  | .arrow init body =>
    walk (guards ++ [⟨firstCycle, false⟩]) init ++
      walk (guards ++ [⟨.unary .not firstCycle, false⟩]) body
  -- The memory is written on every tick of its clock.
  | .pre arg =>
    walk (guards.filter (·.clock)) arg ++ cx.store arg none (guards.filter (·.clock))
  | .call node args =>
    if node = condact then
      match args with
      | act :: call :: defaults =>
        walk guards act ++ walk (guards.filter (·.clock) ++ [⟨act, true⟩]) call ++
          walkList guards defaults
      | _ => []
    else cx.ownChecks (.call node args) guards ++ walkList guards args
  | .const _ | .var _ => []
  | .unary op arg => cx.ownChecks (.unary op arg) guards ++ walk guards arg
  | .binary op lhs rhs =>
    cx.ownChecks (.binary op lhs rhs) guards ++ walk guards lhs ++ walk guards rhs
  | .field base _ => walk guards base
  | .index base index =>
    cx.ownChecks (.index base index) guards ++ walk guards base ++ walk guards index
  | .tuple items => walkList guards items
  | .array items => cx.ownChecks (.array items) guards ++ walkList guards items
  | .struct ty fields => cx.ownChecks (.struct ty fields) guards ++ walkFields guards fields
  | .cast target arg => cx.ownChecks (.cast target arg) guards ++ walk guards arg
  | .when arg _ _ => walk guards arg
  | .merge _ onTrue onFalse => walk guards onTrue ++ walk guards onFalse
  | .iterate _ _ none arrays => walkList guards arrays
  | .iterate _ _ (some init) arrays => walk guards init ++ walkList guards arrays

def walkList (guards : List Guard) : List Expr → List Obligation
  | [] => []
  | e :: es => walk guards e ++ walkList guards es

def walkFields (guards : List Guard) : List (String × Expr) → List Obligation
  | [] => []
  | (_, e) :: fields => walk guards e ++ walkFields guards fields

end

end RteCx

end OpenLustre.CocospecEmit
