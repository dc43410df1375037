import Mathlib.Data.Int.DivMod
import OpenLustre.Ir.Project

/-! Simulator values, the errors a step can end in, and the conversions and
operators on values. -/

namespace OpenLustre.Simulator

open OpenLustre.Ir

/-- A value.  An integer is carried as an `i64`; a record is kept sorted by field
name. -/
inductive Value
  | bool (b : Bool)
  | int (i : Int)
  | float (x : F64)
  | float32 (x : F32)
  | tuple (items : List Value)
  | record (fields : List (String × Value))
  | array (items : List Value)
  | enum (variant : String)
  deriving Repr

namespace Value

def asBool : Value → Option Bool
  | .bool b => some b
  | _ => none

def asInt : Value → Option Int
  | .int i => some i
  | _ => none

mutual

/-- Comparison of values; reals compare by value, so a NaN differs from itself. -/
def eq : Value → Value → Bool
  | .bool a, .bool b => a == b
  | .int a, .int b => decide (a = b)
  | .float a, .float b => a.eq b
  | .float32 a, .float32 b => a.eq b
  | .tuple as, .tuple bs => eqList as bs
  | .record as, .record bs => eqFields as bs
  | .array as, .array bs => eqList as bs
  | .enum a, .enum b => decide (a = b)
  | _, _ => false

def eqList : List Value → List Value → Bool
  | [], [] => true
  | a :: as, b :: bs => a.eq b && eqList as bs
  | _, _ => false

def eqFields : List (String × Value) → List (String × Value) → Bool
  | [], [] => true
  | (f, a) :: as, (g, b) :: bs => decide (f = g) && a.eq b && eqFields as bs
  | _, _ => false

end

end Value

/-- Insert into a map kept sorted by key. -/
def insertField (name : String) (v : Value) : List (String × Value) → List (String × Value)
  | [] => [(name, v)]
  | (f, w) :: rest =>
    if name = f then (name, v) :: rest
    else if name < f then (name, v) :: (f, w) :: rest
    else (f, w) :: insertField name v rest

/-- The evaluation errors, one constructor for each message. -/
inductive EvalError
  | unknownNode (name : String)
  | constant (name : String) (error : EvalError)
  | unorderableRoot (message : String)
  | unorderable (node : String) (message : String)
  | unbound (name : String)
  | unaryOperand (op : UnaryOp) (v : Value)
  | binaryOperands (op : BinOp) (l r : Value)
  | conditionNotBool (v : Value)
  | decisionNotBool (v : Value)
  | uninitializedPre
  | noPrevious (name : String)
  | complexPre
  | clockNotBool (clock : String) (v : Value)
  | clockMissing (clock : String)
  | mergeClockNotBool (clock : String) (v : Value)
  | mergeClockMissing (clock : String)
  | cast (v : Value) (target : Ty)
  | condactArity
  | condactClock
  | unknownCallee (name : String)
  | callArity (name : String) (expected got : Nat)
  | importedCall (name : String)
  | missingField (name : String)
  | notStruct (field : String) (v : Value)
  | indexNotInt (v : Value)
  | indexOutOfBounds (i : Int) (len : Nat)
  | indexNotArray (v : Value)
  | iteratorUnknown (name : String)
  | iteratorNotFunction (name : String)
  | iteratorOperand (v : Value)
  | iteratorLengths
  | foldWithoutSeed
  | iteratedArity (name : String) (expected got : Nat)
  | notTuple (v : Value)
  | contractReads (contract name : String)
  | breakpointNotBool (v : Value)
  deriving Repr

/-- Where the program stops instead of returning an error. -/
inductive Panic
  | overflow
  | emptyFold
  | unreachable
  | stackOverflow
  deriving DecidableEq, Repr

inductive Fault
  | error (e : EvalError)
  | panic (p : Panic)
  deriving Repr

/-- How the simulator is built and run: whether arithmetic overflow panics or
wraps, and how deep the recursion over types and calls may go. -/
structure Machine where
  overflowChecks : Bool
  stack : Nat
  deriving Repr

def minI64 : Int := -9223372036854775808
def maxI64 : Int := 9223372036854775807

def inI64 (i : Int) : Bool := decide (minI64 ≤ i ∧ i ≤ maxI64)

def wrapI64 (i : Int) : Int := i.bmod (2 ^ 64)

/-- The result of an arithmetic operation on `i64`. -/
def arith (m : Machine) (i : Int) : Except Fault Value :=
  if inI64 i then .ok (.int i)
  else if m.overflowChecks then .error (.panic .overflow)
  else .ok (.int (wrapI64 i))

def narrowInt (t : Ty) (i : Int) : Int :=
  match t with
  | .int8 => i.bmod (2 ^ 8)
  | .int16 => i.bmod (2 ^ 16)
  | .int32 => i.bmod (2 ^ 32)
  | .uint8 => i % 2 ^ 8
  | .uint16 => i % 2 ^ 16
  | .uint32 => i % 2 ^ 32
  | _ => i

def findType (p : Project) (name : String) : Option TypeBody :=
  (p.allTypes.find? (·.name = name)).map (·.body)

/-- The initial value of a variable, to a nesting depth of `fuel`. -/
def defaultValue (p : Project) : Nat → Ty → Except Fault Value
  | 0, _ => .error (.panic .stackOverflow)
  | fuel + 1, ty =>
    match ty with
    | .bool => .ok (.bool false)
    | .float32 => .ok (.float32 (.zero false))
    | .float64 => .ok (.float (.zero false))
    | .int8 | .int16 | .int32 | .int64 | .uint8 | .uint16 | .uint32 | .uint64 | .char => .ok (.int 0)
    | .array elem len => (List.replicate len elem).mapM (defaultValue p fuel) |>.map .array
    | .named name =>
      match findType p name with
      | some (.enum e) => .ok (.enum (e.variants.head?.getD ""))
      | some (.record _ fields) =>
        (fields.foldlM (fun m (f : RecordField) =>
          (defaultValue p fuel f.ty).map fun v => insertField f.name v m) []).map .record
      | some (.aliasOf _ target) => defaultValue p fuel target
      | none => .ok (.int 0)

/-- A value as a variable of type `ty` holds it once assigned. -/
def fitTo (p : Project) : Nat → Ty → Value → Except Fault Value
  | 0, _, _ => .error (.panic .stackOverflow)
  | fuel + 1, ty, v =>
    match ty, v with
    | .float32, .float x => .ok (.float32 (x.convert _))
    | .float32, .int i => .ok (.float32 (.ofInt _ i))
    | .float64, .float32 x => .ok (.float (x.convert _))
    | .float64, .int i => .ok (.float (.ofInt _ i))
    | .array elem _, .array xs => (xs.mapM (fitTo p fuel elem)).map .array
    | .named name, v =>
      match findType p name, v with
      | some (.record _ fields), .record m =>
        (fields.foldlM (fun m (f : RecordField) =>
          match List.lookup f.name m with
          | some x => (fitTo p fuel f.ty x).map fun x => insertField f.name x m
          | none => .ok m) m).map .record
      | some (.aliasOf _ target), v => fitTo p fuel target v
      | _, v => .ok v
    | t, .int i => .ok (.int (if t.isInteger then narrowInt t i else i))
    | _, v => .ok v

/-- Look up a name against any declared enum. -/
def enumVariantValue (p : Project) (name : String) : Option Value :=
  if p.allTypes.any (fun t =>
    match t.body with
    | .enum e => e.variants.contains name
    | _ => false) then some (.enum name) else none

def castValue (target : Ty) (v : Value) : Except Fault Value :=
  match target, v with
  | .float32, .int i => .ok (.float32 (.ofInt _ i))
  | .float32, .float x => .ok (.float32 (x.convert _))
  | .float32, .float32 x => .ok (.float32 x)
  | .float64, .int i => .ok (.float (.ofInt _ i))
  | .float64, .float x => .ok (.float x)
  | .float64, .float32 x => .ok (.float (x.convert _))
  | t, .int i =>
    if t.isInteger then .ok (.int (narrowInt t i)) else .error (.error (.cast (.int i) t))
  | t, .float x =>
    if t.isInteger then .ok (.int (narrowInt t (x.toInt minI64 maxI64)))
    else .error (.error (.cast (.float x) t))
  | t, .float32 x =>
    if t.isInteger then .ok (.int (narrowInt t (x.toInt minI64 maxI64)))
    else .error (.error (.cast (.float32 x) t))
  | t, v => .error (.error (.cast v t))

def evalUnary (m : Machine) (op : UnaryOp) (v : Value) : Except Fault Value :=
  match op, v with
  | .not, .bool b => .ok (.bool !b)
  | .neg, .int i => arith m (-i)
  | .neg, .float x => .ok (.float x.negate)
  | .neg, .float32 x => .ok (.float32 x.negate)
  | op, v => .error (.error (.unaryOperand op v))

/-- Two real operands as doubles, and whether the operation is in single
precision. -/
def realPair : Value → Value → Option (F64 × F64 × Bool)
  | .float32 a, .float32 b => some (a.convert _, b.convert _, true)
  | .float32 a, .float b => some (a.convert _, b, false)
  | .float a, .float32 b => some (a, b.convert _, false)
  | .float a, .float b => some (a, b, false)
  | _, _ => none

/-- An operator on reals.  A float32 operation rounds its operands back, which is
exact, and computes in single precision. -/
def evalReal (op : BinOp) (a b : F64) (single : Bool) : Option Value :=
  let arith (onDouble : F64 → F64 → F64) (onSingle : F32 → F32 → F32) : Option Value :=
    if single then some (.float32 (onSingle (a.convert _) (b.convert _)))
    else some (.float (onDouble a b))
  match op with
  | .eq => some (.bool (a.eq b))
  | .neq => some (.bool (!a.eq b))
  | .lt => some (.bool (a.lt b))
  | .le => some (.bool (a.le b))
  | .gt => some (.bool (b.lt a))
  | .ge => some (.bool (b.le a))
  | .add => arith .add .add
  | .sub => arith .sub .sub
  | .mul => arith .mul .mul
  | .div => if b.eq (.zero false) then none else arith .div .div
  | _ => none

def bitwise (f : BitVec 64 → BitVec 64 → BitVec 64) (a b : Int) : Value :=
  .int (f (.ofInt 64 a) (.ofInt 64 b)).toInt

/-- An operator on integers.  Dividing the least integer by minus one panics in
every build. -/
def evalInt (m : Machine) (op : BinOp) (a b : Int) : Except Fault Value :=
  let unsupported : Except Fault Value := .error (.error (.binaryOperands op (.int a) (.int b)))
  match op with
  | .eq => .ok (.bool (decide (a = b)))
  | .neq => .ok (.bool (decide (a ≠ b)))
  | .lt => .ok (.bool (decide (a < b)))
  | .le => .ok (.bool (decide (a ≤ b)))
  | .gt => .ok (.bool (decide (a > b)))
  | .ge => .ok (.bool (decide (a ≥ b)))
  | .add => arith m (a + b)
  | .sub => arith m (a - b)
  | .mul => arith m (a * b)
  | .div =>
    if b = 0 then unsupported
    else if a = minI64 ∧ b = -1 then .error (.panic .overflow)
    else .ok (.int (a.tdiv b))
  | .mod =>
    if b = 0 then unsupported
    else if a = minI64 ∧ b = -1 then .error (.panic .overflow)
    else .ok (.int (a.tmod b))
  | .bitAnd => .ok (bitwise (· &&& ·) a b)
  | .bitOr => .ok (bitwise (· ||| ·) a b)
  | .bitXor => .ok (bitwise (· ^^^ ·) a b)
  | .shl => if 0 ≤ b ∧ b < 64 then .ok (bitwise (fun x _ => x <<< b.toNat) a b) else unsupported
  | .shr =>
    if 0 ≤ b ∧ b < 64 then .ok (bitwise (fun x _ => x.sshiftRight b.toNat) a b) else unsupported
  | .and | .or | .xor | .implies => unsupported

def evalBinary (m : Machine) (op : BinOp) (l r : Value) : Except Fault Value :=
  match op, l, r with
  | .and, .bool a, .bool b => .ok (.bool (a && b))
  | .or, .bool a, .bool b => .ok (.bool (a || b))
  | .xor, .bool a, .bool b => .ok (.bool (a ^^ b))
  | .implies, .bool a, .bool b => .ok (.bool (!a || b))
  | op, l, r =>
    match realPair l r with
    | some (a, b, single) =>
      match evalReal op a b single with
      | some v => .ok v
      | none => .error (.error (.binaryOperands op l r))
    | none =>
      match op, l, r with
      | op, .int a, .int b => evalInt m op a b
      | .eq, a, b => .ok (.bool (a.eq b))
      | .neq, a, b => .ok (.bool (!a.eq b))
      | op, l, r => .error (.error (.binaryOperands op l r))

end OpenLustre.Simulator
