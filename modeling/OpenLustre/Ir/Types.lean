import Mathlib.Data.List.Basic

/-! Wire types of the OpenLustre profile and the diagnostics the checkers
report. -/

namespace OpenLustre.Ir

/-- The `{:?}` rendering of a string. -/
def debugStr (s : String) : String :=
  let escape : Char → List Char
    | '"' => ['\\', '"']
    | '\\' => ['\\', '\\']
    | '\n' => ['\\', 'n']
    | '\t' => ['\\', 't']
    | '\r' => ['\\', 'r']
    | c => [c]
  "\"" ++ String.ofList (s.toList.flatMap escape) ++ "\""

inductive Ty : Type
  | bool
  | int8
  | int16
  | int32
  | int64
  | uint8
  | uint16
  | uint32
  | uint64
  | float32
  | float64
  | char
  | array (elem : Ty) (len : Nat)
  | named (name : String)
  deriving DecidableEq, Repr

namespace Ty

def isInteger : Ty → Bool
  | .int8 | .int16 | .int32 | .int64 => true
  | .uint8 | .uint16 | .uint32 | .uint64 => true
  | _ => false

def isFloat : Ty → Bool
  | .float32 | .float64 => true
  | _ => false

def isNumeric (t : Ty) : Bool := t.isInteger || t.isFloat

def isBool : Ty → Bool
  | .bool => true
  | _ => false

/-- The `{:?}` rendering of a type that diagnostics quote. -/
def debug : Ty → String
  | .bool => "Bool"
  | .int8 => "Int8"
  | .int16 => "Int16"
  | .int32 => "Int32"
  | .int64 => "Int64"
  | .uint8 => "Uint8"
  | .uint16 => "Uint16"
  | .uint32 => "Uint32"
  | .uint64 => "Uint64"
  | .float32 => "Float32"
  | .float64 => "Float64"
  | .char => "Char"
  | .array elem len => "Array \x7b elem: " ++ elem.debug ++ ", len: " ++ toString len ++ " \x7d"
  | .named name => "Named \x7b name: " ++ debugStr name ++ " \x7d"

end Ty

inductive Severity
  | error
  | warning
  | info
  deriving DecidableEq, Repr

structure Diagnostic where
  severity : Severity
  code : String
  message : String
  context : List String
  deriving DecidableEq, Repr

namespace Diagnostic

def error (code message : String) (context : List String) : Diagnostic :=
  ⟨.error, code, message, context⟩

def warning (code message : String) (context : List String) : Diagnostic :=
  ⟨.warning, code, message, context⟩

def isError (d : Diagnostic) : Bool := decide (d.severity = .error)

@[simp] theorem isError_error (code message : String) (context : List String) :
    (Diagnostic.error code message context).isError = true := rfl

@[simp] theorem isError_warning (code message : String) (context : List String) :
    (Diagnostic.warning code message context).isError = false := rfl

end Diagnostic

end OpenLustre.Ir
