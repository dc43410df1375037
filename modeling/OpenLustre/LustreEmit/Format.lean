import OpenLustre.Stdlib.Lexer

/-! The surface formatter of expressions. -/

namespace OpenLustre.LustreEmit

open OpenLustre.Ir OpenLustre.Stdlib

def bitOpName : BinOp → Option String
  | .bitAnd => some "bit_and"
  | .bitOr => some "bit_or"
  | .bitXor => some "bit_xor"
  | .shl => some "shift_left"
  | .shr => some "shift_right"
  | _ => none

/-- The symbol of an operator and its precedence. -/
def binOpSyntax : BinOp → String × Nat
  | .or => ("or", 20)
  | .xor => ("xor", 20)
  | .and => ("and", 25)
  | .implies => ("=>", 18)
  | .eq => ("=", 30)
  | .neq => ("<>", 30)
  | .lt => ("<", 30)
  | .le => ("<=", 30)
  | .gt => (">", 30)
  | .ge => (">=", 30)
  | .add => ("+", 40)
  | .sub => ("-", 40)
  | .mul => ("*", 50)
  | .div => ("/", 50)
  | .mod => ("mod", 50)
  | .bitAnd | .bitOr | .bitXor | .shl | .shr => ("?bit?", 0)

/-- The surface name of a cast target. -/
def castTypeName : Ty → String
  | .int8 => "int8"
  | .int16 => "int16"
  | .int32 => "int32"
  | .int64 => "int64"
  | .uint8 => "uint8"
  | .uint16 => "uint16"
  | .uint32 => "uint32"
  | .uint64 => "uint64"
  | .float32 => "float32"
  | .float64 => "float64"
  | _ => "int32"

def formatCharLiteral (b : UInt8) : String :=
  match asChar b with
  | '\n' => "'\\n'"
  | '\t' => "'\\t'"
  | '\r' => "'\\r'"
  | '\x00' => "'\\0'"
  | '\'' => "'\\''"
  | '\\' => "'\\\\'"
  | c => "'" ++ toString c ++ "'"

def formatLiteral : Literal → String
  | .bool value => toString value
  | .int value => toString value
  | .float f =>
    let s := f.display
    if s.toList.contains '.' then s else s ++ ".0"
  | .char value => formatCharLiteral value

def join (sep : String) : List String → String
  | [] => ""
  | [s] => s
  | s :: ss => s ++ sep ++ join sep ss

def iterName : IterKind → String
  | .map => "map"
  | .fold => "fold"

/-- A text of precedence `prec`, in parentheses where its surroundings bind
tighter. -/
def parenthesize (parentPrec : Nat) (text : String) (prec : Nat) : String :=
  if prec < parentPrec then "(" ++ text ++ ")" else text

mutual

def formatExprPrec : Expr → Nat → String
  | .const lit, p => parenthesize p (formatLiteral lit) 100
  | .var name, p => parenthesize p name 100
  | .unary .not arg, p => parenthesize p ("not " ++ formatExprPrec arg 90) 90
  | .unary .neg arg, p => parenthesize p ("- " ++ formatExprPrec arg 90) 90
  | .binary op lhs rhs, p =>
    match bitOpName op with
    | some fname =>
      parenthesize p
        (fname ++ "(" ++ formatExprPrec lhs 0 ++ ", " ++ formatExprPrec rhs 0 ++ ")") 100
    | none =>
      let (sym, prec) := binOpSyntax op
      parenthesize p
        (formatExprPrec lhs prec ++ " " ++ sym ++ " " ++ formatExprPrec rhs (prec + 1)) prec
  | .ifThenElse cond thenBranch elseBranch, p =>
    parenthesize p
      ("if " ++ formatExprPrec cond 0 ++ " then " ++ formatExprPrec thenBranch 0 ++ " else "
        ++ formatExprPrec elseBranch 0) 5
  | .pre arg, p => parenthesize p ("pre " ++ formatExprPrec arg 80) 80
  | .arrow init body, p =>
    parenthesize p (formatExprPrec init 15 ++ " -> " ++ formatExprPrec body 14) 15
  | .call node args, p => parenthesize p (node ++ "(" ++ join ", " (formatParts args) ++ ")") 100
  | .field base field, p => parenthesize p (formatExprPrec base 100 ++ "." ++ field) 100
  | .index base index, p =>
    parenthesize p (formatExprPrec base 100 ++ "[" ++ formatExprPrec index 0 ++ "]") 100
  | .tuple items, p => parenthesize p ("(" ++ join ", " (formatParts items) ++ ")") 100
  | .array items, p => parenthesize p ("[" ++ join "; " (formatParts items) ++ "]") 100
  | .struct ty fields, p =>
    parenthesize p (ty ++ " \x7b " ++ join ", " (formatFields fields) ++ " \x7d") 100
  | .cast target arg, p =>
    parenthesize p (castTypeName target ++ "(" ++ formatExprPrec arg 0 ++ ")") 100
  | .when arg clock on, p =>
    let a := formatExprPrec arg 16
    parenthesize p (if on then a ++ " when " ++ clock else a ++ " when not " ++ clock) 16
  | .merge clock onTrue onFalse, p =>
    parenthesize p
      ("merge(" ++ clock ++ ", " ++ formatExprPrec onTrue 0 ++ ", " ++ formatExprPrec onFalse 0
        ++ ")") 100
  | .iterate kind node none arrays, p =>
    parenthesize p (iterName kind ++ "(" ++ join ", " (node :: formatParts arrays) ++ ")") 100
  | .iterate kind node (some init) arrays, p =>
    parenthesize p
      (iterName kind ++ "(" ++ join ", " (node :: formatExprPrec init 0 :: formatParts arrays)
        ++ ")") 100

def formatParts : List Expr → List String
  | [] => []
  | e :: es => formatExprPrec e 0 :: formatParts es

def formatFields : List (String × Expr) → List String
  | [] => []
  | (f, e) :: fields => (f ++ ": " ++ formatExprPrec e 0) :: formatFields fields

end

/-- The surface text of an expression, as the Studio shows it and reads it back. -/
def formatExpr (e : Expr) : String := formatExprPrec e 0

end OpenLustre.LustreEmit
