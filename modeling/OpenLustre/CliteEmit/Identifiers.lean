import OpenLustre.Ir.Clocks
import OpenLustre.Typecheck.Check

/-! The identifiers the emitter writes in each scope of the C code. -/

namespace OpenLustre.CliteEmit

open OpenLustre.Ir OpenLustre.Typecheck

/-- The words a variable's C identifier avoids: keywords, the names of `stdbool`, and the parameters
of every step function. -/
def reserved : List String :=
  ["auto", "break", "case", "char", "const", "continue", "default", "do", "double", "else", "enum",
    "extern", "float", "for", "goto", "if", "inline", "int", "long", "register", "restrict",
    "return", "short", "signed", "sizeof", "static", "struct", "switch", "typedef", "union",
    "unsigned", "void", "volatile", "while", "bool", "true", "false", "in", "out", "self"]

/-- The C identifier of a variable. -/
def cIdent (name : String) : String := if reserved.contains name then name ++ "_" else name

/-- The keywords of C11. -/
def keywords : List String :=
  ["auto", "break", "case", "char", "const", "continue", "default", "do", "double", "else", "enum",
    "extern", "float", "for", "goto", "if", "inline", "int", "long", "register", "restrict",
    "return", "short", "signed", "sizeof", "static", "struct", "switch", "typedef", "union",
    "unsigned", "void", "volatile", "while", "_Alignas", "_Alignof", "_Atomic", "_Bool",
    "_Complex", "_Generic", "_Imaginary", "_Noreturn", "_Static_assert", "_Thread_local"]

section File

/-- The names a project declares itself: types, variants of enumerations, and constants. -/
def typeNames (p : Project) : List String := p.allTypes.map (·.name)

def variantNames (p : Project) : List String := p.allTypes.flatMap fun t => TypeBody.variants t.body

def constantNames (p : Project) : List String := p.allConstants.map (·.name)

/-- What the names of a node's structs and functions end in. -/
def nodeParts (n : NodeDef) : List String :=
  ["_Input", "_Output", "_State"] ++ (if n.isFunction then [] else ["_init"]) ++ ["_step"]

def nodeNames (n : NodeDef) : List String := (nodeParts n).map (n.name ++ ·)

/-- The identifiers of the file, each at its declaration. -/
def fileNames (p : Project) : List String :=
  p.allTypes.flatMap (fun t => TypeBody.variants t.body ++ [t.name]) ++ constantNames p ++
    p.allNodes.flatMap nodeNames

end File

section State

def stateFieldName (name : String) : String := "prev_" ++ name

def preVar : Expr → Option String
  | .pre (.var name) => some name
  | _ => none

/-- The variables under a `pre`, each once. -/
def preVars (n : NodeDef) : List String := (n.bodyTerms.filterMap preVar).eraseDups

/-- The state fields that keep the previous values of variables. -/
def nodeStateFields (n : NodeDef) : List (String × Ty) :=
  (preVars n).map fun x => (stateFieldName x, (nodeEnv n x).getD .bool)

def callee : Expr → Option String
  | .call node _ => some node
  | _ => none

/-- The calls of an expression, in the order they are numbered in. -/
def calls (e : Expr) : List String := e.subterms.filterMap callee

/-- The calls of operators, each with its number among the calls of the node. -/
def statefulSubs (p : Project) (n : NodeDef) : List (String × Nat) :=
  (n.equations.flatMap fun eq => calls eq.rhs).zipIdx.filter fun x =>
    (p.findNode x.1).any fun c => decide (c.kind = .operator)

def nodeClocks (n : NodeDef) : ClockInfo := if nodeUsesClocks n then inferClocks n else {}

/-- The variables that clocked equations define, each once. -/
def heldVars (n : NodeDef) : List String :=
  (n.equations.zipIdx.flatMap fun x =>
    if ((nodeClocks n).equationClocks[x.2]?).any fun ck => !ck.isBase then x.1.lhs else []).eraseDups

/-- The state fields that keep the values of clocked variables through inactive cycles. -/
def heldFields (n : NodeDef) : List (String × Ty) :=
  (heldVars n).map fun x => ("held_" ++ cIdent x, (nodeEnv n x).getD .bool)

def subField (idx : Nat) : String := "sub_" ++ toString idx

def chainField (i : Nat) : String := "clk" ++ toString i ++ "_ticked"

/-- The fields of a node's state. -/
def stateFields (p : Project) (n : NodeDef) : List String :=
  "initialized" :: ((nodeStateFields n).map (·.1) ++ (statefulSubs p n).map (subField ·.2) ++
    (heldFields n).map (·.1) ++ (List.range (nodeClocks n).chains.length).map chainField)

end State

section Step

/-- A temporary of a step function: the structs of a call, or the variables of an iterator's
loop. -/
inductive Temporary
  | callInput (idx : Nat)
  | callOutput (idx : Nat)
  | iterAcc (seq : Nat)
  | iterIndex (seq : Nat)
  | iterInput (seq : Nat)
  | iterOutput (seq : Nat)
  deriving DecidableEq, Repr

def Temporary.name : Temporary → String
  | .callInput idx => "__in" ++ toString idx
  | .callOutput idx => "__out" ++ toString idx
  | .iterAcc seq => "__it" ++ toString seq ++ "acc"
  | .iterIndex seq => "__it" ++ toString seq ++ "i"
  | .iterInput seq => "__it" ++ toString seq ++ "in"
  | .iterOutput seq => "__it" ++ toString seq ++ "out"

mutual

/-- The numbers of the calls that are written out before the C text of an expression; `base` calls
are numbered before it. -/
def lowerAnf (base : Nat) : Expr → List Nat
  | .const _ | .var _ | .pre _ | .tuple _ | .array _ | .iterate _ _ _ _ => []
  | .cast _ arg | .unary _ arg | .field arg _ | .when arg _ _ => lowerAnf base arg
  | .binary _ lhs rhs | .arrow lhs rhs | .index lhs rhs | .merge _ lhs rhs =>
    lowerAnf base lhs ++ lowerAnf (base + (calls lhs).length) rhs
  | .ifThenElse c t e =>
    lowerAnf base c ++ (lowerAnf (base + (calls c).length) t ++
      lowerAnf (base + (calls c).length + (calls t).length) e)
  | .call _ args => lowerArgs (base + 1) args ++ [base]
  | .struct _ fields => lowerFields base fields

def lowerArgs (base : Nat) : List Expr → List Nat
  | [] => []
  | e :: es => lowerAnf base e ++ lowerArgs (base + (calls e).length) es

def lowerFields (base : Nat) : List (String × Expr) → List Nat
  | [] => []
  | (_, e) :: fields => lowerAnf base e ++ lowerFields (base + (calls e).length) fields

end

def callBlock (idx : Nat) : List Temporary := [.callInput idx, .callOutput idx]

/-- The temporaries of an equation that is not an iterator. -/
def equationCalls (base : Nat) (eq : Equation) : List Nat :=
  match eq.lhs, eq.rhs with
  | [_], .array items => lowerArgs base items
  | _ :: _ :: _, .call node args => lowerAnf base (.call node args)
  -- No other right-hand side of several variables is supported.
  | _ :: _ :: _, _ => []
  | _, rhs => lowerAnf base rhs

/-- The temporaries of an equation; it is the iterator number `seq` if it is one. -/
def emitEquationBody (p : Project) (base seq : Nat) (eq : Equation) : List Temporary :=
  match eq.rhs with
  | .iterate kind node init _ =>
    if (p.findNode node).isNone then []
    else
      match kind with
      | .fold => (init.elim [] (lowerAnf base)).flatMap callBlock ++
          [.iterAcc seq, .iterIndex seq, .iterInput seq, .iterOutput seq]
      | .map => [.iterIndex seq, .iterInput seq, .iterOutput seq]
  | _ => (equationCalls base eq).flatMap callBlock

def isIterate : Expr → Bool
  | .iterate _ _ _ _ => true
  | _ => false

/-- The number of calls in the equations before. -/
def firstCall (n : NodeDef) (i : Nat) : Nat :=
  ((n.equations.take i).flatMap fun eq => calls eq.rhs).length

/-- The temporaries of equations, from the iterator number `seq` on. -/
def temporaries (p : Project) (n : NodeDef) : Nat → List Nat → List Temporary
  | _, [] => []
  | seq, i :: order =>
    match n.equations[i]? with
    | none => temporaries p n seq order
    | some eq =>
      emitEquationBody p (firstCall n i) seq eq ++
        temporaries p n (if isIterate eq.rhs then seq + 1 else seq) order

/-- The order equations are written in; on a cycle, the order they are declared in. -/
def stepOrder (n : NodeDef) : List Nat :=
  (evaluationOrder n).toOption.getD (List.range n.equations.length)

def stepTemporaries (p : Project) (n : NodeDef) : List Temporary := temporaries p n 0 (stepOrder n)

def parameters (n : NodeDef) : List String := (if n.isFunction then [] else ["self"]) ++ ["in", "out"]

def localNames (n : NodeDef) : List String := n.locals.map (·.name)

/-- The parameters, variables and temporaries of a step function. -/
def stepNames (p : Project) (n : NodeDef) : List String :=
  parameters n ++ (localNames n).map cIdent ++ (stepTemporaries p n).map (·.name)

end Step

end OpenLustre.CliteEmit
