import OpenLustre.Ir.Project

/-! A contract as an observer: an operator that computes one boolean per clause,
with the ghost variables as its locals, and how its signals are reported. -/

namespace OpenLustre.ContractIr

open OpenLustre.Ir

/-- One boolean output of an observer node. -/
inductive ObserverSignal
  | assumption (index : Nat) (label : String)
  | guarantee (index : Nat) (label : String)
  | require (mode index : Nat)
  | ensure (mode index : Nat)
  deriving DecidableEq, Repr

/-- A contract compiled to a node; `signals` says what each of its outputs stands
for, and its first `ghostCount` equations define ghost variables. -/
structure Observer where
  node : NodeDef
  signals : List ObserverSignal
  ghostCount : Nat
  deriving Repr

namespace ContractDef

variable (c : ContractDef)

def clauseLabel (kind : String) (i : Nat) (clause : Clause) : String :=
  clause.name.getD (kind ++ "#" ++ toString i)

/-- Each signal with the name of its port and the expression that computes it. -/
def signalClauses : List (ObserverSignal × String × Expr) :=
  (c.assumptions.zipIdx.map fun (a, i) =>
    (.assumption i (clauseLabel "assumption" i a), "ol_a" ++ toString i, a.expr)) ++
  (c.guarantees.zipIdx.map fun (g, i) =>
    (.guarantee i (clauseLabel "guarantee" i g), "ol_g" ++ toString i, g.expr)) ++
  c.modes.zipIdx.flatMap fun (mode, m) =>
    (mode.requires.zipIdx.map fun (r, k) =>
      (.require m k, "ol_m" ++ toString m ++ "_r" ++ toString k, r)) ++
    mode.ensures.zipIdx.map fun (e, k) =>
      (.ensure m k, "ol_m" ++ toString m ++ "_e" ++ toString k, e)

def observer : Observer where
  node := {
    name := c.name ++ "_observer"
    kind := .operator
    inputs := c.inputs ++ c.outputs
    outputs := (signalClauses c).map fun (_, port, _) => ⟨port, .bool⟩
    locals := c.ghostVars.map fun g => ⟨g.name, g.ty⟩
    equations := (c.ghostVars.map fun g => ⟨[g.name], g.definition⟩) ++
      (signalClauses c).map fun (_, port, expr) => ⟨[port], expr⟩ }
  signals := (signalClauses c).map (·.1)
  ghostCount := c.ghostVars.length

end ContractDef

/-- The signals of one cycle with their values. -/
abbrev Signals := List (ObserverSignal × Bool)

namespace Signals

variable (cells : Signals)

/-- The labels of the assumptions and guarantees that do not hold. -/
def violatedClauses : List String :=
  cells.filterMap fun (sig, ok) =>
    match sig with
    | .assumption _ label | .guarantee _ label => if ok then none else some label
    | .require _ _ | .ensure _ _ => none

/-- A mode is active when all its requires hold. -/
def modeActive (m : Nat) : Bool :=
  cells.all fun (sig, ok) =>
    match sig with
    | .require mode _ => !decide (mode = m) || ok
    | _ => true

def violatedEnsures (mode : Mode) (m : Nat) : List String :=
  cells.filterMap fun (sig, ok) =>
    match sig with
    | .ensure em index =>
      if em = m ∧ ok = false then some (mode.name ++ "::ensure#" ++ toString index) else none
    | _ => none

end Signals

/-- The active modes, and the violated clauses: assumptions, guarantees, then the
ensures of active modes. -/
def Observer.verdict (obs : Observer) (c : ContractDef) (values : List Bool) :
    List String × List String :=
  let cells : Signals := obs.signals.zip values
  let active := c.modes.zipIdx.filter fun (_, m) => cells.modeActive m
  (active.map (·.1.name),
    cells.violatedClauses ++ active.flatMap fun (mode, m) => cells.violatedEnsures mode m)

end OpenLustre.ContractIr
