import OpenLustre.Lib.Transition
import OpenLustre.Lib.Utf8
import OpenLustre.Sim.Observe

/-! The C monitor of a contract, and the driver that prints what it reports. -/

namespace OpenLustre.CliteEmit

open OpenLustre.Ir OpenLustre.ContractIr OpenLustre.Simulator

/-- A C string, without the null that ends it. -/
abbrev CString := List UInt8

/-- Write a string at the end of the one in a buffer. -/
def snprintfEnd (size : Nat) (buf s : CString) : CString := buf ++ s.take (size - buf.length - 1)

/-- The label-appending helper shared by every monitor. -/
def olAppend (size : Nat) (buf sep s : CString) : CString :=
  if size = 0 then buf
  else if size ≤ buf.length + 1 then buf
  else
    let buf := if 0 < buf.length then snprintfEnd size buf sep else buf
    if size ≤ buf.length + 1 then buf else snprintfEnd size buf s

/-- Append the label if the observer's output is false. -/
structure ClauseCheck where
  field : Nat
  label : String
  deriving DecidableEq, Repr

/-- Append the name if the required outputs are true, and then check the ensures. -/
structure ModeCheck where
  index : Nat
  requires : List Nat
  name : String
  ensures : List ClauseCheck
  deriving DecidableEq, Repr

/-- The body of a monitor's check, after the observer's step. -/
structure MonitorCode where
  clauses : List ClauseCheck
  modes : List ModeCheck
  deriving DecidableEq, Repr

def emitMode (obs : Observer) (mode : Mode) (m : Nat) : ModeCheck where
  index := m
  requires := obs.signals.zipIdx.filterMap fun (sig, i) =>
    match sig with
    | .require em _ => if em = m then some i else none
    | _ => none
  name := mode.name
  ensures := obs.signals.zipIdx.filterMap fun (sig, i) =>
    match sig with
    | .ensure em index =>
      if em = m then some ⟨i, mode.name ++ "::ensure#" ++ toString index⟩ else none
    | _ => none

/-- The text of a monitor, with the labels as they stand between quotes. -/
def monitorText (c : ContractDef) (obs : Observer) : MonitorCode where
  clauses := obs.signals.zipIdx.filterMap fun (sig, i) =>
    match sig with
    | .assumption _ label | .guarantee _ label => some ⟨i, label⟩
    | .require _ _ | .ensure _ _ => none
  modes := c.modes.zipIdx.map fun (mode, m) => emitMode obs mode m

/-- The labels that stand between quotes in the monitor's text. -/
def MonitorCode.labels (code : MonitorCode) : List String :=
  code.clauses.map (·.label) ++ code.modes.flatMap fun mode => mode.name :: mode.ensures.map (·.label)

def hasTrigraph : List Char → Bool
  | '?' :: '?' :: _ => true
  | _ :: rest => hasTrigraph rest
  | [] => false

/-- Between quotes in a C text, the label stands for itself. -/
def isPlain (label : String) : Bool :=
  (label.toList.all fun c => !(['"', '\\', '\n', '\r', '\x00'].contains c)) &&
    !hasTrigraph label.toList

/-- The monitor, where each label stands for itself in its text. -/
def emitMonitor (c : ContractDef) (obs : Observer) : Option MonitorCode :=
  let code := monitorText c obs
  if code.labels.all isPlain then some code else none

/-- A monitor's state, without the observer's own. -/
structure MonitorState where
  activeMode : Int
  anyViolation : Bool
  deriving DecidableEq, Repr

def MonitorState.reset : MonitorState := ⟨-1, false⟩

/-- A monitor's state with the buffers its check writes to. -/
structure Reported where
  state : MonitorState
  activeMode : CString
  violations : CString

/-- The sizes of the driver's buffers. -/
def modeBuf : Nat := 256
def violBuf : Nat := 1024

section

variable (oo : List Bool)

def ClauseCheck.exec (r : Reported) (check : ClauseCheck) : Reported :=
  if oo.getD check.field false then r
  else
    { r with
      state := { r.state with anyViolation := true }
      violations := olAppend violBuf r.violations (utf8 "|") (utf8 check.label) }

def ModeCheck.exec (r : Reported) (mode : ModeCheck) : Reported :=
  if mode.requires.all fun i => oo.getD i false then
    mode.ensures.foldl (ClauseCheck.exec oo)
      { r with
        state := { r.state with activeMode := mode.index }
        activeMode := olAppend modeBuf r.activeMode (utf8 "|") (utf8 mode.name) }
  else r

/-- What a buffer holds in the end. -/
def finishBuf (size : Nat) (buf : CString) : CString :=
  if buf = [] then snprintfEnd size buf (utf8 "<none>") else buf

/-- The check of a monitor on the observer's outputs. -/
def MonitorCode.check (code : MonitorCode) (state : MonitorState) : Reported :=
  let r := code.modes.foldl (ModeCheck.exec oo)
    (code.clauses.foldl (ClauseCheck.exec oo) ⟨state, [], []⟩)
  { r with
    activeMode := finishBuf modeBuf r.activeMode
    violations := finishBuf violBuf r.violations }

end

/-- The inputs and outputs of one cycle. -/
abbrev IoRow := Env × Env

/-- The compiled observer: its outputs after the rows it has been stepped on, one for each
signal. -/
structure CompiledObserver (obs : Observer) where
  outputs : List IoRow → List Bool
  length : ∀ rows, (outputs rows).length = obs.signals.length

/-- The cells a driver prints in each cycle, after the rows that it has read. -/
def driverCells (code : MonitorCode) (outputs : List IoRow → List Bool) :
    List IoRow → MonitorState → List IoRow → List (CString × CString)
  | _, _, [] => []
  | done, state, row :: rows =>
    let r := code.check (outputs (done ++ [row])) state
    (r.activeMode, r.violations) :: driverCells code outputs (done ++ [row]) r.state rows

end OpenLustre.CliteEmit
