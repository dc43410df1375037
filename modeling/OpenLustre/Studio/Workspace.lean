import OpenLustre.Ir.Project
import OpenLustre.Lib.Interaction

/-! The workspace of the Studio: its files, its journal, and the accesses to them. -/

namespace OpenLustre.Studio

/-- The editable files of a workspace. -/
inductive Place
  | model
  | types
  deriving DecidableEq, Repr

/-- The full text of every editable file (model + types). -/
abbrev Snapshot := List (Place × String)

structure History where
  undo : List Snapshot := []
  redo : List Snapshot := []
  deriving DecidableEq, Repr

def historyCap : Nat := 100

namespace History

/-- Make `before` an undoable state; a new edit invalidates the redo branch. -/
def record (h : History) (before : Snapshot) : History where
  undo :=
    let undo := h.undo ++ [before]
    if undo.length > historyCap then undo.tail else undo
  redo := []

/-- The stack a request takes its snapshot from, and the one it leaves its own on. -/
def pop (h : History) : Bool → Option (Snapshot × History)
  | true => h.undo.getLast?.map fun s => (s, { h with undo := h.undo.dropLast })
  | false => h.redo.getLast?.map fun s => (s, { h with redo := h.redo.dropLast })

def push (h : History) (s : Snapshot) : Bool → History
  | true => { h with redo := h.redo ++ [s] }
  | false => { h with undo := h.undo ++ [s] }

end History

/-- What the operating system makes of an access.  A write that is refused leaves the
file; one that is cut short has already truncated it. -/
inductive Fault
  | none
  | refused (e : String)
  | cut (kept : Nat) (e : String)
  deriving DecidableEq, Repr

/-- The editable files, the Lustre files of the operators next to them, and the journal. -/
@[ext]
structure World where
  files : Place → Option String
  lustre : String → Option String
  history : History
  faults : Nat → Fault

inductive Access
  | read (p : Place)
  | write (p : Place) (text : String)
  | writeLus (name : String) (text : String)
  | pop (undo : Bool)
  | push (undo : Bool) (s : Snapshot)
  | record (before : Snapshot)
  | depths

namespace Access

abbrev Result : Access → Type
  | read _ => Except String String
  | write _ _ => Except String Unit
  | writeLus _ _ => Except String Unit
  | pop _ => Option Snapshot
  | push _ _ => Unit
  | record _ => Unit
  | depths => Nat × Nat

/-- The accesses that change an editable file or the journal. -/
def Changes : Access → Prop
  | read _ => False
  | writeLus _ _ => False
  | depths => False
  | _ => True

end Access

namespace World

def write (w : World) (p : Place) (text : String) : World :=
  { w with files := Function.update w.files p (some text) }

def writeLus (w : World) (name text : String) : World :=
  { w with lustre := Function.update w.lustre name (some text) }

def nextFault (w : World) : World := { w with faults := fun n => w.faults (n + 1) }

/-- A write, with the fault that is due. -/
def writing (w : World) (write : World → String → World) (text : String) :
    Except String Unit × World :=
  match w.faults 0 with
  | .none => (.ok (), write w.nextFault text)
  | .refused e => (.error e, w.nextFault)
  | .cut kept e => (.error e, write w.nextFault (String.ofList (text.toList.take kept)))

/-- One access, with the fault that is due if it is to a file. -/
def serve : (a : Access) → World → a.Result × World
  | .read p, w =>
    (match w.faults 0, w.files p with
      | .none, some text => .ok text
      | .none, none => .error "No such file or directory (os error 2)"
      | .refused e, _ => .error e
      | .cut _ e, _ => .error e, w.nextFault)
  | .write p text, w => w.writing (·.write p) text
  | .writeLus name text, w => w.writing (·.writeLus name) text
  | .pop undo, w =>
    match w.history.pop undo with
    | some (s, h) => (some s, { w with history := h })
    | none => (none, w)
  | .push undo s, w => ((), { w with history := w.history.push s undo })
  | .record before, w => ((), { w with history := w.history.record before })
  | .depths, w => ((w.history.undo.length, w.history.redo.length), w)

end World

/-- The JSON of requests and responses. -/
inductive Json
  | null
  | bool (b : Bool)
  | num (literal : String)
  | str (s : String)
  | arr (items : List Json)
  | obj (fields : List (String × Json))
  deriving Repr

namespace Json

def get? : Json → String → Option Json
  | obj fields, key => fields.lookup key
  | _, _ => none

def asStr? : Json → Option String
  | str s => some s
  | _ => none

def asArray? : Json → Option (List Json)
  | arr items => some items
  | _ => none

/-- The string in a field. -/
def string? (j : Json) (key : String) : Option String := (j.get? key).bind asStr?

end Json

/-- A refusal: the status it is answered with, and its message. -/
structure Refusal where
  status : Nat
  message : String
  deriving DecidableEq, Repr

/-- A program over the accesses; `Handler` is the handling of a request, and what it
returns is answered with status 200.  An `Attempt` fails with a message alone. -/
abbrev Program (ε α : Type) := Interaction Access Access.Result ε α
abbrev Handler (α : Type) := Program Refusal α
abbrev Attempt (α : Type) := Program String α

section Accesses

variable {ε α : Type}

def readToString (p : Place) : Program ε (Except String String) := Interaction.perform (Access.read p)
def writeText (p : Place) (text : String) : Program ε (Except String Unit) :=
  Interaction.perform (Access.write p text)
def writeLus (name text : String) : Program ε (Except String Unit) :=
  Interaction.perform (Access.writeLus name text)
def popSnapshot (undo : Bool) : Program ε (Option Snapshot) := Interaction.perform (Access.pop undo)
def pushSnapshot (undo : Bool) (s : Snapshot) : Program ε Unit := Interaction.perform (Access.push undo s)
def recordSnapshot (before : Snapshot) : Program ε Unit := Interaction.perform (Access.record before)
def historyDepths : Program ε (Nat × Nat) := Interaction.perform Access.depths

end Accesses

def bad {α : Type} (message : String) : Handler α := .fail ⟨400, message⟩

def refuseIf (c : Bool) (message : String) : Handler Unit :=
  if c then bad message else pure ()

def orBad {α : Type} (r : Except String α) : Handler α := .lift (r.mapError (⟨400, ·⟩))

/-- An attempt whose failure is the server's. -/
def internal {α : Type} (x : Attempt α) : Handler α := x.mapError (⟨500, ·⟩)

end OpenLustre.Studio
