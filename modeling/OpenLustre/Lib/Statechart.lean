import Mathlib.Logic.Basic

/-! Regions of a statechart, a step each cycle: while a region is active its transitions move it,
and when it becomes active again it starts over, or goes on where it was. -/

namespace Statechart

/-- A region: its states, the one it starts in, the guarded transitions of each state in order, and
whether it keeps its state while it is not active. -/
structure Region (S G : Type) where
  states : List S
  initial : S
  transitions : S → List (G × S)
  history : Bool

variable {S G : Type}

/-- The first transition whose guard holds leads to its target; without one there is no move. -/
inductive Moves (holds : G → Bool → Prop) (s : S) : List (G × S) → S → Prop
  | stay : Moves holds s [] s
  | take {g : G} {target : S} {ts : List (G × S)} :
    holds g true → Moves holds s ((g, target) :: ts) target
  | skip {g : G} {target s' : S} {ts : List (G × S)} :
    holds g false → Moves holds s ts s' → Moves holds s ((g, target) :: ts) s'

/-- A step from one cycle to the next: `was` and `is` say whether the region is active in them, and
`holds` which guards hold in the first. -/
inductive Region.Step (r : Region S G) (holds : G → Bool → Prop) (was is : Prop) : S → S → Prop
  | enter {s : S} : is → ¬ was → r.history = false → Step r holds was is s r.initial
  | move {s s' : S} : was → Moves holds s (r.transitions s) s' → Step r holds was is s s'
  | rest {s : S} : ¬ was → (is → r.history = true) → Step r holds was is s s

/-- The states of a region over a number of cycles. -/
structure Region.Run (r : Region S G) (holds : Nat → G → Bool → Prop) (active : Nat → Prop)
    (len : Nat) (current : Nat → S) : Prop where
  start : 0 < len → current 0 = r.initial
  step : ∀ t, t + 1 < len →
    r.Step (holds t) (active t) (active (t + 1)) (current t) (current (t + 1))

/-- The initial state and the targets of all transitions are states of the region. -/
structure Region.Closed (r : Region S G) : Prop where
  initial : r.initial ∈ r.states
  target : ∀ s ∈ r.states, ∀ x ∈ r.transitions s, x.2 ∈ r.states

variable {r : Region S G} {holds : G → Bool → Prop} {was is : Prop} {s s' : S}

theorem Moves.mem {states : List S} {ts : List (G × S)} (h : Moves holds s ts s')
    (hs : s ∈ states) (hts : ∀ x ∈ ts, x.2 ∈ states) : s' ∈ states := by
  induction h with
  | stay => exact hs
  | take => exact hts _ List.mem_cons_self
  | skip _ _ ih => exact ih fun x hx => hts x (List.mem_cons_of_mem _ hx)

theorem Region.Step.mem (h : r.Step holds was is s s') (hr : r.Closed) (hs : s ∈ r.states) :
    s' ∈ r.states := by
  cases h with
  | enter => exact hr.initial
  | move _ hmoves => exact hmoves.mem hs (hr.target s hs)
  | rest => exact hs

end Statechart
