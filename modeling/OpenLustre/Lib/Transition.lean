import Mathlib.Data.List.Basic

/-! Runs of a system that takes one input at a time, and what holds along them. -/

namespace Transition

variable {ι σ ο : Type}

/-- The outcome of each step of a run, with the state it leaves. -/
def trace (step : ι → σ → ο × σ) : List ι → σ → List (ο × σ)
  | [], _ => []
  | i :: is, s => step i s :: trace step is (step i s).2

/-- The states a run passes through, the initial one first. -/
def states (step : ι → σ → ο × σ) (is : List ι) (s : σ) : List σ :=
  s :: (trace step is s).map (·.2)

theorem length_trace (step : ι → σ → ο × σ) (is : List ι) (s : σ) :
    (trace step is s).length = is.length := by
  induction is generalizing s with
  | nil => rfl
  | cons i is ih => exact congrArg (· + 1) (ih (step i s).2)

/-- Steps that differ in what they put out have the same runs but for that. -/
theorem trace_map {ο' : Type} {step : ι → σ → ο × σ} {step' : ι → σ → ο' × σ} {f : ο → ο'}
    (hstep : ∀ i s, step' i s = (f (step i s).1, (step i s).2)) (is : List ι) (s : σ) :
    trace step' is s = (trace step is s).map fun (o, s') => (f o, s') := by
  induction is generalizing s with
  | nil => rfl
  | cons i is ih => rw [trace, trace, List.map_cons, hstep, ih]

variable {step : ι → σ → ο × σ} {Inv : σ → Prop} {Safe : ι → σ → Prop} {Q : ι → σ → ο → σ → Prop}

/-- An invariant that safe steps keep holds along every run of safe steps, and so does
what they establish. -/
theorem trace_invariant
    (hstep : ∀ i s, Inv s → Safe i s → Inv (step i s).2 ∧ Q i s (step i s).1 (step i s).2)
    {is : List ι} {s : σ} (hs : Inv s)
    (hsafe : ∀ (k : Nat) i s', is[k]? = some i → (states step is s)[k]? = some s' → Safe i s')
    {k : Nat} {i : ι} {before after : σ} {o : ο} (hi : is[k]? = some i)
    (hbefore : (states step is s)[k]? = some before)
    (hafter : (trace step is s)[k]? = some (o, after)) : Inv after ∧ Q i before o after := by
  induction is generalizing s k with
  | nil => cases hafter
  | cons j is ih =>
    have hfirst := hstep j s hs (hsafe 0 j s rfl rfl)
    cases k with
    | zero =>
      cases hbefore
      cases hi
      have heq : step i before = (o, after) := Option.some.inj hafter
      rwa [heq] at hfirst
    | succ k =>
      exact ih hfirst.1 (fun l i' s' hi' hs' => hsafe (l + 1) i' s' hi' hs') hi hbefore hafter

end Transition
