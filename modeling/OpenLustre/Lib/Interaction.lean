import OpenLustre.Lib.Stateful

/-! Programs as the operations they perform, answered by a handler over a state. -/

/-- A program over the operations `Op`: it ends, it gives up, or it performs an operation
and goes on with the result. -/
inductive Interaction (Op : Type) (Res : Op → Type) (ε α : Type)
  | done (a : α)
  | fail (e : ε)
  | act (op : Op) (next : Res op → Interaction Op Res ε α)

namespace Interaction

variable {Op : Type} {Res : Op → Type} {ε ε' α β σ τ : Type}

protected def bind :
    Interaction Op Res ε α → (α → Interaction Op Res ε β) → Interaction Op Res ε β
  | .done a, f => f a
  | .fail e, _ => .fail e
  | .act op next, f => .act op fun r => (next r).bind f

instance : Monad (Interaction Op Res ε) where
  pure := .done
  bind := Interaction.bind

def perform (op : Op) : Interaction Op Res ε (Res op) := .act op .done

def lift : Except ε α → Interaction Op Res ε α
  | .ok a => .done a
  | .error e => .fail e

def mapError (f : ε → ε') : Interaction Op Res ε α → Interaction Op Res ε' α
  | .done a => .done a
  | .fail e => .fail (f e)
  | .act op next => .act op fun r => (next r).mapError f

/-- The program, its failure returned instead. -/
def attempt : Interaction Op Res ε α → Interaction Op Res ε' (Except ε α)
  | .done a => .done (.ok a)
  | .fail e => .done (.error e)
  | .act op next => .act op fun r => (next r).attempt

def isDone : Interaction Op Res ε α → Bool
  | .done _ => true
  | .fail _ => false
  | .act _ _ => false

theorem exists_done {x : Interaction Op Res ε α} (h : x.isDone) : ∃ a, x = .done a := by
  cases x with
  | done a => exact ⟨a, rfl⟩
  | fail e => cases h
  | act op next => cases h

/-- The run of a program alone. -/
def run (serve : (op : Op) → σ → Res op × σ) : Interaction Op Res ε α → Stateful ε σ α
  | .done a => pure a
  | .fail e => Stateful.fail e
  | .act op next => fun s => (next (serve op s).1).run serve (serve op s).2

section Run

variable (serve : (op : Op) → σ → Res op × σ)

@[simp] theorem run_pure (a : α) :
    (pure a : Interaction Op Res ε α).run serve = pure a := rfl

@[simp] theorem run_fail (e : ε) :
    (fail e : Interaction Op Res ε α).run serve = Stateful.fail e := rfl

@[simp] theorem run_perform (op : Op) (s : σ) :
    (perform op : Interaction Op Res ε (Res op)).run serve s
      = (.ok (serve op s).1, (serve op s).2) := rfl

@[simp] theorem run_lift (r : Except ε α) :
    (lift r : Interaction Op Res ε α).run serve = Stateful.lift r := by
  cases r <;> rfl

@[simp] theorem run_bind (x : Interaction Op Res ε α) (f : α → Interaction Op Res ε β) :
    (x >>= f).run serve = x.run serve >>= fun a => (f a).run serve := by
  induction x with
  | done a => rfl
  | fail e => rfl
  | act op next ih =>
    funext s
    exact congrFun (ih (serve op s).1) (serve op s).2

theorem run_mapError (f : ε → ε') (x : Interaction Op Res ε α) (s : σ) :
    (x.mapError f).run serve s = ((x.run serve s).1.mapError f, (x.run serve s).2) := by
  induction x generalizing s with
  | done a => rfl
  | fail e => rfl
  | act op next ih => exact ih (serve op s).1 (serve op s).2

theorem run_attempt (x : Interaction Op Res ε α) (s : σ) :
    (x.attempt : Interaction Op Res ε' (Except ε α)).run serve s
      = (.ok (x.run serve s).1, (x.run serve s).2) := by
  induction x generalizing s with
  | done a => rfl
  | fail e => rfl
  | act op next ih => exact ih (serve op s).1 (serve op s).2

/-- What every operation keeps, a program keeps. -/
theorem run_invariant {Inv : σ → Prop} (hserve : ∀ op s, Inv s → Inv (serve op s).2)
    (x : Interaction Op Res ε α) {s : σ} (hs : Inv s) : Inv (x.run serve s).2 := by
  induction x generalizing s with
  | done a => exact hs
  | fail e => exact hs
  | act op next ih => exact ih _ (hserve op s hs)

/-- A program cannot tell states apart that no operation tells apart. -/
theorem run_congr {view : σ → τ}
    (hview : ∀ op s t, view s = view t →
      (serve op s).1 = (serve op t).1 ∧ view (serve op s).2 = view (serve op t).2)
    (x : Interaction Op Res ε α) {s t : σ} (h : view s = view t) :
    (x.run serve s).1 = (x.run serve t).1 ∧ view (x.run serve s).2 = view (x.run serve t).2 := by
  induction x generalizing s t with
  | done a => exact ⟨rfl, h⟩
  | fail e => exact ⟨rfl, h⟩
  | act op next ih =>
    obtain ⟨hresult, hstate⟩ := hview op s t h
    have hnext := ih (serve op s).1 hstate
    simp only [run, ← hresult]
    exact hnext

end Run

/-- No operation of the program is one of `E`. -/
def Avoids (E : Op → Prop) : Interaction Op Res ε α → Prop
  | .done _ => True
  | .fail _ => True
  | .act op next => ¬ E op ∧ ∀ r, (next r).Avoids E

namespace Avoids

variable {E : Op → Prop}

@[simp] protected theorem pure (a : α) : (pure a : Interaction Op Res ε α).Avoids E := trivial

@[simp] protected theorem fail (e : ε) : (fail e : Interaction Op Res ε α).Avoids E := trivial

@[simp] theorem perform_iff {op : Op} :
    (perform op : Interaction Op Res ε (Res op)).Avoids E ↔ ¬ E op :=
  ⟨fun h => h.1, fun h => ⟨h, fun _ => trivial⟩⟩

@[simp] protected theorem lift (r : Except ε α) :
    (lift r : Interaction Op Res ε α).Avoids E := by
  cases r <;> trivial

protected theorem bind {x : Interaction Op Res ε α} {f : α → Interaction Op Res ε β}
    (hx : x.Avoids E) (hf : ∀ a, (f a).Avoids E) : (x >>= f).Avoids E := by
  induction x with
  | done a => exact hf a
  | fail e => trivial
  | act op next ih => exact ⟨hx.1, fun r => ih r (hx.2 r)⟩

protected theorem mapError {f : ε → ε'} {x : Interaction Op Res ε α} (hx : x.Avoids E) :
    (x.mapError f).Avoids E := by
  induction x with
  | done a => trivial
  | fail e => trivial
  | act op next ih => exact ⟨hx.1, fun r => ih r (hx.2 r)⟩

protected theorem attempt {x : Interaction Op Res ε α} (hx : x.Avoids E) :
    (x.attempt : Interaction Op Res ε' (Except ε α)).Avoids E := by
  induction x with
  | done a => trivial
  | fail e => trivial
  | act op next ih => exact ⟨hx.1, fun r => ih r (hx.2 r)⟩

/-- What every other operation keeps, the program keeps. -/
theorem run_keeps {serve : (op : Op) → σ → Res op × σ} (Inv : σ → Prop)
    (hserve : ∀ op s, ¬ E op → Inv s → Inv (serve op s).2) {x : Interaction Op Res ε α}
    (hx : x.Avoids E) {s : σ} (hs : Inv s) : Inv (x.run serve s).2 := by
  induction x generalizing s with
  | done a => exact hs
  | fail e => exact hs
  | act op next ih => exact ih _ (hx.2 _) (hserve op s hx.1 hs)

/-- A program that performs none of the operations that change what `view` shows of the
state does not change it. -/
theorem run_view {serve : (op : Op) → σ → Res op × σ} (view : σ → τ)
    (hserve : ∀ op s, ¬ E op → view (serve op s).2 = view s) {x : Interaction Op Res ε α}
    (hx : x.Avoids E) (s : σ) : view (x.run serve s).2 = view s :=
  hx.run_keeps (fun s' => view s' = view s)
    (fun op s' hop h => (hserve op s' hop).trans h) rfl

theorem mono {E' : Op → Prop} {x : Interaction Op Res ε α} (hx : x.Avoids E')
    (h : ∀ op, E op → E' op) : x.Avoids E := by
  induction x with
  | done a => trivial
  | fail e => trivial
  | act op next ih => exact ⟨fun hop => hx.1 (h op hop), fun r => ih r (hx.2 r)⟩

end Avoids

theorem bind_assoc {γ : Type} (x : Interaction Op Res ε α) (f : α → Interaction Op Res ε β)
    (g : β → Interaction Op Res ε γ) : (x >>= f) >>= g = x >>= fun a => f a >>= g := by
  induction x with
  | done a => rfl
  | fail e => rfl
  | act op next ih => exact congrArg (act op) (funext fun r => ih r)

theorem mapError_bind (h : ε → ε') (x : Interaction Op Res ε α)
    (f : α → Interaction Op Res ε β) :
    (x >>= f).mapError h = x.mapError h >>= fun a => (f a).mapError h := by
  induction x with
  | done a => rfl
  | fail e => rfl
  | act op next ih => exact congrArg (act op) (funext fun r => ih r)

section First

variable (serve : (op : Op) → σ → Res op × σ) (E : Op → Prop) [DecidablePred E]

/-- The first operation of `E` in the run of a program, and the state it meets. -/
def first : Interaction Op Res ε α → σ → Option (Op × σ)
  | .done _, _ => none
  | .fail _, _ => none
  | .act op next, s =>
    if E op then some (op, s) else (next (serve op s).1).first (serve op s).2

variable {serve E}

theorem first_of_avoids {x : Interaction Op Res ε α} (hx : x.Avoids E) (s : σ) :
    x.first serve E s = none := by
  induction x generalizing s with
  | done a => rfl
  | fail e => rfl
  | act op next ih => exact (if_neg hx.1).trans (ih _ (hx.2 _) _)

theorem first_bind_of_avoids {x : Interaction Op Res ε α} {f : α → Interaction Op Res ε β}
    (hx : x.Avoids E) {s s' : σ} {a : α} (hrun : x.run serve s = (.ok a, s')) :
    (x >>= f).first serve E s = (f a).first serve E s' := by
  induction x generalizing s with
  | done b =>
    cases hrun
    rfl
  | fail e => cases hrun
  | act op next ih => exact (if_neg hx.1).trans (ih _ (hx.2 _) hrun)

theorem first_bind_of_error {x : Interaction Op Res ε α} {f : α → Interaction Op Res ε β}
    (hx : x.Avoids E) {s s' : σ} {e : ε} (hrun : x.run serve s = (.error e, s')) :
    (x >>= f).first serve E s = none := by
  induction x generalizing s with
  | done a => cases hrun
  | fail e => rfl
  | act op next ih => exact (if_neg hx.1).trans (ih _ (hx.2 _) hrun)

theorem first_bind_avoids {x : Interaction Op Res ε α} {f : α → Interaction Op Res ε β}
    (hf : ∀ a, (f a).Avoids E) (s : σ) : (x >>= f).first serve E s = x.first serve E s := by
  induction x generalizing s with
  | done a => exact first_of_avoids (hf a) s
  | fail e => rfl
  | act op next ih => exact if_congr Iff.rfl rfl (ih _ _)

/-- A run without such an operation leaves what they alone change. -/
theorem run_view_of_first_none (view : σ → τ)
    (hserve : ∀ op s, ¬ E op → view (serve op s).2 = view s) {x : Interaction Op Res ε α} {s : σ}
    (h : x.first serve E s = none) : view (x.run serve s).2 = view s := by
  induction x generalizing s with
  | done a => rfl
  | fail e => rfl
  | act op next ih =>
    by_cases hop : E op
    · rw [first, if_pos hop] at h
      cases h
    · rw [first, if_neg hop] at h
      exact (ih _ h).trans (hserve op s hop)

end First

section Closing

variable (C : Op → Prop)

/-- The program cut behind the first operation of `C`. -/
def upTo [DecidablePred C] : Interaction Op Res ε α → Interaction Op Res ε Unit
  | .done _ => .done ()
  | .fail e => .fail e
  | .act op next => .act op fun r => if C op then .done () else (next r).upTo

/-- The program ends well only behind an operation of `C`, and performs none of `E` there. -/
def Closes (E : Op → Prop) : Interaction Op Res ε α → Prop
  | .done _ => False
  | .fail _ => True
  | .act op next => (C op ∧ ∀ r, (next r).Avoids E) ∨ (¬ C op ∧ ∀ r, (next r).Closes E)

variable {C} {E : Op → Prop}

theorem Closes.after {x : Interaction Op Res ε α} {f : α → Interaction Op Res ε β}
    (hx : x.Avoids C) (hf : ∀ a, (f a).Closes C E) : (x >>= f).Closes C E := by
  induction x with
  | done a => exact hf a
  | fail e => trivial
  | act op next ih => exact .inr ⟨hx.1, fun r => ih r (hx.2 r)⟩

theorem Closes.andThen {x : Interaction Op Res ε α} {f : α → Interaction Op Res ε β}
    (hx : x.Closes C E) (hf : ∀ a, (f a).Avoids E) : (x >>= f).Closes C E := by
  induction x with
  | done a => exact hx.elim
  | fail e => trivial
  | act op next ih =>
    rcases hx with ⟨hop, hnext⟩ | ⟨hop, hnext⟩
    · exact .inl ⟨hop, fun r => (hnext r).bind hf⟩
    · exact .inr ⟨hop, fun r => ih r (hnext r)⟩

variable [DecidablePred C]

theorem upTo_after {x : Interaction Op Res ε α} {f : α → Interaction Op Res ε β}
    (hx : x.Avoids C) : (x >>= f).upTo C = x >>= fun a => (f a).upTo C := by
  induction x with
  | done a => rfl
  | fail e => rfl
  | act op next ih =>
    refine congrArg (act op) (funext fun r => ?_)
    exact (if_neg hx.1).trans (ih r (hx.2 r))

theorem Closes.upTo_andThen {x : Interaction Op Res ε α} {f : α → Interaction Op Res ε β}
    (hx : x.Closes C E) : (x >>= f).upTo C = x.upTo C := by
  induction x with
  | done a => exact hx.elim
  | fail e => rfl
  | act op next ih =>
    refine congrArg (act op) (funext fun r => ?_)
    rcases hx with ⟨hop, -⟩ | ⟨hop, hnext⟩
    · exact (if_pos hop).trans (if_pos hop).symm
    · exact (if_neg hop).trans ((ih r (hnext r)).trans (if_neg hop).symm)

/-- A program that ends well has passed the operation it closes with, and has left what
`view` shows as it was there. -/
theorem Closes.run_upTo {serve : (op : Op) → σ → Res op × σ} {view : σ → τ}
    (hserve : ∀ op s, ¬ E op → view (serve op s).2 = view s) {x : Interaction Op Res ε α}
    (hx : x.Closes C E) {s s' : σ} {a : α} (hrun : x.run serve s = (.ok a, s')) :
    ∃ s₁, (x.upTo C).run serve s = (.ok (), s₁) ∧ view s' = view s₁ := by
  induction x generalizing s with
  | done a => exact hx.elim
  | fail e => cases hrun
  | act op next ih =>
    rcases hx with ⟨hop, hnext⟩ | ⟨hop, hnext⟩
    · refine ⟨(serve op s).2, ?_, ?_⟩
      · simp [upTo, run, hop]
      · have hview := (hnext (serve op s).1).run_view view hserve (serve op s).2
        exact (congrArg (fun p => view p.2) hrun).symm.trans hview
    · obtain ⟨s₁, hrun₁, hview⟩ := ih _ (hnext _) hrun
      exact ⟨s₁, by simpa [upTo, run, hop] using hrun₁, hview⟩

/-- What a program leaves is what it left where it closed. -/
theorem Closes.view_run {serve : (op : Op) → σ → Res op × σ} {view : σ → τ}
    (hserve : ∀ op s, ¬ E op → view (serve op s).2 = view s) {x : Interaction Op Res ε α}
    (hx : x.Closes C E) {s s₁ : σ} (hrun : (x.upTo C).run serve s = (.ok (), s₁)) :
    view (x.run serve s).2 = view s₁ := by
  induction x generalizing s with
  | done a => exact hx.elim
  | fail e => cases hrun
  | act op next ih =>
    rcases hx with ⟨hop, hnext⟩ | ⟨hop, hnext⟩
    · simp only [upTo, run, hop, if_true, Prod.mk.injEq] at hrun
      cases hrun
      exact (hnext _).run_view view hserve _
    · simp only [upTo, run, hop, if_false] at hrun
      exact ih _ (hnext _) hrun

end Closing

end Interaction
