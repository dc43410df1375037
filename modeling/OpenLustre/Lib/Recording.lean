import OpenLustre.Lib.Stateful
import OpenLustre.Lib.Transition

/-! Computations that keep a record beside their state, and when forgetting the
record leaves a plain computation. -/

namespace Stateful

variable {ε σ ρ τ α β γ δ : Type}

/-- Run a computation that keeps no record. -/
def unrecorded (x : Stateful ε σ α) : Stateful ε (σ × ρ) α := fun s =>
  ((x s.1).1, (x s.1).2, s.2)

def record : Stateful ε (σ × ρ) ρ := fun s => (.ok s.2, s)

def modifyRecord (f : ρ → ρ) : Stateful ε (σ × ρ) Unit := fun s => (.ok (), s.1, f s.2)

/-- Run a computation on a state of its own, in the same record. -/
def withinRecord (t : τ) (x : Stateful ε (τ × ρ) α) : Stateful ε (σ × ρ) (α × τ) := fun s =>
  match x (t, s.2) with
  | (.ok a, t', r) => (.ok (a, t'), s.1, r)
  | (.error e, _, r) => (.error e, s.1, r)

/-- What a sequence meets: what its first part meets, or what the rest does once
that has returned. -/
def orAfter (P : σ → Prop) (x : Stateful ε σ α) (P' : α → σ → Prop) : σ → Prop := fun s =>
  P s ∨ ∃ a s', x s = (.ok a, s') ∧ P' a s'

/-- Two outcomes in the same state, with related results or the same fault; the
second has a record with the property `I`. -/
def Alike (I : ρ → Prop) (Q : α → β → Prop) (x : Except ε α × σ) (y : Except ε β × σ × ρ) : Prop :=
  (∃ a b s r, x = (.ok a, s) ∧ y = (.ok b, s, r) ∧ I r ∧ Q a b) ∨
    ∃ e s r, x = (.error e, s) ∧ y = (.error e, s, r) ∧ I r

namespace Alike

variable {I : ρ → Prop} {Q : α → β → Prop}

protected theorem ok {a : α} {b : β} {s : σ} {r : ρ} (hI : I r) (h : Q a b) :
    Alike (ε := ε) I Q (.ok a, s) (.ok b, s, r) := .inl ⟨a, b, s, r, rfl, rfl, hI, h⟩

protected theorem error (e : ε) {s : σ} {r : ρ} (hI : I r) :
    Alike I Q (.error e, s) (.error e, s, r) := .inr ⟨e, s, r, rfl, rfl, hI⟩

protected theorem refl (x : Except ε α) {s : σ} {r : ρ} (hI : I r) :
    Alike I (· = ·) (x, s) (x, s, r) := by
  cases x with
  | ok a => exact .ok hI rfl
  | error e => exact .error e hI

end Alike

/-- The computation `y` is `x` with a record kept: from the states in `P` it
fails with one of the faults `F`; from any other it does what `x` does, and keeps
the property `I` of the record. -/
structure Records (I : ρ → Prop) (F : ε → Prop) (P : σ → Prop) (Q : α → β → Prop)
    (x : Stateful ε σ α) (y : Stateful ε (σ × ρ) β) : Prop where
  fails : ∀ s r, I r → P s → ∃ e s', y (s, r) = (.error e, s') ∧ F e
  alike : ∀ s r, I r → ¬ P s → Alike I Q (x s) (y (s, r))

namespace Records

variable {I : ρ → Prop} {F : ε → Prop} {P : σ → Prop} {Q : α → β → Prop}
  {x : Stateful ε σ α} {y : Stateful ε (σ × ρ) β}

theorem of_alike (h : ∀ s r, I r → Alike I Q (x s) (y (s, r))) :
    Records I F (fun _ => False) Q x y where
  fails _ _ _ h := h.elim
  alike s r hI _ := h s r hI

protected theorem pure {a : α} {b : β} (h : Q a b) :
    Records (ε := ε) I F (fun _ : σ => False) Q (pure a) (pure b) :=
  of_alike fun _ _ hI => .ok hI h

protected theorem unrecorded (x : Stateful ε σ α) :
    Records I F (fun _ => False) (· = ·) x (unrecorded x) :=
  of_alike fun s _ hI => .refl (x s).1 hI

protected theorem lift (r : Except ε α) :
    Records I F (fun _ : σ => False) (· = ·) (lift r) (lift r) :=
  of_alike fun _ _ hI => .refl r hI

protected theorem fail (e : ε) :
    Records I F (fun _ : σ => False) Q (fail e : Stateful ε σ α) (fail e) :=
  of_alike fun _ _ hI => .error e hI

/-- A fault that the plain computation does not have. -/
theorem fault {e : ε} (h : F e) (x : Stateful ε σ α) :
    Records I F (fun _ => True) Q x (Stateful.fail e : Stateful ε (σ × ρ) β) where
  fails s r _ _ := ⟨e, (s, r), rfl, h⟩
  alike _ _ _ h := (h trivial).elim

theorem modifyRecord_bind {f : ρ → ρ} {g : Unit → Stateful ε (σ × ρ) β}
    (hf : ∀ r, I r → I (f r)) (h : Records I F P Q x (g ())) :
    Records I F P Q x (modifyRecord f >>= g) where
  fails s r hI hs := h.fails s (f r) (hf r hI) hs
  alike s r hI hs := h.alike s (f r) (hf r hI) hs

theorem record_bind {g : ρ → Stateful ε (σ × ρ) β} (h : ∀ r, I r → Records I F P Q x (g r)) :
    Records I F P Q x (record >>= g) where
  fails s r hI hs := (h r hI).fails s r hI hs
  alike s r hI hs := (h r hI).alike s r hI hs

/-- A part that only changes the state, after which what is met does not depend on it. -/
theorem set_bind {p : Prop} {t : σ} {f : Unit → Stateful ε σ α}
    {g : Unit → Stateful ε (σ × ρ) β} (h : Records I F (fun _ => p) Q (f ()) (g ())) :
    Records I F (fun _ => p) Q (set t >>= f) (Stateful.unrecorded (set t) >>= g) where
  fails _ r hI hs := h.fails t r hI hs
  alike _ r hI hs := h.alike t r hI hs

theorem get_bind {P : σ → σ → Prop} {f : σ → Stateful ε σ α} {g : σ → Stateful ε (σ × ρ) β}
    (h : ∀ t, Records I F (P t) Q (f t) (g t)) :
    Records I F (fun s => P s s) Q (get >>= f) (Stateful.unrecorded get >>= g) where
  fails s r hI hs := (h s).fails s r hI hs
  alike s r hI hs := (h s).alike s r hI hs

theorem congr {P' : σ → Prop} (h : Records I F P Q x y) (hP : ∀ s, P' s ↔ P s) :
    Records I F P' Q x y := by
  obtain rfl : P' = P := funext fun s => propext (hP s)
  exact h

protected theorem bind {R : γ → δ → Prop} {P' : α → σ → Prop} {f : α → Stateful ε σ γ}
    {g : β → Stateful ε (σ × ρ) δ} (h : Records I F P Q x y)
    (hfg : ∀ a b, Q a b → Records I F (P' a) R (f a) (g b)) :
    Records I F (orAfter P x P') R (x >>= f) (y >>= g) := by
  constructor
  case fails =>
    intro s r hI hs
    by_cases hP : P s
    · obtain ⟨e, s', hy, hF⟩ := h.fails s r hI hP
      exact ⟨e, s', bind_error hy, hF⟩
    · obtain ⟨a, s', hx, hP'⟩ := hs.resolve_left hP
      rcases h.alike s r hI hP with
        ⟨a', b, s'', r', hx', hy, hI', hQ⟩ | ⟨e, s'', r', hx', -, -⟩
      · cases hx.symm.trans hx'
        rw [bind_ok hy]
        exact (hfg a b hQ).fails s' r' hI' hP'
      · cases hx.symm.trans hx'
  case alike =>
    intro s r hI hs
    rcases h.alike s r hI fun hP => hs (.inl hP) with
      ⟨a, b, s', r', hx, hy, hI', hQ⟩ | ⟨e, s', r', hx, hy, hI'⟩
    · rw [bind_ok hx, bind_ok hy]
      exact (hfg a b hQ).alike s' r' hI' fun hP' => hs (.inr ⟨a, s', hx, hP'⟩)
    · rw [bind_error hx, bind_error hy]
      exact .error e hI'

/-- A part after which nothing can be met. -/
theorem bind_of_never {R : γ → δ → Prop} {f : α → Stateful ε σ γ}
    {g : β → Stateful ε (σ × ρ) δ} (h : Records I F P Q x y)
    (hfg : ∀ a b, Q a b → Records I F (fun _ => False) R (f a) (g b)) :
    Records I F P R (x >>= f) (y >>= g) :=
  (h.bind hfg).congr fun s => by simp [orAfter]

/-- A part in which nothing can be met. -/
theorem bind_of_always {R : γ → δ → Prop} {r : Except ε α} {P' : α → σ → Prop}
    {f : α → Stateful ε σ γ} {g : α → Stateful ε (σ × ρ) δ}
    (hfg : ∀ a, r = .ok a → Records I F (P' a) R (f a) (g a)) :
    Records I F (fun s => ∃ a, r = .ok a ∧ P' a s) R (Stateful.lift r >>= f)
      (Stateful.lift r >>= g) := by
  cases r with
  | ok a =>
    apply (hfg a rfl).congr
    simp
  | error e =>
    apply (Records.fail e).congr
    simp

theorem within {t : τ} {P : τ → Prop} {x : Stateful ε τ α} {y : Stateful ε (τ × ρ) β}
    (h : Records I F P Q x y) :
    Records I F (fun _ : σ => P t) (fun a b => Q a.1 b.1 ∧ a.2 = b.2) (within t x)
      (withinRecord t y) := by
  constructor
  case fails =>
    intro s r hI hP
    obtain ⟨e, ⟨t', r'⟩, hy, hF⟩ := h.fails t r hI hP
    exact ⟨e, (s, r'), by simp only [withinRecord, hy], hF⟩
  case alike =>
    intro s r hI hP
    unfold withinRecord Stateful.within
    rcases h.alike t r hI hP with
      ⟨a, b, t', r', hx, hy, hI', hQ⟩ | ⟨e, t', r', hx, hy, hI'⟩
    · simp only [hx, hy]
      exact .ok hI' ⟨hQ, rfl⟩
    · simp only [hx, hy]
      exact .error e hI'

/-- The same, when the plain computation drops the state it ends in. -/
theorem lift_within {t : τ} {P : τ → Prop} {x : Stateful ε τ α} {y : Stateful ε (τ × ρ) β}
    (h : Records I F P Q x y) :
    Records I F (fun _ : σ => P t) (fun a b => Q a b.1) (lift (x t).1) (withinRecord t y) := by
  have hlift : (lift (x t).1 : Stateful ε σ α) = Stateful.within t x >>= fun a => pure a.1 := by
    funext s
    rcases hx : x t with ⟨_ | _, _⟩ <;> simp [Stateful.within, bind_apply, hx]
  have hdrop : (Stateful.withinRecord t y : Stateful ε (σ × ρ) (β × τ)) =
      Stateful.withinRecord t y >>= pure := (bind_pure _).symm
  rw [hlift, hdrop]
  apply h.within.bind_of_never
  rintro ⟨a, t'⟩ ⟨b, _⟩ ⟨hQ, -⟩
  exact Records.pure hQ

theorem trace {ι : Type} {P : ι → σ → Prop} {x : ι → Stateful ε σ α}
    {y : ι → Stateful ε (σ × ρ) α} (h : ∀ i, Records I F (P i) (· = ·) (x i) (y i)) {is : List ι}
    {s : σ} {r : ρ} (hI : I r)
    (hP : ∀ (k : Nat) i s', is[k]? = some i → (Transition.states x is s)[k]? = some s' →
      ¬ P i s') :
    (Transition.trace y is (s, r)).map (fun o => (o.1, o.2.1)) = Transition.trace x is s := by
  induction is generalizing s r with
  | nil => rfl
  | cons i is ih =>
    have hstep : ∃ r', I r' ∧ y i (s, r) = ((x i s).1, (x i s).2, r') := by
      rcases (h i).alike s r hI (hP 0 i s rfl rfl) with
        ⟨a, _, s', r', hx, hy, hI', rfl⟩ | ⟨e, s', r', hx, hy, hI'⟩
      · exact ⟨r', hI', by rw [hy, hx]⟩
      · exact ⟨r', hI', by rw [hy, hx]⟩
    obtain ⟨r', hI', hy⟩ := hstep
    have hrest := ih (s := (x i s).2) hI' fun k j s' hj hs' => hP (k + 1) j s' hj hs'
    simp only [Transition.trace, List.map_cons, hy, hrest]

end Records

/-- A computation under which every record it starts from keeps the relation `I` to the
one it leaves. -/
def Keeping (I : ρ → ρ → Prop) (y : Stateful ε (σ × ρ) α) : Prop := ∀ s, I s.2 (y s).2.2

namespace Keeping

variable {I : ρ → ρ → Prop} {y : Stateful ε (σ × ρ) α}

protected theorem lift (hI : ∀ r, I r r) (x : Except ε α) :
    Keeping I (lift x : Stateful ε (σ × ρ) α) := fun s => hI s.2

protected theorem pure (hI : ∀ r, I r r) (a : α) :
    Keeping I (pure a : Stateful ε (σ × ρ) α) := fun s => hI s.2

protected theorem fail (hI : ∀ r, I r r) (e : ε) :
    Keeping I (fail e : Stateful ε (σ × ρ) α) := fun s => hI s.2

protected theorem unrecorded (hI : ∀ r, I r r) (x : Stateful ε σ α) :
    Keeping I (unrecorded x) := fun s => hI s.2

protected theorem record (hI : ∀ r, I r r) :
    Keeping I (record : Stateful ε (σ × ρ) ρ) := fun s => hI s.2

protected theorem modifyRecord {f : ρ → ρ} (hf : ∀ r, I r (f r)) :
    Keeping I (modifyRecord f : Stateful ε (σ × ρ) Unit) := fun s => hf s.2

protected theorem bind (htrans : ∀ {r r' r''}, I r r' → I r' r'' → I r r'')
    {f : α → Stateful ε (σ × ρ) β} (hy : Keeping I y) (hf : ∀ a, Keeping I (f a)) :
    Keeping I (y >>= f) := by
  intro s
  have hfirst := hy s
  rw [bind_apply]
  rcases hys : y s with ⟨_ | a, s'⟩
  · simpa only [hys] using hfirst
  · rw [hys] at hfirst
    exact htrans hfirst (hf a s')

protected theorem withinRecord {t : τ} {y : Stateful ε (τ × ρ) α} (hy : Keeping I y) :
    Keeping I (withinRecord t y : Stateful ε (σ × ρ) (α × τ)) := by
  intro s
  have hin := hy (t, s.2)
  unfold Stateful.withinRecord
  rcases hys : y (t, s.2) with ⟨_ | _, _, _⟩ <;> simpa only [hys] using hin

end Keeping

end Stateful
