import Mathlib.Data.List.Forall2

/-! Computations over a state that may fail and keep the state they fail in. -/

namespace Except

variable {ε α β : Type}

theorem bind_eq_ok {x : Except ε α} {f : α → Except ε β} {b : β} :
    (x >>= f) = .ok b ↔ ∃ a, x = .ok a ∧ f a = .ok b := by
  cases x <;> simp [bind, Except.bind]

theorem bind_eq_error {x : Except ε α} {f : α → Except ε β} {e : ε} :
    (x >>= f) = .error e ↔ x = .error e ∨ ∃ a, x = .ok a ∧ f a = .error e := by
  cases x <;> simp [bind, Except.bind]

theorem ok_bind (a : α) (f : α → Except ε β) : (Except.ok a >>= f) = f a := rfl

theorem map_eq_ok {x : Except ε α} {f : α → β} {b : β} :
    x.map f = .ok b ↔ ∃ a, x = .ok a ∧ f a = b := by
  cases x <;> simp [Except.map]

theorem mapError_eq_ok {ε' : Type} {x : Except ε α} {f : ε → ε'} {a : α} :
    x.mapError f = .ok a ↔ x = .ok a := by
  cases x <;> simp [Except.mapError]

/-- A list that is mapped to the end: each result comes from an item. -/
theorem mapM_eq_ok {f : α → Except ε β} {xs : List α} {ys : List β} (h : xs.mapM f = .ok ys) :
    ys.length = xs.length ∧ ∀ y ∈ ys, ∃ x ∈ xs, f x = .ok y := by
  induction xs generalizing ys with
  | nil =>
    cases h
    simp
  | cons x xs ih =>
    rw [List.mapM_cons] at h
    obtain ⟨y, hy, h⟩ := bind_eq_ok.mp h
    obtain ⟨rest, hrest, h⟩ := bind_eq_ok.mp h
    cases h
    obtain ⟨hlen, hmem⟩ := ih hrest
    refine ⟨by simp [hlen], List.forall_mem_cons.mpr ⟨⟨x, by simp, hy⟩, fun z hz => ?_⟩⟩
    obtain ⟨w, hw, hz⟩ := hmem z hz
    exact ⟨w, List.mem_cons_of_mem _ hw, hz⟩

/-- A list that is mapped to the end, with the index of each item. -/
theorem mapM_zipIdx_eq_ok {f : α × Nat → Except ε β} {xs : List α} {ys : List β} {n : Nat} :
    (xs.zipIdx n).mapM f = .ok ys → List.Forall₂ (fun x y => ∃ i, f (x, i) = .ok y) xs ys := by
  intro h
  induction xs generalizing ys n with
  | nil =>
    cases h
    exact .nil
  | cons x xs ih =>
    rw [List.zipIdx_cons, List.mapM_cons] at h
    obtain ⟨y, hy, h⟩ := bind_eq_ok.mp h
    obtain ⟨rest, hrest, h⟩ := bind_eq_ok.mp h
    cases h
    exact .cons ⟨n, hy⟩ (ih hrest)

theorem mapM_zipIdx_of_forall₂ {f : α × Nat → Except ε β} {xs : List α} {ys : List β}
    (h : List.Forall₂ (fun x y => ∀ i, f (x, i) = .ok y) xs ys) (n : Nat) :
    (xs.zipIdx n).mapM f = .ok ys := by
  induction h generalizing n with
  | nil => rfl
  | cons hhead _ ih =>
    rw [List.zipIdx_cons, List.mapM_cons, hhead, ih]
    rfl

theorem mapM_congr {f g : α → Except ε β} {xs : List α} (h : ∀ x ∈ xs, f x = g x) :
    xs.mapM f = xs.mapM g := by
  induction xs with
  | nil => rfl
  | cons x xs ih =>
    rw [List.forall_mem_cons] at h
    rw [List.mapM_cons, List.mapM_cons, h.1, ih h.2]

theorem foldlM_congr {f g : β → α → Except ε β} {xs : List α} (h : ∀ x ∈ xs, ∀ b, f b x = g b x)
    (b : β) : xs.foldlM f b = xs.foldlM g b := by
  induction xs generalizing b with
  | nil => rfl
  | cons x xs ih =>
    rw [List.forall_mem_cons] at h
    rw [List.foldlM_cons, List.foldlM_cons, h.1]
    congr 1
    funext b'
    exact ih h.2 b'

theorem exists_mem_of_forall₂ {R : α → β → Prop} {xs : List α} {ys : List β}
    (h : List.Forall₂ R xs ys) {y : β} (hy : y ∈ ys) : ∃ x ∈ xs, R x y := by
  induction h with
  | nil => cases hy
  | cons hhead _ ih =>
    rcases List.mem_cons.mp hy with rfl | hy
    · exact ⟨_, List.mem_cons_self, hhead⟩
    · obtain ⟨x, hx, hxy⟩ := ih hy
      exact ⟨x, List.mem_cons_of_mem _ hx, hxy⟩

/-- Two results that are both returned and related, or the same error. -/
def Agree (Q : α → β → Prop) (x : Except ε α) (y : Except ε β) : Prop :=
  (∃ a b, x = .ok a ∧ y = .ok b ∧ Q a b) ∨ ∃ e, x = .error e ∧ y = .error e

namespace Agree

variable {γ δ : Type} {Q : α → β → Prop} {x : Except ε α} {y : Except ε β}

protected theorem ok {a : α} {b : β} (h : Q a b) : Agree (ε := ε) Q (.ok a) (.ok b) :=
  .inl ⟨a, b, rfl, rfl, h⟩

protected theorem error (e : ε) : Agree Q (.error e) (.error e) := .inr ⟨e, rfl, rfl⟩

protected theorem refl (x : Except ε α) : Agree (· = ·) x x := by
  cases x with
  | ok a => exact .ok rfl
  | error e => exact .error e

protected theorem bind {R : γ → δ → Prop} {f : α → Except ε γ} {g : β → Except ε δ}
    (h : Agree Q x y) (hfg : ∀ a b, Q a b → Agree R (f a) (g b)) : Agree R (x >>= f) (y >>= g) := by
  rcases h with ⟨a, b, rfl, rfl, hab⟩ | ⟨e, rfl, rfl⟩
  · exact hfg a b hab
  · exact .error e

protected theorem map {R : γ → δ → Prop} {f : α → γ} {g : β → δ} (h : Agree Q x y)
    (hfg : ∀ a b, Q a b → R (f a) (g b)) : Agree R (x.map f) (y.map g) := by
  rcases h with ⟨a, b, rfl, rfl, hab⟩ | ⟨e, rfl, rfl⟩
  · exact .ok (hfg a b hab)
  · exact .error e

theorem mono {Q' : α → β → Prop} (h : Agree Q x y) (hQ : ∀ a b, Q a b → Q' a b) : Agree Q' x y := by
  rcases h with ⟨a, b, rfl, rfl, hab⟩ | ⟨e, rfl, rfl⟩
  · exact .ok (hQ a b hab)
  · exact .error e

theorem eq {x y : Except ε α} (h : Agree (· = ·) x y) : x = y := by
  rcases h with ⟨a, b, rfl, rfl, rfl⟩ | ⟨e, rfl, rfl⟩ <;> rfl

end Agree

/-- Every error that ends the computation is one of `P`. -/
def Fails (P : ε → Prop) (x : Except ε α) : Prop := ∀ e, x = .error e → P e

namespace Fails

variable {P : ε → Prop} {x : Except ε α}

protected theorem ok (a : α) : Fails P (.ok a) := nofun

protected theorem error {e : ε} (h : P e) : Fails P (.error e : Except ε α) := by
  rintro _ ⟨⟩
  exact h

protected theorem bind {f : α → Except ε β} (hx : Fails P x)
    (hf : ∀ a, x = .ok a → Fails P (f a)) : Fails P (x >>= f) := by
  cases x with
  | ok a => exact hf a rfl
  | error e => exact .error (hx e rfl)

protected theorem map (f : α → β) (hx : Fails P x) : Fails P (x.map f) := by
  cases x with
  | ok a => exact .ok _
  | error e => exact .error (hx e rfl)

theorem mapM {f : α → Except ε β} {xs : List α} (h : ∀ x ∈ xs, Fails P (f x)) :
    Fails P (xs.mapM f) := by
  induction xs with
  | nil => exact .ok _
  | cons x xs ih =>
    obtain ⟨hx, hxs⟩ := List.forall_mem_cons.mp h
    rw [List.mapM_cons]
    exact hx.bind fun y _ => (ih hxs).bind fun ys _ => .ok _

theorem foldlM {f : β → α → Except ε β} {xs : List α} (h : ∀ b, ∀ x ∈ xs, Fails P (f b x)) (b : β) :
    Fails P (xs.foldlM f b) := by
  induction xs generalizing b with
  | nil => exact .ok _
  | cons x xs ih =>
    rw [List.foldlM_cons]
    exact (h b x List.mem_cons_self).bind fun b' _ =>
      ih (fun b x hx => h b x (List.mem_cons_of_mem _ hx)) b'

end Fails

/-- What holds of the first accumulator and is kept by every step holds of the last. -/
theorem foldlM_invariant {I : β → Prop} {f : β → α → Except ε β} {xs : List α} {b b' : β}
    (hb : I b) (hstep : ∀ b, I b → ∀ x ∈ xs, ∀ b', f b x = .ok b' → I b')
    (h : xs.foldlM f b = .ok b') : I b' := by
  induction xs generalizing b with
  | nil =>
    cases h
    exact hb
  | cons x xs ih =>
    rw [List.foldlM_cons] at h
    obtain ⟨c, hc, h⟩ := bind_eq_ok.mp h
    exact ih (hstep b hb x List.mem_cons_self c hc)
      (fun b hb x hx => hstep b hb x (List.mem_cons_of_mem _ hx)) h

end Except

def Stateful (ε σ α : Type) : Type := σ → Except ε α × σ

namespace Stateful

variable {ε σ α β : Type}

def bind (x : Stateful ε σ α) (f : α → Stateful ε σ β) : Stateful ε σ β := fun s =>
  match x s with
  | (.ok a, s') => f a s'
  | (.error e, s') => (.error e, s')

instance : Monad (Stateful ε σ) where
  pure a := fun s => (.ok a, s)
  bind := bind

def fail (e : ε) : Stateful ε σ α := fun s => (.error e, s)
def lift (r : Except ε α) : Stateful ε σ α := fun s => (r, s)
def get : Stateful ε σ σ := fun s => (.ok s, s)
def set (s : σ) : Stateful ε σ Unit := fun _ => (.ok (), s)

/-- Run a computation on a state of its own and return what it leaves there. -/
def within {τ : Type} (t : τ) (x : Stateful ε τ α) : Stateful ε σ (α × τ) := fun s =>
  match x t with
  | (.ok a, t') => (.ok (a, t'), s)
  | (.error e, _) => (.error e, s)

@[simp] theorem pure_apply (a : α) (s : σ) : (pure a : Stateful ε σ α) s = (.ok a, s) := rfl
@[simp] theorem fail_apply (e : ε) (s : σ) : (fail e : Stateful ε σ α) s = (.error e, s) := rfl
@[simp] theorem lift_apply (r : Except ε α) (s : σ) : lift r s = (r, s) := rfl
@[simp] theorem get_apply (s : σ) : (get : Stateful ε σ σ) s = (.ok s, s) := rfl
@[simp] theorem set_apply (s t : σ) : (set s : Stateful ε σ Unit) t = (.ok (), s) := rfl

theorem bind_apply (x : Stateful ε σ α) (f : α → Stateful ε σ β) (s : σ) :
    (x >>= f) s = match x s with
      | (.ok a, s') => f a s'
      | (.error e, s') => (.error e, s') := rfl

theorem bind_ok {x : Stateful ε σ α} {f : α → Stateful ε σ β} {s s' : σ} {a : α}
    (h : x s = (.ok a, s')) : (x >>= f) s = f a s' := by
  rw [bind_apply, h]

theorem bind_error {x : Stateful ε σ α} {f : α → Stateful ε σ β} {s s' : σ} {e : ε}
    (h : x s = (.error e, s')) : (x >>= f) s = (.error e, s') := by
  rw [bind_apply, h]

/-- A computation that returns is a step that returned and the rest from there. -/
theorem bind_eq_ok {x : Stateful ε σ α} {f : α → Stateful ε σ β} {s s'' : σ} {b : β} :
    (x >>= f) s = (.ok b, s'') ↔ ∃ a s', x s = (.ok a, s') ∧ f a s' = (.ok b, s'') := by
  rw [bind_apply]
  rcases x s with ⟨e | a, s'⟩
  · simp
  · constructor
    · exact fun h => ⟨a, s', rfl, h⟩
    · rintro ⟨a, s', heq, h⟩
      cases heq
      exact h

theorem lift_eq_ok {r : Except ε α} {s s' : σ} {a : α} :
    lift r s = (.ok a, s') ↔ r = .ok a ∧ s = s' := by
  simp

theorem within_eq_ok {τ : Type} {t t' : τ} {x : Stateful ε τ α} {s s' : σ} {a : α} :
    within t x s = (.ok (a, t'), s') ↔ x t = (.ok a, t') ∧ s = s' := by
  unfold within
  rcases x t with ⟨_ | _, _⟩ <;> simp [and_assoc]

theorem lift_bind (r : Except ε α) (f : α → Except ε β) :
    (lift (r >>= f) : Stateful ε σ β) = lift r >>= fun a => lift (f a) := by
  cases r <;> rfl

theorem bind_pure (x : Stateful ε σ α) : (x >>= pure) = x := by
  funext s
  rw [bind_apply]
  rcases x s with ⟨_ | _, _⟩ <;> rfl

theorem bind_assoc {γ : Type} (x : Stateful ε σ α) (f : α → Stateful ε σ β)
    (g : β → Stateful ε σ γ) : (x >>= f) >>= g = x >>= fun a => f a >>= g := by
  funext s
  simp only [bind_apply]
  rcases x s with ⟨_ | _, _⟩ <;> rfl

@[simp] theorem pure_bind (a : α) (f : α → Stateful ε σ β) : (pure a >>= f) = f a := rfl

/-- From related states, two computations end in related states, with related
results or the same error. -/
def Related (I : σ → σ → Prop) (Q : α → β → Prop) (x : Stateful ε σ α) (y : Stateful ε σ β) :
    Prop :=
  ∀ s t, I s t → I (x s).2 (y t).2 ∧ Except.Agree Q (x s).1 (y t).1

namespace Related

variable {γ δ : Type} {I : σ → σ → Prop} {Q : α → β → Prop} {x : Stateful ε σ α}
  {y : Stateful ε σ β}

protected theorem pure {a : α} {b : β} (h : Q a b) :
    Related (ε := ε) I Q (pure a) (pure b) :=
  fun _ _ hI => ⟨hI, .ok h⟩

protected theorem fail (e : ε) : Related I Q (fail e : Stateful ε σ α) (fail e) :=
  fun _ _ hI => ⟨hI, .error e⟩

theorem lift_agree {r : Except ε α} {r' : Except ε β} (h : Except.Agree Q r r') :
    Related I Q (lift r) (lift r') :=
  fun _ _ hI => ⟨hI, h⟩

protected theorem lift (r : Except ε α) : Related I (· = ·) (lift r) (lift r) :=
  lift_agree (.refl r)

protected theorem get : Related (ε := ε) I I get get :=
  fun _ _ hI => ⟨hI, .ok hI⟩

protected theorem set {s t : σ} (h : I s t) :
    Related (ε := ε) I (fun _ _ => True) (set s) (set t) :=
  fun _ _ _ => ⟨h, .ok trivial⟩

protected theorem bind {R : γ → δ → Prop} {f : α → Stateful ε σ γ} {g : β → Stateful ε σ δ}
    (h : Related I Q x y) (hfg : ∀ a b, Q a b → Related I R (f a) (g b)) :
    Related I R (x >>= f) (y >>= g) := by
  intro s t hI
  obtain ⟨hI', hagree⟩ := h s t hI
  rw [bind_apply, bind_apply]
  revert hI' hagree
  rcases x s with ⟨rx, s'⟩
  rcases y t with ⟨ry, t'⟩
  rintro hI' (⟨a, b, rfl, rfl, hQ⟩ | ⟨e, rfl, rfl⟩)
  · exact hfg a b hQ s' t' hI'
  · exact ⟨hI', .error e⟩

theorem mono {Q' : α → β → Prop} (h : Related I Q x y) (hQ : ∀ a b, Q a b → Q' a b) :
    Related I Q' x y :=
  fun s t hI => ⟨(h s t hI).1, (h s t hI).2.mono hQ⟩

/-- A fact about the first result can be added to what relates the results. -/
theorem and_left {P : α → Prop} (h : Related I Q x y)
    (hP : ∀ s a s', x s = (.ok a, s') → P a) : Related I (fun a b => Q a b ∧ P a) x y := by
  intro s t hI
  obtain ⟨hI', hagree⟩ := h s t hI
  refine ⟨hI', hagree.imp ?_ id⟩
  rintro ⟨a, b, ha, hb, hab⟩
  exact ⟨a, b, ha, hb, hab, hP s a (x s).2 (Prod.ext ha rfl)⟩

theorem within {τ : Type} {J : τ → τ → Prop} {s t : τ} {x : Stateful ε τ α} {y : Stateful ε τ β}
    (h : Related J Q x y) (hst : J s t) :
    Related I (fun a b => Q a.1 b.1 ∧ J a.2 b.2) (within s x) (within t y) := by
  intro s₀ t₀ hI
  obtain ⟨hJ, hagree⟩ := h s t hst
  unfold Stateful.within
  revert hJ hagree
  rcases x s with ⟨rx, s'⟩
  rcases y t with ⟨ry, t'⟩
  rintro hJ (⟨a, b, rfl, rfl, hQ⟩ | ⟨e, rfl, rfl⟩)
  · exact ⟨hI, .ok ⟨hQ, hJ⟩⟩
  · exact ⟨hI, .error e⟩

end Related

/-- `y` runs as `x` does, unless `x` stops. -/
def Until (stop : ε → Prop) (x y : Stateful ε σ α) : Prop :=
  ∀ s, (∃ e, (x s).1 = .error e ∧ stop e) ∨ y s = x s

namespace Until

variable {stop : ε → Prop} {x y : Stateful ε σ α}

protected theorem refl (x : Stateful ε σ α) : Until stop x x := fun _ => .inr rfl

protected theorem stop {e : ε} (h : stop e) (y : Stateful ε σ α) : Until stop (fail e) y :=
  fun _ => .inl ⟨e, rfl, h⟩

protected theorem bind {f g : α → Stateful ε σ β} (h : Until stop x y)
    (hfg : ∀ a, Until stop (f a) (g a)) : Until stop (x >>= f) (y >>= g) := by
  intro s
  rw [bind_apply, bind_apply]
  rcases h s with ⟨e, he, hstop⟩ | heq
  · obtain ⟨s', hx⟩ : ∃ s', x s = (.error e, s') := ⟨(x s).2, Prod.ext he rfl⟩
    rw [hx]
    exact .inl ⟨e, rfl, hstop⟩
  · rw [heq]
    rcases x s with ⟨e | a, s'⟩
    · exact .inr rfl
    · exact hfg a s'

theorem within {τ : Type} {x y : Stateful ε τ α} (h : Until stop x y) (t : τ) :
    Until (σ := σ) stop (Stateful.within t x) (Stateful.within t y) := by
  intro s
  unfold Stateful.within
  rcases h t with ⟨e, he, hstop⟩ | heq
  · obtain ⟨t', hx⟩ : ∃ t', x t = (.error e, t') := ⟨(x t).2, Prod.ext he rfl⟩
    rw [hx]
    exact .inl ⟨e, rfl, hstop⟩
  · rw [heq]
    exact .inr rfl

end Until

/-- Every error that `x` can end in is one of `P`. -/
def Fails (P : ε → Prop) (x : Stateful ε σ α) : Prop := ∀ s, Except.Fails P (x s).1

namespace Fails

variable {P : ε → Prop} {x : Stateful ε σ α}

protected theorem pure (a : α) : Fails P (pure a : Stateful ε σ α) := fun _ => .ok a

protected theorem fail {e : ε} (h : P e) : Fails P (fail e : Stateful ε σ α) := fun _ => .error h

protected theorem lift {r : Except ε α} (h : r.Fails P) : Fails (σ := σ) P (lift r) := fun _ => h

protected theorem get : Fails P (get : Stateful ε σ σ) := fun s => .ok s

protected theorem set (s : σ) : Fails P (set s : Stateful ε σ Unit) := fun _ => .ok ()

/-- The rest runs on a result that the first part can return. -/
protected theorem bind {f : α → Stateful ε σ β} (hx : Fails P x)
    (hf : ∀ a, (∃ s s', x s = (.ok a, s')) → Fails P (f a)) : Fails P (x >>= f) := by
  intro s
  rw [bind_apply]
  rcases hxs : x s with ⟨e | a, s'⟩
  · exact .error (hx s e (by rw [hxs]))
  · exact hf a ⟨s, s', hxs⟩ s'

theorem within {τ : Type} {x : Stateful ε τ α} (h : Fails P x) (t : τ) :
    Fails (σ := σ) P (Stateful.within t x) := by
  intro s
  have ht := h t
  unfold Stateful.within
  rcases hxt : x t with ⟨e | a, t'⟩
  · exact .error (ht e (by rw [hxt]))
  · exact .ok _

end Fails

/-- A computation that has one result, whatever the index, and neither reads the state nor
changes it; what it returns has `P`. -/
def Settled {ι : Type} (P : α → Prop) (x : ι → Stateful ε σ α) : Prop :=
  ∃ r : Except ε α, (∀ i, x i = lift r) ∧ ∀ a, r = .ok a → P a

namespace Settled

variable {ι κ : Type} {P : α → Prop} {Q : β → Prop} {x : ι → Stateful ε σ α}

protected theorem pure {a : α} (h : P a) :
    Settled P (fun _ => pure a : ι → Stateful ε σ α) :=
  ⟨.ok a, fun _ => rfl, fun _ hb => Except.ok.inj hb ▸ h⟩

protected theorem lift {r : Except ε α} (h : ∀ a, r = .ok a → P a) :
    Settled P (fun _ => lift r : ι → Stateful ε σ α) :=
  ⟨r, fun _ => rfl, h⟩

theorem reindex (h : Settled P x) (f : κ → ι) : Settled P fun k => x (f k) := by
  obtain ⟨r, hr, hP⟩ := h
  exact ⟨r, fun k => hr (f k), hP⟩

protected theorem bind {f : ι → α → Stateful ε σ β} (hx : Settled P x)
    (hf : ∀ a, P a → Settled Q fun i => f i a) : Settled Q fun i => x i >>= f i := by
  obtain ⟨r, hr, hP⟩ := hx
  cases r with
  | error e =>
    refine ⟨.error e, fun i => ?_, fun _ hb => by cases hb⟩
    dsimp only
    rw [hr]
    rfl
  | ok a =>
    obtain ⟨r, hr', hQ⟩ := hf a (hP a rfl)
    refine ⟨r, fun i => ?_, hQ⟩
    dsimp only
    rw [hr]
    exact hr' i

/-- Whatever it returns has the property, and it always returns the same. -/
theorem result (h : Settled P x) {i j : ι} {s s' t t' : σ} {a b : α} (ha : x i s = (.ok a, s'))
    (hb : x j t = (.ok b, t')) : a = b ∧ P a := by
  obtain ⟨r, hr, hP⟩ := h
  rw [hr] at ha hb
  obtain ⟨ha, -⟩ := lift_eq_ok.mp ha
  obtain ⟨hb, -⟩ := lift_eq_ok.mp hb
  exact ⟨Except.ok.inj (ha.symm.trans hb), hP a ha⟩

end Settled

end Stateful
