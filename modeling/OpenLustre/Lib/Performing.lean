import Mathlib.Data.List.Basic
import OpenLustre.Lib.Stateful

/-! Computations that perform each action of a list exactly once, in some order,
also where they fail. -/

namespace Stateful

variable {ε σ α β κ : Type}

/-- The actions of a list, one after the other, lead from one state to another. -/
inductive Path (act : κ → σ → σ → Prop) : List κ → σ → σ → Prop
  | nil (s : σ) : Path act [] s s
  | cons {k : κ} {l : List κ} {s t u : σ} : act k s t → Path act l t u → Path act (k :: l) s u

/-- A computation performs each action of a list once. -/
def Performs (act : κ → σ → σ → Prop) (l : List κ) (x : Stateful ε σ α) (s : σ) : Prop :=
  ∃ l', l'.Perm l ∧ Path act l' s (x s).2

/-- After `x` comes `next`; where `x` fails, nothing was left to do. -/
def Then (x : Stateful ε σ α) (left : Prop) (next : α → σ → Prop) (s : σ) : Prop :=
  match x s with
  | (.ok a, s') => next a s'
  | (.error _, _) => ¬ left

/-- Actions that can all be performed without a change. -/
def Idle (act : κ → σ → σ → Prop) (l : List κ) : Prop := ∀ k ∈ l, ∀ s, act k s s

variable {act : κ → σ → σ → Prop} {l l' : List κ} {s : σ}

theorem Idle.nil : Idle act [] := fun _ hk => absurd hk List.not_mem_nil

theorem Idle.path (h : Idle act l) (s : σ) : Path act l s s := by
  induction l with
  | nil => exact .nil s
  | cons k l ih => exact .cons (h k List.mem_cons_self s) (ih fun j hj => h j (List.mem_cons_of_mem k hj))

theorem Path.append {s t u : σ} (h : Path act l s t) (h' : Path act l' t u) :
    Path act (l ++ l') s u := by
  induction h with
  | nil => exact h'
  | cons hk _ ih => exact .cons hk (ih h')

/-- Where each action changes the value of its own key, a path that has every key once
changes the value of each by one action. -/
theorem Path.keyed {K V : Type} {act : κ → (K → V) → (K → V) → Prop} (key : κ → K)
    (R : κ → V → V → Prop) (hact : ∀ {k f g}, act k f g → R k (f (key k)) (g (key k)) ∧
      ∀ x, x ≠ key k → g x = f x) {l : List κ} {f g : K → V} (h : Path act l f g)
    (hnodup : (l.map key).Nodup) :
    (∀ k ∈ l, R k (f (key k)) (g (key k))) ∧ ∀ x, x ∉ l.map key → g x = f x := by
  induction h with
  | nil => exact ⟨fun _ hk => absurd hk List.not_mem_nil, fun _ _ => rfl⟩
  | @cons k l f₁ f₂ f₃ hk _ ih =>
    rw [List.map_cons, List.nodup_cons] at hnodup
    obtain ⟨hdone, hkeep⟩ := ih hnodup.2
    obtain ⟨hR, hother⟩ := hact hk
    constructor
    · intro j hj
      rcases List.mem_cons.mp hj with rfl | hj
      · rw [hkeep _ hnodup.1]
        exact hR
      · have hne : key j ≠ key k := fun heq => hnodup.1 (heq ▸ List.mem_map_of_mem hj)
        rw [← hother _ hne]
        exact hdone j hj
    · intro x hx
      rw [List.map_cons, List.mem_cons, not_or] at hx
      rw [hkeep x hx.2, hother x hx.1]

section

variable {x : Stateful ε σ α} {left left' : Prop} {next next' : α → σ → Prop}

theorem Then.mono (h : x.Then left next s) (hleft : left' → left)
    (hnext : ∀ a s', x s = (.ok a, s') → next a s' → next' a s') : x.Then left' next' s := by
  unfold Then at h ⊢
  split
  · next a s' hx =>
    rw [hx] at h
    exact hnext a s' hx h
  · next e s' hx =>
    rw [hx] at h
    exact fun h' => h (hleft h')

theorem then_of_not_left (hleft : ¬ left) (hnext : ∀ a s', x s = (.ok a, s') → next a s') :
    x.Then left next s := by
  unfold Then
  split
  · next a s' hx => exact hnext a s' hx
  · exact hleft

end

namespace Performs

/-- A computation that leaves the state as it is. -/
theorem idle {x : Stateful ε σ α} (h : Idle act l) (hx : (x s).2 = s) : Performs act l x s :=
  ⟨l, .refl l, hx.symm ▸ h.path s⟩

theorem lift (r : Except ε α) : Performs act [] (Stateful.lift r) s := .idle .nil rfl

theorem pure (a : α) : Performs act [] (Pure.pure a : Stateful ε σ α) s := .idle .nil rfl

theorem fail (e : ε) : Performs act [] (Stateful.fail e : Stateful ε σ α) s := .idle .nil rfl

theorem state_eq {x : Stateful ε σ α} (h : Performs act [] x s) : (x s).2 = s := by
  obtain ⟨l', hperm, hpath⟩ := h
  rw [List.perm_nil.mp hperm] at hpath
  generalize (x s).2 = t at hpath
  cases hpath
  rfl

theorem append_idle {x : Stateful ε σ α} (h : Performs act l x s) (hidle : Idle act l') :
    Performs act (l ++ l') x s := by
  obtain ⟨l₁, hperm, hpath⟩ := h
  exact ⟨l₁ ++ l', hperm.append_right l', hpath.append (hidle.path _)⟩

theorem congr {x y : Stateful ε σ α} (h : Performs act l x s) (hxy : y = x) :
    Performs act l y s := hxy ▸ h

theorem perm {x : Stateful ε σ α} (h : Performs act l x s) (hl : l.Perm l') :
    Performs act l' x s := by
  obtain ⟨l₁, hperm, hpath⟩ := h
  exact ⟨l₁, hperm.trans hl, hpath⟩

theorem bind {x : Stateful ε σ α} {f : α → Stateful ε σ β} (hx : Performs act l x s)
    (hf : x.Then (¬ Idle act l') (fun a s' => Performs act l' (f a) s') s) :
    Performs act (l ++ l') (x >>= f) s := by
  obtain ⟨l₁, hperm₁, hpath₁⟩ := hx
  obtain ⟨r, s', hrun⟩ : ∃ r s', x s = (r, s') := ⟨_, _, rfl⟩
  rw [Then, hrun] at hf
  rw [hrun] at hpath₁
  rw [Performs, bind_apply, hrun]
  cases r with
  | ok a =>
    obtain ⟨l₂, hperm₂, hpath₂⟩ := hf
    exact ⟨l₁ ++ l₂, hperm₁.append hperm₂, hpath₁.append hpath₂⟩
  | error e => exact ⟨l₁ ++ l', hperm₁.append_right l', hpath₁.append ((not_not.mp hf).path s')⟩

/-- What follows performs nothing. -/
theorem andThen {x : Stateful ε σ α} {f : α → Stateful ε σ β} (hx : Performs act l x s)
    (hf : ∀ a s', x s = (.ok a, s') → Performs act [] (f a) s') : Performs act l (x >>= f) s := by
  rw [← List.append_nil l]
  exact hx.bind (then_of_not_left (fun h => h .nil) hf)

end Performs

end Stateful
