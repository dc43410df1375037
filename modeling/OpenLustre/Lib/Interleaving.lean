import Mathlib.Data.Fintype.Basic
import Mathlib.Logic.Function.Basic
import OpenLustre.Lib.Interaction

/-! Programs that take turns on one state, an operation at a time.  Each has a section, from
its first operation to the first one of `C`; if no two sections overlap, the programs leave
what they would have left one after another. -/

namespace Interaction

inductive Phase
  | waiting
  | inside
  | closed
  deriving DecidableEq

/-- The rest of each program, how far it has come, and the state. -/
structure Turns (Op : Type) (Res : Op → Type) (ε α ι σ : Type) where
  rest : ι → Interaction Op Res ε α
  phase : ι → Phase
  state : σ

namespace Turns

variable {Op : Type} {Res : Op → Type} {ε α ι σ τ : Type} [DecidableEq ι]
variable (serve : (op : Op) → σ → Res op × σ) (C E : Op → Prop) [DecidablePred C]

/-- The next operation of program `i`. -/
def step (c : Turns Op Res ε α ι σ) (i : ι) : Turns Op Res ε α ι σ :=
  match c.rest i with
  | .done _ => c
  | .fail _ => c
  | .act op next =>
    { rest := Function.update c.rest i (next (serve op c.state).1)
      phase := Function.update c.phase i (if c.phase i = .closed ∨ C op then .closed else .inside)
      state := (serve op c.state).2 }

def run (turns : List ι) (c : Turns Op Res ε α ι σ) : Turns Op Res ε α ι σ :=
  turns.foldl (step serve C) c

/-- No program acts in its section while another one is inside its own. -/
def Exclusive : List ι → Turns Op Res ε α ι σ → Prop
  | [], _ => True
  | i :: turns, c =>
    (c.phase i = .closed ∨ ∀ j ≠ i, c.phase j ≠ .inside) ∧ Exclusive turns (step serve C c i)

instance decidableExclusive [Fintype ι] : (turns : List ι) → (c : Turns Op Res ε α ι σ) →
    Decidable (Exclusive serve C turns c)
  | [], _ => .isTrue trivial
  | i :: turns, c =>
    have := decidableExclusive turns (step serve C c i)
    inferInstanceAs (Decidable ((c.phase i = .closed ∨ ∀ j ≠ i, c.phase j ≠ .inside) ∧ _))

def start (programs : ι → Interaction Op Res ε α) (s : σ) : Turns Op Res ε α ι σ :=
  ⟨programs, fun _ => .waiting, s⟩

/-- The state after the sections of some programs, one after another. -/
def sections (programs : ι → Interaction Op Res ε α) : List ι → σ → Option σ
  | [], s => some s
  | i :: order, s =>
    match ((programs i).upTo C).run serve s with
    | (.ok _, s') => sections programs order s'
    | (.error _, _) => none

variable {serve C E}

theorem sections_append {programs : ι → Interaction Op Res ε α} {order : List ι} {i : ι}
    {s t u : σ} (h : sections serve C programs order s = some t)
    (hi : ((programs i).upTo C).run serve t = (.ok (), u)) :
    sections serve C programs (order ++ [i]) s = some u := by
  induction order generalizing s with
  | nil =>
    cases h
    simp [sections, hi]
  | cons j order ih =>
    rw [sections] at h
    rw [List.cons_append, sections]
    split at h
    · exact ih h
    · cases h

section Serial

variable {view : σ → τ}

/-- What comes of a section, and what `view` shows of what it leaves. -/
def outcome (serve : (op : Op) → σ → Res op × σ) (C : Op → Prop) [DecidablePred C]
    (view : σ → τ) (p : Interaction Op Res ε α) (s : σ) : Except ε Unit × τ :=
  (((p.upTo C).run serve s).1, view ((p.upTo C).run serve s).2)

/-- The programs whose section is over ran it one after another, and what the one inside
its own will leave is what it leaves behind those. -/
structure Serial (serve : (op : Op) → σ → Res op × σ) (C E : Op → Prop) [DecidablePred C]
    (view : σ → τ) (programs : ι → Interaction Op Res ε α) (s : σ) (order : List ι) (base : σ)
    (c : Turns Op Res ε α ι σ) : Prop where
  sections : sections serve C programs order s = some base
  nodup : order.Nodup
  mem : ∀ i, i ∈ order ↔ c.phase i = .closed
  closed : ∀ i, c.phase i = .closed → (c.rest i).Avoids E
  waiting : ∀ i, c.phase i = .waiting → c.rest i = programs i
  inside : ∀ i, c.phase i = .inside → (c.rest i).Closes C E ∧
    outcome serve C view (c.rest i) c.state = outcome serve C view (programs i) base
  alone : ∀ i j, c.phase i = .inside → c.phase j = .inside → i = j
  idle : (∀ i, c.phase i ≠ .inside) → view c.state = view base

variable {programs : ι → Interaction Op Res ε α} {s : σ} {order : List ι} {base : σ}
  {c : Turns Op Res ε α ι σ}

theorem Serial.start (programs : ι → Interaction Op Res ε α) (s : σ) :
    Serial serve C E view programs s [] s (start programs s) where
  sections := rfl
  nodup := List.nodup_nil
  mem := by simp [Turns.start]
  closed := by simp [Turns.start]
  waiting := fun _ _ => rfl
  inside := by simp [Turns.start]
  alone := by simp [Turns.start]
  idle := fun _ => rfl

section Step

variable (hview : ∀ op s t, view s = view t →
  (serve op s).1 = (serve op t).1 ∧ view (serve op s).2 = view (serve op t).2)
variable (hserve : ∀ op s, ¬ E op → view (serve op s).2 = view s)

omit [DecidableEq ι] in
include hview in
theorem outcome_congr (p : Interaction Op Res ε α) {s t : σ} (h : view s = view t) :
    outcome serve C view p s = outcome serve C view p t := by
  obtain ⟨hresult, hstate⟩ := run_congr serve hview (p.upTo C) h
  exact Prod.ext hresult hstate

omit [DecidableEq ι] in
theorem outcome_act {op : Op} {next : Res op → Interaction Op Res ε α} (hop : ¬ C op) (s : σ) :
    outcome serve C view (.act op next) s
      = outcome serve C view (next (serve op s).1) (serve op s).2 := by
  simp [outcome, upTo, Interaction.run, hop]

omit [DecidableEq ι] in
theorem outcome_close {op : Op} {next : Res op → Interaction Op Res ε α} (hop : C op) (s : σ) :
    outcome serve C view (.act op next) s = (.ok (), view (serve op s).2) := by
  simp [outcome, upTo, Interaction.run, hop]

theorem step_act {i : ι} {op : Op} {next : Res op → Interaction Op Res ε α}
    (hrest : c.rest i = .act op next) :
    step serve C c i =
      { rest := Function.update c.rest i (next (serve op c.state).1)
        phase :=
          Function.update c.phase i (if c.phase i = .closed ∨ C op then .closed else .inside)
        state := (serve op c.state).2 } := by
  rw [step, hrest]

include hview hserve in
/-- Behind its section a program changes nothing that the others see. -/
theorem Serial.step_closed (h : Serial serve C E view programs s order base c) {i : ι}
    (hi : c.phase i = .closed) {op : Op} {next : Res op → Interaction Op Res ε α}
    (hrest : c.rest i = .act op next) :
    Serial serve C E view programs s order base (step serve C c i) := by
  have havoids := h.closed i hi
  rw [hrest] at havoids
  obtain ⟨hop, hnext⟩ := havoids
  have hphase : Function.update c.phase i .closed = c.phase := by
    rw [← hi, Function.update_eq_self]
  have hne {j : ι} {a : Phase} (ha : a ≠ .closed) (hj : c.phase j = a) : j ≠ i := by
    intro hji
    subst hji
    exact ha (hj.symm.trans hi)
  have hstate := hserve op c.state hop
  rw [step_act hrest, if_pos (.inl hi), hphase]
  exact
    { sections := h.sections
      nodup := h.nodup
      mem := h.mem
      closed := fun j hj => by
        by_cases hji : j = i
        · subst hji
          simpa using hnext _
        · simpa [hji] using h.closed j hj
      waiting := fun j hj => by
        have hji := hne (a := .waiting) (by decide) hj
        simpa [hji] using h.waiting j hj
      inside := fun j hj => by
        have hji := hne (a := .inside) (by decide) hj
        simp only [Function.update_of_ne hji]
        exact ⟨(h.inside j hj).1, (outcome_congr hview _ hstate).trans (h.inside j hj).2⟩
      alone := h.alone
      idle := fun hidle => hstate.trans (h.idle hidle) }

variable (hcloses : ∀ i, (programs i).Closes C E)

include hview hcloses in
/-- A program that may act in its section has before it what it would have alone. -/
theorem Serial.section (h : Serial serve C E view programs s order base c) {i : ι}
    (hi : c.phase i ≠ .closed) (halone : ∀ j ≠ i, c.phase j ≠ .inside) :
    (c.rest i).Closes C E ∧
      outcome serve C view (c.rest i) c.state = outcome serve C view (programs i) base := by
  cases hphase : c.phase i with
  | closed => exact absurd hphase hi
  | inside => exact h.inside i hphase
  | waiting =>
    have hidle : ∀ j, c.phase j ≠ .inside := by
      intro j
      by_cases hji : j = i
      · simp [hji, hphase]
      · exact halone j hji
    rw [h.waiting i hphase]
    exact ⟨hcloses i, outcome_congr hview _ (h.idle hidle)⟩

include hview hcloses in
theorem Serial.step_inside (h : Serial serve C E view programs s order base c) {i : ι}
    (hi : c.phase i ≠ .closed) (halone : ∀ j ≠ i, c.phase j ≠ .inside) {op : Op}
    {next : Res op → Interaction Op Res ε α} (hrest : c.rest i = .act op next) (hop : ¬ C op) :
    Serial serve C E view programs s order base (step serve C c i) := by
  obtain ⟨hcloses', houtcome⟩ := h.section hview hcloses hi halone
  rw [hrest] at hcloses' houtcome
  have hnext : ∀ r, (next r).Closes C E := (hcloses'.resolve_left fun hC => hop hC.1).2
  rw [step_act hrest, if_neg (by simp [hi, hop])]
  have hphase {j : ι} {a : Phase} (ha : a ≠ .inside) :
      Function.update c.phase i .inside j = a → j ≠ i ∧ c.phase j = a := by
    intro hj
    by_cases hji : j = i
    · subst hji
      exact absurd (by simpa using hj.symm) ha
    · exact ⟨hji, by simpa [hji] using hj⟩
  have hinside {j : ι} : Function.update c.phase i .inside j = .inside → j = i := by
    intro hj
    by_contra hji
    exact halone j hji (by simpa [hji] using hj)
  exact
    { sections := h.sections
      nodup := h.nodup
      mem := fun j => by
        by_cases hji : j = i
        · subst hji
          simpa [h.mem] using hi
        · simp [hji, h.mem]
      closed := fun j hj => by
        obtain ⟨hji, hj⟩ := hphase (a := .closed) (by decide) hj
        simpa [hji] using h.closed j hj
      waiting := fun j hj => by
        obtain ⟨hji, hj⟩ := hphase (a := .waiting) (by decide) hj
        simpa [hji] using h.waiting j hj
      inside := fun j hj => by
        rw [hinside hj]
        simp only [Function.update_self]
        exact ⟨hnext _, (outcome_act hop _).symm.trans houtcome⟩
      alone := fun j k hj hk => (hinside hj).trans (hinside hk).symm
      idle := fun hidle => absurd (by simp) (hidle i) }

include hview hcloses in
theorem Serial.step_close (h : Serial serve C E view programs s order base c) {i : ι}
    (hi : c.phase i ≠ .closed) (halone : ∀ j ≠ i, c.phase j ≠ .inside) {op : Op}
    {next : Res op → Interaction Op Res ε α} (hrest : c.rest i = .act op next) (hop : C op) :
    ∃ base', Serial serve C E view programs s (order ++ [i]) base' (step serve C c i) := by
  obtain ⟨hcloses', houtcome⟩ := h.section hview hcloses hi halone
  rw [hrest] at hcloses' houtcome
  have hnext : ∀ r, (next r).Avoids E := (hcloses'.resolve_right fun hC => hC.1 hop).2
  rw [outcome_close hop] at houtcome
  obtain ⟨hresult, hstate⟩ := Prod.mk.inj houtcome
  refine ⟨(((programs i).upTo C).run serve base).2, ?_⟩
  have hphase {j : ι} {a : Phase} (ha : a ≠ .closed) :
      Function.update c.phase i .closed j = a → j ≠ i ∧ c.phase j = a := by
    intro hj
    by_cases hji : j = i
    · subst hji
      exact absurd (by simpa using hj.symm) ha
    · exact ⟨hji, by simpa [hji] using hj⟩
  rw [step_act hrest, if_pos (.inr hop)]
  exact
    { sections := sections_append h.sections (Prod.ext hresult.symm rfl)
      nodup := by
        have hnot : i ∉ order := fun hmem => hi ((h.mem i).mp hmem)
        refine List.nodup_append.mpr ⟨h.nodup, by simp, fun j hj k hk heq => hnot ?_⟩
        rw [List.mem_singleton] at hk
        exact hk ▸ heq ▸ hj
      mem := fun j => by
        by_cases hji : j = i
        · simp [hji]
        · simp [hji, h.mem]
      closed := fun j hj => by
        by_cases hji : j = i
        · subst hji
          simpa using hnext _
        · simpa [hji] using h.closed j (by simpa [hji] using hj)
      waiting := fun j hj => by
        obtain ⟨hji, hj⟩ := hphase (a := .waiting) (by decide) hj
        simpa [hji] using h.waiting j hj
      inside := fun j hj => by
        obtain ⟨hji, hj⟩ := hphase (a := .inside) (by decide) hj
        exact absurd hj (halone j hji)
      alone := fun j k hj _ => by
        obtain ⟨hji, hj⟩ := hphase (a := .inside) (by decide) hj
        exact absurd hj (halone j hji)
      idle := fun _ => hstate }

include hview hserve hcloses in
/-- Turns whose sections do not overlap are those of the programs one after another. -/
theorem Serial.run (turns : List ι) (h : Serial serve C E view programs s order base c)
    (hexclusive : Exclusive serve C turns c) :
    ∃ order' base', Serial serve C E view programs s order' base' (run serve C turns c) := by
  induction turns generalizing order base c with
  | nil => exact ⟨order, base, h⟩
  | cons i turns ih =>
    obtain ⟨halone, hrest⟩ := hexclusive
    suffices hstep : ∃ order' base', Serial serve C E view programs s order' base'
        (step serve C c i) by
      obtain ⟨order', base', hstep⟩ := hstep
      exact ih hstep hrest
    cases hi : c.rest i with
    | done a => exact ⟨order, base, by rwa [step, hi]⟩
    | fail e => exact ⟨order, base, by rwa [step, hi]⟩
    | act op next =>
      by_cases hphase : c.phase i = .closed
      · exact ⟨order, base, h.step_closed hview hserve hphase hi⟩
      · have halone := halone.resolve_left hphase
        by_cases hop : C op
        · exact ⟨order ++ [i], h.step_close hview hcloses hphase halone hi hop⟩
        · exact ⟨order, base, h.step_inside hview hcloses hphase halone hi hop⟩

include hview hserve hcloses in
/-- When all have ended well, the state shows what the sections of all of them, one after
another in some order, leave. -/
theorem serial_of_exclusive {turns : List ι} (hexclusive : Exclusive serve C turns (Turns.start programs s))
    (hdone : ∀ i, ∃ a, (run serve C turns (Turns.start programs s)).rest i = .done a) :
    ∃ order base, order.Nodup ∧ (∀ i, i ∈ order) ∧ sections serve C programs order s = some base ∧
      view (run serve C turns (Turns.start programs s)).state = view base := by
  obtain ⟨order, base, h⟩ := (Serial.start programs s).run hview hserve hcloses turns hexclusive
  have hclosed : ∀ i, (run serve C turns (Turns.start programs s)).phase i = .closed := by
    intro i
    obtain ⟨a, ha⟩ := hdone i
    cases hphase : (run serve C turns (Turns.start programs s)).phase i with
    | closed => rfl
    | waiting =>
      have hi := hcloses i
      rw [← h.waiting i hphase, ha] at hi
      exact hi.elim
    | inside =>
      have hi := (h.inside i hphase).1
      rw [ha] at hi
      exact hi.elim
  refine ⟨order, base, h.nodup, fun i => (h.mem i).mpr (hclosed i), h.sections, h.idle fun i => ?_⟩
  simp [hclosed i]

end Step

end Serial

end Turns

end Interaction
