import Mathlib.Data.List.Infix

/-! Text with brackets, quotes and separators, read one character at a time. -/

namespace Brackets

/-- Where a reader stands: the open brackets, innermost first, and whether it is inside
quotes and behind a backslash there. -/
structure Level where
  stack : List Char
  quoted : Bool
  escaped : Bool
  deriving DecidableEq

/-- Outside of quotes. -/
def Level.outside (stack : List Char) : Level := ⟨stack, false, false⟩

/-- Inside quotes. -/
def Level.within (stack : List Char) : Level := ⟨stack, true, false⟩

/-- The bracket that a closing one closes. -/
def opening (c : Char) : Char := if c = ']' then '[' else '{'

/-- The level behind one more character; none at a bracket that does not match, and at a
character that is barred, outside of all brackets or inside one. -/
def step (barred : Bool → Char → Bool) (s : Level) (c : Char) : Option Level :=
  if s.quoted then
    if s.escaped then some { s with escaped := false }
    else if c = '\\' then some { s with escaped := true }
    else if c = '"' then some { s with quoted := false }
    else some s
  else if c = '"' then some { s with quoted := true }
  else if c = '[' ∨ c = '{' then some { s with stack := c :: s.stack }
  else if c = ']' ∨ c = '}' then
    if s.stack.head? = some (opening c) then some { s with stack := s.stack.tail } else none
  else if barred s.stack.isEmpty c then none
  else some s

def run (barred : Bool → Char → Bool) (s : Level) (text : List Char) : Option Level :=
  text.foldlM (step barred) s

/-- A text that closes what it opens, with nothing barred in it. -/
def Clean (barred : Bool → Char → Bool) (text : List Char) : Prop :=
  run barred (.outside []) text = some (.outside [])

/-- A character without a meaning for the reader. -/
def Plain (c : Char) : Prop :=
  c ≠ '"' ∧ c ≠ '[' ∧ c ≠ '{' ∧ c ≠ ']' ∧ c ≠ '}'

variable {barred barred' : Bool → Char → Bool} {s s' : Level} {t u : List Char}

@[simp] theorem run_nil (barred : Bool → Char → Bool) (s : Level) : run barred s [] = some s := rfl

theorem run_cons (barred : Bool → Char → Bool) (s : Level) (c : Char) (t : List Char) :
    run barred s (c :: t) = (step barred s c).bind fun s' => run barred s' t := by
  simp [run, List.foldlM_cons, Option.bind_eq_bind]

theorem run_append (barred : Bool → Char → Bool) (s : Level) (t u : List Char) :
    run barred s (t ++ u) = (run barred s t).bind fun s' => run barred s' u := by
  simp [run, List.foldlM_append, Option.bind_eq_bind]

theorem run_cons_eq_some {c : Char} (h : run barred s (c :: t) = some s') :
    ∃ mid, step barred s c = some mid ∧ run barred mid t = some s' := by
  simpa [run_cons, Option.bind_eq_some_iff] using h

theorem run_append_eq_some (h : run barred s (t ++ u) = some s') :
    ∃ mid, run barred s t = some mid ∧ run barred mid u = some s' := by
  simpa [run_append, Option.bind_eq_some_iff] using h

theorem step_mono (hle : ∀ top c, barred' top c = true → barred top c = true) {c : Char}
    (h : step barred s c = some s') : step barred' s c = some s' := by
  have hclear : barred s.stack.isEmpty c = false → barred' s.stack.isEmpty c = false := by
    intro hb
    cases hb' : barred' s.stack.isEmpty c with
    | false => rfl
    | true => rw [hle _ _ hb'] at hb; cases hb
  unfold step at h ⊢
  grind

/-- With less barred a reader gets as far. -/
theorem run_mono (hle : ∀ top c, barred' top c = true → barred top c = true)
    (h : run barred s t = some s') : run barred' s t = some s' := by
  induction t generalizing s with
  | nil => exact h
  | cons c t ih =>
    obtain ⟨mid, hstep, hrest⟩ := run_cons_eq_some h
    rw [run_cons, step_mono hle hstep]
    exact ih hrest

/-- Under more open brackets. -/
def Level.under (s : Level) (base : List Char) : Level := { s with stack := s.stack ++ base }

theorem step_under (hle : ∀ c, barred false c = true → barred true c = true) {c : Char}
    (base : List Char) (h : step barred s c = some s') :
    step barred (s.under base) c = some (s'.under base) := by
  obtain ⟨stack, quoted, escaped⟩ := s
  cases stack with
  | nil =>
    have hclear : barred true c = false → barred base.isEmpty c = false := by
      intro hb
      cases hbase : base.isEmpty with
      | true => exact hb
      | false =>
        cases hb' : barred false c with
        | false => rfl
        | true => rw [hle c hb'] at hb; cases hb
    simp only [step, Level.under, List.isEmpty_nil, List.nil_append, List.head?_nil] at h ⊢
    grind
  | cons o stack =>
    simp only [step, Level.under, List.isEmpty_cons, List.cons_append, List.head?_cons,
      List.tail_cons] at h ⊢
    grind

/-- What is read at the top is read inside brackets. -/
theorem run_under (hle : ∀ c, barred false c = true → barred true c = true) (base : List Char)
    (h : run barred s t = some s') :
    run barred (s.under base) t = some (s'.under base) := by
  induction t generalizing s with
  | nil =>
    cases h
    rfl
  | cons c t ih =>
    obtain ⟨mid, hstep, hrest⟩ := run_cons_eq_some h
    rw [run_cons, step_under hle base hstep]
    exact ih hrest

theorem Clean.run (hle : ∀ c, barred false c = true → barred true c = true)
    (h : Clean barred t) (stack : List Char) :
    Brackets.run barred (.outside stack) t = some (.outside stack) := by
  simpa [Level.under, Level.outside] using run_under hle stack h

theorem Clean.nil : Clean barred [] := rfl

theorem Clean.append (ht : Clean barred t) (hu : Clean barred u) : Clean barred (t ++ u) := by
  unfold Clean at *
  rw [run_append, ht]
  exact hu

theorem step_plain {c : Char} (hc : Plain c) {stack : List Char}
    (hbar : barred stack.isEmpty c = false) :
    step barred (.outside stack) c = some (.outside stack) := by
  obtain ⟨h₁, h₂, h₃, h₄, h₅⟩ := hc
  simp [step, Level.outside, h₁, h₂, h₃, h₄, h₅, hbar]

theorem Clean.of_plain (h : ∀ c ∈ t, Plain c ∧ barred true c = false) : Clean barred t := by
  induction t with
  | nil => exact .nil
  | cons c t ih =>
    rw [List.forall_mem_cons] at h
    unfold Clean
    rw [run_cons, step_plain h.1.1 (by simpa using h.1.2)]
    exact ih h.2

theorem Clean.quoted (h : Brackets.run barred (.within []) t = some (.within [])) :
    Clean barred ('"' :: t ++ ['"']) := by
  unfold Clean
  rw [List.cons_append, run_cons]
  change (some (Level.within [])).bind _ = _
  rw [Option.bind_some, run_append, h, Option.bind_some]
  rfl

/-- A text in brackets is clean when it is read inside of them. -/
theorem Clean.enclosed {o c : Char} (ho : o = '[' ∧ c = ']' ∨ o = '{' ∧ c = '}')
    (h : Brackets.run barred (.outside [o]) t = some (.outside [o])) :
    Clean barred (o :: t ++ [c]) := by
  unfold Clean
  rw [List.cons_append, run_cons]
  obtain ⟨rfl, rfl⟩ | ⟨rfl, rfl⟩ := ho
  · change (some (Level.outside ['['])).bind _ = _
    rw [Option.bind_some, run_append, h, Option.bind_some]
    rfl
  · change (some (Level.outside ['{'])).bind _ = _
    rw [Option.bind_some, run_append, h, Option.bind_some]
    rfl

/-- Clean texts with a separator between them, inside brackets where it is not barred. -/
theorem run_separated (hle : ∀ c, barred false c = true → barred true c = true) {sep : Char}
    (hsep : Plain sep) (hbar : barred false sep = false) {texts : List (List Char)}
    (h : ∀ t ∈ texts, Clean barred t) (o : Char) (stack : List Char) :
    run barred (.outside (o :: stack)) (List.intercalate [sep] texts) =
      some (.outside (o :: stack)) := by
  induction texts with
  | nil => rfl
  | cons t rest ih =>
    rw [List.forall_mem_cons] at h
    have ht : run barred (.outside (o :: stack)) t = some (.outside (o :: stack)) :=
      h.1.run hle _
    cases rest with
    | nil => rwa [List.intercalate_singleton]
    | cons u rest =>
      rw [List.intercalate_cons_cons, List.append_assoc, run_append, ht, Option.bind_some,
        List.singleton_append, run_cons, step_plain hsep (by simpa using hbar)]
      exact ih h.2

/-- Whether the reader stops at the character outside of all brackets. -/
def Stops (barred : Bool → Char → Bool) (c : Char) : Prop := step barred (.outside []) c = none

theorem stops_close (barred : Bool → Char → Bool) {c : Char} (h : c = ']' ∨ c = '}') :
    Stops barred c := by
  obtain rfl | rfl := h <;> rfl

theorem stops_barred {c : Char} (hc : Plain c) (h : barred true c = true) : Stops barred c := by
  obtain ⟨h₁, h₂, h₃, h₄, h₅⟩ := hc
  simp [Stops, step, Level.outside, h₁, h₂, h₃, h₄, h₅, h]

theorem Clean.not_stopped {c : Char} (ht : Clean barred t) (h : Clean barred (t ++ c :: u)) :
    ¬Stops barred c := by
  intro hstop
  obtain ⟨mid, hmid, hrest⟩ := run_append_eq_some h
  cases ht.symm.trans hmid
  obtain ⟨next, hnext, -⟩ := run_cons_eq_some hrest
  rw [hstop] at hnext
  cases hnext

/-- A clean text ends where the reader first stops, so it ends in one place. -/
theorem Clean.cut {p q : List Char} {c d : Char} (ht : Clean barred t) (hp : Clean barred p)
    (hc : Stops barred c) (hd : Stops barred d) (h : t ++ c :: u = p ++ d :: q) :
    t = p ∧ c = d ∧ u = q := by
  obtain ⟨w, hpw, hw⟩ | ⟨w, htw, hw⟩ := List.append_eq_append_iff.mp h
  · cases w with
    | nil =>
      simp only [List.append_nil] at hpw
      simp only [List.nil_append, List.cons.injEq] at hw
      exact ⟨hpw.symm, hw⟩
    | cons x w =>
      simp only [List.cons_append, List.cons.injEq] at hw
      obtain ⟨rfl, -⟩ := hw
      rw [hpw] at hp
      exact absurd hc (ht.not_stopped hp)
  · cases w with
    | nil =>
      simp only [List.append_nil] at htw
      simp only [List.nil_append, List.cons.injEq] at hw
      exact ⟨htw, hw.1.symm, hw.2.symm⟩
    | cons x w =>
      simp only [List.cons_append, List.cons.injEq] at hw
      obtain ⟨rfl, -⟩ := hw
      rw [htw] at ht
      exact absurd hd (hp.not_stopped ht)

end Brackets
