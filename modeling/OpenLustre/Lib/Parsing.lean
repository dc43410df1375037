import Mathlib.Data.List.Basic
import OpenLustre.Lib.Stateful

/-! Recursive descent on a list of tokens: operator loops, right-recursive
operators and separated lists over an arbitrary operand parser.  The loops are
bounded by the tokens left, which is no bound at all for an operand parser that
reads a token whenever it returns. -/

abbrev Parser (ε τ α : Type) : Type := List τ → Except ε (α × List τ)

namespace Parser

variable {ε τ α β : Type}

/-- What holds of the tokens read, the value and the tokens left whenever `p`
returns. -/
def Ensures (p : Parser ε τ α) (Q : List τ → α → List τ → Prop) : Prop :=
  ∀ ts a rest, p ts = .ok (a, rest) → Q ts a rest

/-- Returning takes at least one token. -/
def Consumes (p : Parser ε τ α) : Prop := p.Ensures fun ts _ rest => rest.length < ts.length

/-- The two parsers do the same on at most `k` tokens. -/
def AgreeTo (k : Nat) (p q : Parser ε τ α) : Prop := ∀ ts, ts.length ≤ k → p ts = q ts

/-- One more round of a loop: `none` where the tokens do not continue it. -/
abbrev Step (ε τ α : Type) : Type := α → List τ → Option (Except ε (α × List τ))

section Loop

variable {step step' : Step ε τ α} {a a' : α} {ts rest : List τ}

def loop (step : Step ε τ α) : Nat → α → List τ → Except ε (α × List τ)
  | 0, a, ts => .ok (a, ts)
  | n + 1, a, ts =>
    match step a ts with
    | none => .ok (a, ts)
    | some r => r >>= fun x => loop step n x.1 x.2

def repeated (step : Step ε τ α) (a : α) (ts : List τ) : Except ε (α × List τ) :=
  loop step (ts.length + 1) a ts

/-- Every round takes at least one token. -/
def Step.Advances (step : Step ε τ α) : Prop :=
  ∀ a ts a' rest, step a ts = some (.ok (a', rest)) → rest.length < ts.length

attribute [local simp] loop in
theorem loop_bound (h : step.Advances) :
    ∀ n m a ts, ts.length < n → ts.length < m → loop step n a ts = loop step m a ts
  | 0, _, _, _, hn, _ => absurd hn (Nat.not_lt_zero _)
  | _, 0, _, _, _, hm => absurd hm (Nat.not_lt_zero _)
  | n + 1, m + 1, a, ts, hn, hm => by
    simp only [loop]
    cases hs : step a ts with
    | none => rfl
    | some r =>
      cases r with
      | error e => rfl
      | ok x =>
        have hlt := h a ts x.1 x.2 hs
        exact loop_bound h n m x.1 x.2 (by omega) (by omega)

theorem repeated_stop (h : step a ts = none) : repeated step a ts = .ok (a, ts) := by
  simp [repeated, loop, h]

theorem repeated_step (hstep : step.Advances) (h : step a ts = some (.ok (a', rest))) :
    repeated step a ts = repeated step a' rest := by
  have hlt := hstep a ts a' rest h
  have hbind : repeated step a ts = loop step ts.length a' rest := by
    simp only [repeated, loop, h]
    rfl
  rw [hbind]
  exact loop_bound hstep _ _ a' rest hlt (Nat.lt_succ_self _)

theorem loop_ensures {Q : α → List τ → Prop}
    (hstep : ∀ a ts a' rest, Q a ts → step a ts = some (.ok (a', rest)) → Q a' rest) :
    ∀ n a ts a' rest, Q a ts → loop step n a ts = .ok (a', rest) → Q a' rest
  | 0, a, ts, a', rest, hQ, h => by
    cases h
    exact hQ
  | n + 1, a, ts, a', rest, hQ, h => by
    simp only [loop] at h
    cases hs : step a ts with
    | none =>
      rw [hs] at h
      cases h
      exact hQ
    | some r =>
      rw [hs] at h
      obtain ⟨x, rfl, hx⟩ := Except.bind_eq_ok.mp h
      exact loop_ensures hstep n x.1 x.2 a' rest (hstep a ts x.1 x.2 hQ hs) hx

theorem loop_congr {k : Nat} (hstep : step.Advances)
    (h : ∀ a ts, ts.length ≤ k → step a ts = step' a ts) :
    ∀ n a ts, ts.length ≤ k → loop step n a ts = loop step' n a ts
  | 0, _, _, _ => rfl
  | n + 1, a, ts, hk => by
    simp only [loop, ← h a ts hk]
    cases hs : step a ts with
    | none => rfl
    | some r =>
      cases r with
      | error e => rfl
      | ok x =>
        have hlt := hstep a ts x.1 x.2 hs
        exact loop_congr hstep h n x.1 x.2 (by omega)

end Loop

section Chain

variable {sub sub' : Parser ε τ α} {step step' : Step ε τ α}

/-- An operand and as many rounds of a loop as the tokens allow. -/
def chain (sub : Parser ε τ α) (step : Step ε τ α) : Parser ε τ α := fun ts =>
  sub ts >>= fun x => repeated step x.1 x.2

theorem chain_eq {ts rest : List τ} {a : α} (h : sub ts = .ok (a, rest)) :
    chain sub step ts = repeated step a rest := by
  simp only [chain, h]
  rfl

theorem chain_error {ts : List τ} {e : ε} (h : sub ts = .error e) :
    chain sub step ts = .error e := by
  simp only [chain, h]
  rfl

theorem chain_stop {ts rest : List τ} {a : α} (h : sub ts = .ok (a, rest))
    (hstop : step a rest = none) : chain sub step ts = .ok (a, rest) := by
  rw [chain_eq h, repeated_stop hstop]

theorem chain_ensures {Q : List τ → α → List τ → Prop} (hsub : sub.Ensures Q)
    (hstep : ∀ ts a mid a' rest, Q ts a mid → step a mid = some (.ok (a', rest)) →
      Q ts a' rest) :
    (chain sub step).Ensures Q := by
  intro ts a' rest h
  obtain ⟨x, hx, hr⟩ := Except.bind_eq_ok.mp h
  exact loop_ensures (Q := fun a mid => Q ts a mid) (fun a mid => hstep ts a mid) _ _ _ _ _
    (hsub ts x.1 x.2 hx) hr

theorem chain_congr {k : Nat} {ts : List τ} (hsub : sub ts = sub' ts)
    (hc : ∀ a rest, sub ts = .ok (a, rest) → rest.length ≤ k) (hstep : step.Advances)
    (h : ∀ a ts, ts.length ≤ k → step a ts = step' a ts) :
    chain sub step ts = chain sub' step' ts := by
  simp only [chain, ← hsub]
  cases hs : sub ts with
  | error e => rfl
  | ok x => exact loop_congr hstep h _ _ _ (hc x.1 x.2 hs)

end Chain

section Operators

variable {op : τ → Option (α → α → α)} {sub sub' : Parser ε τ α}

/-- An operator and its right operand. -/
def operand (op : τ → Option (α → α → α)) (sub : Parser ε τ α) : Step ε τ α
  | _, [] => none
  | lhs, t :: ts => (op t).map fun f => (sub ts).map fun x => (f lhs x.1, x.2)

/-- Operands separated by left-associative operators of one level. -/
def leftAssoc (op : τ → Option (α → α → α)) (sub : Parser ε τ α) : Parser ε τ α :=
  chain sub (operand op sub)

attribute [local simp] operand in
theorem operand_eq_ok {lhs a : α} {ts rest : List τ} :
    operand op sub lhs ts = some (.ok (a, rest)) ↔
      ∃ t ts' f rhs, ts = t :: ts' ∧ op t = some f ∧ sub ts' = .ok (rhs, rest) ∧ a = f lhs rhs := by
  cases ts with
  | nil => simp [operand]
  | cons t ts =>
    cases ht : op t with
    | none => simp [operand, ht]
    | some f =>
      simp only [operand, ht, Option.map_some, Option.some.injEq, Except.map_eq_ok, Prod.mk.injEq]
      constructor
      · rintro ⟨x, hx, rfl, rfl⟩
        exact ⟨t, ts, f, x.1, rfl, ht, hx, rfl⟩
      · rintro ⟨t', ts', f', rhs, heq, hf, hsub, rfl⟩
        cases heq
        rw [ht] at hf
        cases hf
        exact ⟨(rhs, rest), hsub, rfl, rfl⟩

theorem operand_stop {lhs : α} {ts : List τ} (h : ∀ t ∈ ts.head?, op t = none) :
    operand op sub lhs ts = none := by
  cases ts with
  | nil => rfl
  | cons t ts => simp [operand, h t rfl]

theorem operand_advances (h : sub.Consumes) : (operand op sub).Advances := by
  intro a ts a' rest hs
  obtain ⟨t, ts', f, rhs, rfl, -, hr, -⟩ := operand_eq_ok.mp hs
  have := h ts' rhs rest hr
  simp only [List.length_cons]
  omega

/-- The closure of `Q` under an operator between two operands. -/
def ClosedUnder (Q : List τ → α → List τ → Prop) (op : τ → Option (α → α → α)) : Prop :=
  ∀ ts t mid f l r rest, op t = some f → Q ts l (t :: mid) → Q mid r rest → Q ts (f l r) rest

theorem leftAssoc_ensures {Q : List τ → α → List τ → Prop} (hsub : sub.Ensures Q)
    (hQ : ClosedUnder Q op) : (leftAssoc op sub).Ensures Q := by
  apply chain_ensures hsub
  intro ts a mid a' rest ha hs
  obtain ⟨t, mid', f, rhs, rfl, hf, hr, rfl⟩ := operand_eq_ok.mp hs
  exact hQ ts t mid' f a rhs rest hf ha (hsub mid' rhs rest hr)

theorem leftAssoc_congr {k : Nat} (h : AgreeTo k sub sub') (hc : sub.Consumes) :
    AgreeTo k (leftAssoc op sub) (leftAssoc op sub') := by
  intro ts hk
  apply chain_congr (k := k) (h ts hk) _ (operand_advances hc)
  · intro a ts hk
    cases ts with
    | nil => rfl
    | cons t ts => simp only [operand, h ts (by simp at hk; omega)]
  · intro a rest hs
    have := hc ts a rest hs
    omega

/-- Operands separated by right-associative operators of one level. -/
def rightAssocN (op : τ → Option (α → α → α)) (sub : Parser ε τ α) : Nat → Parser ε τ α
  | 0 => sub
  | n + 1 => fun ts => sub ts >>= fun x =>
    match x.2 with
    | [] => .ok x
    | t :: rest =>
      match op t with
      | none => .ok x
      | some f => (rightAssocN op sub n rest).map fun y => (f x.1 y.1, y.2)

def rightAssoc (op : τ → Option (α → α → α)) (sub : Parser ε τ α) : Parser ε τ α := fun ts =>
  rightAssocN op sub (ts.length + 1) ts

attribute [local simp] rightAssocN in
theorem rightAssocN_bound (hc : sub.Consumes) :
    ∀ n m ts, ts.length < n → ts.length < m → rightAssocN op sub n ts = rightAssocN op sub m ts
  | 0, _, _, hn, _ => absurd hn (Nat.not_lt_zero _)
  | _, 0, _, _, hm => absurd hm (Nat.not_lt_zero _)
  | n + 1, m + 1, ts, hn, hm => by
    simp only [rightAssocN]
    cases hs : sub ts with
    | error e => rfl
    | ok x =>
      obtain ⟨a, rest⟩ := x
      have hlt := hc ts a rest hs
      cases rest with
      | nil => rfl
      | cons t rest =>
        simp only [List.length_cons] at hlt
        simp only [bind, Except.bind, rightAssocN_bound hc n m rest (by omega) (by omega)]

theorem rightAssoc_error {ts : List τ} {e : ε} (h : sub ts = .error e) :
    rightAssoc op sub ts = .error e := by
  simp only [rightAssoc, rightAssocN, h]
  rfl

theorem rightAssoc_stop {ts rest : List τ} {a : α} (h : sub ts = .ok (a, rest))
    (hstop : ∀ t ∈ rest.head?, op t = none) : rightAssoc op sub ts = .ok (a, rest) := by
  simp only [rightAssoc, rightAssocN, h]
  cases rest with
  | nil => rfl
  | cons t rest => simp [bind, Except.bind, hstop t rfl]

theorem rightAssocN_step {n : Nat} {ts rest : List τ} {t : τ} {a : α} {f : α → α → α}
    (h : sub ts = .ok (a, t :: rest)) (hf : op t = some f) :
    rightAssocN op sub (n + 1) ts = (rightAssocN op sub n rest).map fun y => (f a y.1, y.2) := by
  simp only [rightAssocN, h, bind, Except.bind, hf]

theorem rightAssoc_step (hc : sub.Consumes) {ts rest : List τ} {t : τ} {a : α} {f : α → α → α}
    (h : sub ts = .ok (a, t :: rest)) (hf : op t = some f) :
    rightAssoc op sub ts = (rightAssoc op sub rest).map fun y => (f a y.1, y.2) := by
  have hlt := hc ts a (t :: rest) h
  simp only [List.length_cons] at hlt
  rw [rightAssoc, rightAssocN_step h hf,
    rightAssocN_bound hc ts.length (rest.length + 1) rest (by omega) (Nat.lt_succ_self _)]
  rfl

theorem rightAssocN_ensures {Q : List τ → α → List τ → Prop} (hsub : sub.Ensures Q)
    (hQ : ClosedUnder Q op) : ∀ n, (rightAssocN op sub n).Ensures Q
  | 0 => hsub
  | n + 1 => by
    intro ts a rest h
    simp only [rightAssocN] at h
    obtain ⟨⟨l, mid⟩, hl, hr⟩ := Except.bind_eq_ok.mp h
    cases mid with
    | nil =>
      cases hr
      exact hsub ts _ _ hl
    | cons t mid =>
      cases ht : op t with
      | none =>
        simp only [ht] at hr
        cases hr
        exact hsub ts _ _ hl
      | some f =>
        simp only [ht, Except.map_eq_ok, Prod.mk.injEq] at hr
        obtain ⟨y, hy, rfl, rfl⟩ := hr
        exact hQ ts t mid f l y.1 y.2 ht (hsub ts l _ hl)
          (rightAssocN_ensures hsub hQ n mid y.1 y.2 hy)

theorem rightAssoc_ensures {Q : List τ → α → List τ → Prop} (hsub : sub.Ensures Q)
    (hQ : ClosedUnder Q op) : (rightAssoc op sub).Ensures Q :=
  fun ts => rightAssocN_ensures hsub hQ _ ts

theorem rightAssocN_congr {k : Nat} (h : AgreeTo k sub sub') (hc : sub.Consumes) :
    ∀ n, AgreeTo k (rightAssocN op sub n) (rightAssocN op sub' n)
  | 0 => h
  | n + 1 => by
    intro ts hk
    simp only [rightAssocN, ← h ts hk]
    cases hs : sub ts with
    | error e => rfl
    | ok x =>
      obtain ⟨a, rest⟩ := x
      have hlt := hc ts a rest hs
      cases rest with
      | nil => rfl
      | cons t rest =>
        simp only [List.length_cons] at hlt
        simp only [bind, Except.bind, rightAssocN_congr h hc n rest (by omega)]

theorem rightAssoc_congr {k : Nat} (h : AgreeTo k sub sub') (hc : sub.Consumes) :
    AgreeTo k (rightAssoc op sub) (rightAssoc op sub') :=
  fun ts => rightAssocN_congr h hc _ ts

/-- One operand, or two around an operator. -/
def nonAssoc (op : τ → Option (α → α → α)) (sub : Parser ε τ α) : Parser ε τ α := fun ts =>
  sub ts >>= fun x => (operand op sub x.1 x.2).getD (.ok x)

attribute [local simp] nonAssoc in
theorem nonAssoc_error {ts : List τ} {e : ε} (h : sub ts = .error e) :
    nonAssoc op sub ts = .error e := by
  simp only [nonAssoc, h]
  rfl

theorem nonAssoc_stop {ts rest : List τ} {a : α} (h : sub ts = .ok (a, rest))
    (hstop : ∀ t ∈ rest.head?, op t = none) : nonAssoc op sub ts = .ok (a, rest) := by
  simp [nonAssoc, h, bind, Except.bind, operand_stop hstop]

theorem nonAssoc_step {ts mid rest : List τ} {t : τ} {a b : α} {f : α → α → α}
    (h : sub ts = .ok (a, t :: mid)) (hf : op t = some f) (hr : sub mid = .ok (b, rest)) :
    nonAssoc op sub ts = .ok (f a b, rest) := by
  simp [nonAssoc, h, bind, Except.bind, operand, hf, hr, Except.map]

theorem nonAssoc_ensures {Q : List τ → α → List τ → Prop} (hsub : sub.Ensures Q)
    (hQ : ClosedUnder Q op) : (nonAssoc op sub).Ensures Q := by
  intro ts a rest h
  obtain ⟨⟨l, mid⟩, hl, hr⟩ := Except.bind_eq_ok.mp h
  cases ho : operand op sub l mid with
  | none =>
    simp only [ho, Option.getD_none] at hr
    cases hr
    exact hsub ts _ _ hl
  | some r =>
    simp only [ho, Option.getD_some] at hr
    subst hr
    obtain ⟨t, mid', f, rhs, rfl, hf, hs, rfl⟩ := operand_eq_ok.mp ho
    exact hQ ts t mid' f l rhs rest hf (hsub ts l _ hl) (hsub mid' rhs rest hs)

theorem nonAssoc_congr {k : Nat} (h : AgreeTo k sub sub') (hc : sub.Consumes) :
    AgreeTo k (nonAssoc op sub) (nonAssoc op sub') := by
  intro ts hk
  simp only [nonAssoc, ← h ts hk]
  cases hs : sub ts with
  | error e => rfl
  | ok x =>
    obtain ⟨a, rest⟩ := x
    have hlt := hc ts a rest hs
    cases rest with
    | nil => rfl
    | cons t rest =>
      simp only [List.length_cons] at hlt
      simp only [bind, Except.bind, operand, h rest (by omega)]

end Operators

section Separated

variable {sep : τ → Bool} {item item' : Parser ε τ α}

/-- One item, and one more after each separator. -/
def sepByN (sep : τ → Bool) (item : Parser ε τ α) : Nat → Parser ε τ (List α)
  | 0 => fun ts => (item ts).map fun x => ([x.1], x.2)
  | n + 1 => fun ts => item ts >>= fun x =>
    match x.2 with
    | [] => .ok ([x.1], [])
    | t :: rest =>
      if sep t then (sepByN sep item n rest).map fun y => (x.1 :: y.1, y.2)
      else .ok ([x.1], t :: rest)

def sepBy (sep : τ → Bool) (item : Parser ε τ α) : Parser ε τ (List α) := fun ts =>
  sepByN sep item (ts.length + 1) ts

attribute [local simp] sepByN in
theorem sepByN_bound (hc : item.Consumes) :
    ∀ n m ts, ts.length < n → ts.length < m → sepByN sep item n ts = sepByN sep item m ts
  | 0, _, _, hn, _ => absurd hn (Nat.not_lt_zero _)
  | _, 0, _, _, hm => absurd hm (Nat.not_lt_zero _)
  | n + 1, m + 1, ts, hn, hm => by
    simp only [sepByN]
    cases hs : item ts with
    | error e => rfl
    | ok x =>
      obtain ⟨a, rest⟩ := x
      have hlt := hc ts a rest hs
      cases rest with
      | nil => rfl
      | cons t rest =>
        simp only [List.length_cons] at hlt
        simp only [bind, Except.bind, sepByN_bound hc n m rest (by omega) (by omega)]

theorem sepBy_one {ts rest : List τ} {a : α} (h : item ts = .ok (a, rest))
    (hstop : ∀ t ∈ rest.head?, sep t = false) : sepBy sep item ts = .ok ([a], rest) := by
  simp only [sepBy, sepByN, h]
  cases rest with
  | nil => rfl
  | cons t rest => simp [bind, Except.bind, hstop t rfl]

theorem sepByN_cons {n : Nat} {ts rest : List τ} {t : τ} {a : α}
    (h : item ts = .ok (a, t :: rest)) (ht : sep t = true) :
    sepByN sep item (n + 1) ts = (sepByN sep item n rest).map fun y => (a :: y.1, y.2) := by
  simp only [sepByN, h, bind, Except.bind, ht, if_true]

theorem sepBy_cons (hc : item.Consumes) {ts rest : List τ} {t : τ} {a : α}
    (h : item ts = .ok (a, t :: rest)) (ht : sep t = true) :
    sepBy sep item ts = (sepBy sep item rest).map fun y => (a :: y.1, y.2) := by
  have hlt := hc ts a (t :: rest) h
  simp only [List.length_cons] at hlt
  rw [sepBy, sepByN_cons h ht,
    sepByN_bound hc ts.length (rest.length + 1) rest (by omega) (Nat.lt_succ_self _)]
  rfl

theorem sepByN_ensures {Q : List τ → α → List τ → Prop} {Qs : List τ → List α → List τ → Prop}
    (hitem : item.Ensures Q) (one : ∀ ts a rest, Q ts a rest → Qs ts [a] rest)
    (more : ∀ ts a t mid as rest, sep t = true → Q ts a (t :: mid) → Qs mid as rest →
      Qs ts (a :: as) rest) : ∀ n, (sepByN sep item n).Ensures Qs
  | 0 => by
    intro ts as rest h
    simp only [sepByN, Except.map_eq_ok, Prod.mk.injEq] at h
    obtain ⟨x, hx, rfl, rfl⟩ := h
    exact one ts x.1 x.2 (hitem ts x.1 x.2 hx)
  | n + 1 => by
    intro ts as rest h
    simp only [sepByN] at h
    obtain ⟨⟨a, mid⟩, ha, hr⟩ := Except.bind_eq_ok.mp h
    have hQ := hitem ts a mid ha
    cases mid with
    | nil =>
      cases hr
      exact one ts a [] hQ
    | cons t mid =>
      cases ht : sep t with
      | false =>
        simp only [ht, Bool.false_eq_true, if_false] at hr
        cases hr
        exact one ts a _ hQ
      | true =>
        simp only [ht, if_true, Except.map_eq_ok, Prod.mk.injEq] at hr
        obtain ⟨y, hy, rfl, rfl⟩ := hr
        exact more ts a t mid y.1 y.2 ht hQ (sepByN_ensures hitem one more n mid y.1 y.2 hy)

theorem sepBy_ensures {Q : List τ → α → List τ → Prop} {Qs : List τ → List α → List τ → Prop}
    (hitem : item.Ensures Q) (one : ∀ ts a rest, Q ts a rest → Qs ts [a] rest)
    (more : ∀ ts a t mid as rest, sep t = true → Q ts a (t :: mid) → Qs mid as rest →
      Qs ts (a :: as) rest) : (sepBy sep item).Ensures Qs :=
  fun ts => sepByN_ensures hitem one more _ ts

theorem sepByN_congr {k : Nat} (h : AgreeTo k item item') (hc : item.Consumes) :
    ∀ n, AgreeTo k (sepByN sep item n) (sepByN sep item' n)
  | 0 => fun ts hk => by simp only [sepByN, h ts hk]
  | n + 1 => by
    intro ts hk
    simp only [sepByN, ← h ts hk]
    cases hs : item ts with
    | error e => rfl
    | ok x =>
      obtain ⟨a, rest⟩ := x
      have hlt := hc ts a rest hs
      cases rest with
      | nil => rfl
      | cons t rest =>
        simp only [List.length_cons] at hlt
        simp only [bind, Except.bind, sepByN_congr h hc n rest (by omega)]

theorem sepBy_congr {k : Nat} (h : AgreeTo k item item') (hc : item.Consumes) :
    AgreeTo k (sepBy sep item) (sepBy sep item') :=
  fun ts => sepByN_congr h hc _ ts

end Separated

end Parser
