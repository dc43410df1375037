import OpenLustre.Stdlib.Parser

/-! The levels of the grammar by binding strength, and what a level reads when
the token after an expression binds weaker. -/

namespace OpenLustre.Stdlib

open OpenLustre.Ir Parser

/-- How tight a token binds what stands before it; a token that continues no
expression does not bind at all. -/
def binding : Tok → Nat
  | .arrow => 15
  | .fatArrow => 18
  | .pipe => 26
  | .caret => 27
  | .amp => 28
  | .eq | .ne | .lt | .le | .gt | .ge => 30
  | .shl | .shr => 35
  | .plus | .minus => 40
  | .star | .slash => 50
  | .dot | .lBracket => 100
  | .lParen | .lBrace => 110
  | .ident s =>
    if s = "when" then 16
    else if s = "or" ∨ s = "xor" then 20
    else if s = "and" then 25
    else if s = "div" ∨ s = "mod" then 50
    else 0
  | _ => 0

/-- The next token binds weaker than `k`. -/
def Stops (k : Nat) (ts : List Tok) : Prop := ∀ t ∈ ts.head?, binding t < k

theorem Stops.mono {k k' : Nat} {ts : List Tok} (h : Stops k ts) (hk : k ≤ k') : Stops k' ts :=
  fun t ht => (h t ht).trans_le hk

@[simp] theorem stops_cons {k : Nat} {t : Tok} {ts : List Tok} :
    Stops k (t :: ts) ↔ binding t < k := by
  simp [Stops]

@[simp] theorem stops_nil (k : Nat) : Stops k [] := by
  simp [Stops]

/-- The parser of the expressions that bind at least as tight as `k`. -/
def atLevel (k : Nat) : Parse Expr :=
  if k ≤ 15 then parseArrow parseTokens
  else if k ≤ 16 then parseWhen parseTokens
  else if k ≤ 18 then parseImplies parseTokens
  else if k ≤ 20 then parseOr parseTokens
  else if k ≤ 25 then parseAnd parseTokens
  else if k ≤ 26 then parseBitOr parseTokens
  else if k ≤ 27 then parseBitXor parseTokens
  else if k ≤ 28 then parseBitAnd parseTokens
  else if k ≤ 30 then parseCmp parseTokens
  else if k ≤ 35 then parseShift parseTokens
  else if k ≤ 40 then parseAdd parseTokens
  else if k ≤ 50 then parseMul parseTokens
  else if k ≤ 90 then parseUnary parseTokens
  else if k ≤ 100 then parsePostfix parseTokens
  else parsePrimary parseTokens

/-- The left-associative levels and their operators. -/
def leftOps : List (Nat × (Tok → Option (Expr → Expr → Expr))) :=
  [(20, orOp), (25, andOp), (26, bitOrOp), (27, bitXorOp), (28, bitAndOp), (35, shiftOp),
    (40, addOp), (50, mulOp)]

theorem atLevel_low {k : Nat} (h : k ≤ 15) : atLevel k = parseTokens := by
  rw [parseTokens_eq]
  simp [atLevel, h]

theorem atLevel_left {k : Nat} {op : Tok → Option (Expr → Expr → Expr)} (h : (k, op) ∈ leftOps) :
    atLevel k = leftAssoc op (atLevel (k + 1)) := by
  simp only [leftOps, List.mem_cons, Prod.mk.injEq, List.not_mem_nil, or_false] at h
  rcases h with h | h | h | h | h | h | h | h <;> obtain ⟨rfl, rfl⟩ := h <;> rfl

theorem atLevel_arrow : atLevel 15 = rightAssoc arrowOp (atLevel 16) := rfl
theorem atLevel_when : atLevel 16 = chain (atLevel 17) whenStep := rfl
theorem atLevel_implies : atLevel 18 = rightAssoc impliesOp (atLevel 19) := rfl
theorem atLevel_cmp : atLevel 30 = nonAssoc cmpOp (atLevel 31) := rfl
theorem atLevel_unary : atLevel 90 = parseUnary parseTokens := rfl
theorem atLevel_postfix : atLevel 100 = chain (atLevel 101) (postfixStep parseTokens) := rfl

theorem atLevel_primary : atLevel 101 = parsePrimary parseTokens := rfl

/-- Between two levels nothing is parsed. -/
theorem atLevel_same {k : Nat}
    (h : k ∉ [15, 16, 18, 20, 25, 26, 27, 28, 30, 35, 40, 50, 90, 100]) :
    atLevel k = atLevel (k + 1) := by
  have hle : ∀ n ∈ [15, 16, 18, 20, 25, 26, 27, 28, 30, 35, 40, 50, 90, 100],
      (k ≤ n ↔ k + 1 ≤ n) := by
    intro n hn
    have hne : k ≠ n := fun heq => h (heq ▸ hn)
    omega
  simp only [List.forall_mem_cons] at hle
  obtain ⟨h15, h16, h18, h20, h25, h26, h27, h28, h30, h35, h40, h50, h90, h100, -⟩ := hle
  simp only [atLevel, h15, h16, h18, h20, h25, h26, h27, h28, h30, h35, h40, h50, h90, h100]

attribute [local simp] orOp andOp bitOrOp bitXorOp bitAndOp shiftOp addOp mulOp arrowOp impliesOp cmpOp
  binding in
theorem leftOps_binding {k : Nat} {op : Tok → Option (Expr → Expr → Expr)} (h : (k, op) ∈ leftOps)
    {t : Tok} (ht : binding t ≠ k) : op t = none := by
  simp only [leftOps, List.mem_cons, Prod.mk.injEq, List.not_mem_nil, or_false] at h
  rcases h with h | h | h | h | h | h | h | h <;> obtain ⟨rfl, rfl⟩ := h <;>
    cases t <;> simp_all [orOp, andOp, bitOrOp, bitXorOp, bitAndOp, shiftOp, addOp, mulOp, binding]
      <;> grind

theorem arrowOp_binding {t : Tok} (ht : binding t ≠ 15) : arrowOp t = none := by
  cases t <;> simp_all [arrowOp, binding]

theorem impliesOp_binding {t : Tok} (ht : binding t ≠ 18) : impliesOp t = none := by
  cases t <;> simp_all [impliesOp, binding]

theorem cmpOp_binding {t : Tok} (ht : binding t ≠ 30) : cmpOp t = none := by
  cases t <;> simp_all [cmpOp, binding]

theorem whenStep_binding {e : Expr} {ts : List Tok} (h : ∀ t ∈ ts.head?, binding t ≠ 16) :
    whenStep e ts = none := by
  unfold whenStep
  split
  · next kw ts =>
    have := h _ rfl
    split
    · simp_all [binding]
    · rfl
  · rfl

theorem postfixStep_binding {self : Parse Expr} {e : Expr} {ts : List Tok}
    (h : ∀ t ∈ ts.head?, binding t ≠ 100) : postfixStep self e ts = none := by
  unfold postfixStep
  split
  · exact absurd rfl (h _ rfl)
  · exact absurd rfl (h _ rfl)
  · exact absurd rfl (h _ rfl)
  · rfl

theorem leftOps_consumes {k : Nat} {op : Tok → Option (Expr → Expr → Expr)}
    (h : (k, op) ∈ leftOps) : (atLevel (k + 1)).Consumes := by
  have hc := parseTokens_consumes
  simp only [leftOps, List.mem_cons, Prod.mk.injEq, List.not_mem_nil, or_false] at h
  rcases h with h | h | h | h | h | h | h | h <;> obtain ⟨rfl, rfl⟩ := h
  · exact parseAnd_ensures closed_consumes hc
  · exact parseBitOr_ensures closed_consumes hc
  · exact parseBitXor_ensures closed_consumes hc
  · exact parseBitAnd_ensures closed_consumes hc
  · exact parseCmp_ensures closed_consumes hc
  · exact parseAdd_ensures closed_consumes hc
  · exact parseMul_ensures closed_consumes hc
  · exact parseUnary_ensures closed_consumes hc

theorem atLevel_arrow_consumes : (atLevel 16).Consumes :=
  parseWhen_ensures closed_consumes parseTokens_consumes

theorem atLevel_implies_consumes : (atLevel 19).Consumes :=
  parseOr_ensures closed_consumes parseTokens_consumes

/-- An expression of one level is one of the level below where the next token
binds weaker. -/
theorem atLevel_descend {k : Nat} {ts rest : List Tok} {e : Expr}
    (h : atLevel (k + 1) ts = .ok (e, rest)) (hstop : Stops k rest)
    (hpre : k = 90 → NoPrefix ts) : atLevel k ts = .ok (e, rest) := by
  have hne : ∀ t ∈ rest.head?, binding t ≠ k := fun t ht => (hstop t ht).ne
  by_cases hk : k ∈ [15, 16, 18, 20, 25, 26, 27, 28, 30, 35, 40, 50, 90, 100]
  · by_cases hleft : ∃ op, (k, op) ∈ leftOps
    · obtain ⟨op, hop⟩ := hleft
      rw [atLevel_left hop]
      exact chain_stop h (operand_stop fun t ht => leftOps_binding hop (hne t ht))
    · have hk' : k = 15 ∨ k = 16 ∨ k = 18 ∨ k = 30 ∨ k = 90 ∨ k = 100 := by
        simp only [leftOps, List.mem_cons, Prod.mk.injEq, List.not_mem_nil, or_false] at hk hleft
        grind
      rcases hk' with rfl | rfl | rfl | rfl | rfl | rfl
      · exact rightAssoc_stop h fun t ht => arrowOp_binding (hne t ht)
      · exact chain_stop h (whenStep_binding hne)
      · exact rightAssoc_stop h fun t ht => impliesOp_binding (hne t ht)
      · exact nonAssoc_stop h fun t ht => cmpOp_binding (hne t ht)
      · rw [← h]
        exact parseUnary_of_noPrefix (hpre rfl)
      · exact chain_stop h (postfixStep_binding hne)
  · rw [atLevel_same hk]
    exact h

/-- The tokens `ts` are read as `e` at level `k`, whatever follows and binds
weaker. -/
structure Reads (k : Nat) (ts : List Tok) (e : Expr) : Prop where
  read : ∀ rest, Stops k rest → atLevel k (ts ++ rest) = .ok (e, rest)
  head : 90 < k → ∀ rest, NoPrefix (ts ++ rest)

theorem Reads.descend {k k' : Nat} {ts : List Tok} {e : Expr} (h : Reads k' ts e) (hk : k ≤ k') :
    Reads k ts e := by
  induction k', hk using Nat.le_induction with
  | base => exact h
  | succ k' hk ih =>
    apply ih
    constructor
    · intro rest hstop
      exact atLevel_descend (h.read rest (hstop.mono (Nat.le_succ _))) hstop fun heq =>
        h.head (by omega) rest
    · exact fun hlt => h.head (by omega)

/-- After the tokens `ts` the left-associative level `k` has read `e` and goes on
from there. -/
def Enters (k : Nat) (step : Step ParseError Tok Expr) (ts : List Tok) (e : Expr) : Prop :=
  ∀ rest, Stops (k + 1) rest → atLevel k (ts ++ rest) = repeated step e rest

end OpenLustre.Stdlib
