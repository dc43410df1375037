import Mathlib.Data.List.Nodup
import OpenLustre.LustreEmit.Format
import OpenLustre.Stdlib.Levels
import OpenLustre.Stdlib.Parsed

/-! The tokens of a printed expression, and the expression the parser reads
from them. -/

namespace OpenLustre.LustreEmit

open OpenLustre.Ir OpenLustre.Stdlib Parser

def literalToks : Literal → List Tok
  | .bool value => [.ident (toString value)]
  | .int n => [.int n]
  | .float f => if f.isInf then [.ident "inf", .dot, .int 0] else [.float f]
  | .char b => [.charLit b]

/-- The operator between the operands of an infix operator. -/
def binOpTok : BinOp → Tok
  | .or => .ident "or"
  | .xor => .ident "xor"
  | .and => .ident "and"
  | .implies => .fatArrow
  | .eq => .eq
  | .neq => .ne
  | .lt => .lt
  | .le => .le
  | .gt => .gt
  | .ge => .ge
  | .add => .plus
  | .sub => .minus
  | .mul => .star
  | .div => .slash
  | .mod => .ident "mod"
  | .bitAnd | .bitOr | .bitXor | .shl | .shr => .ident ""

/-- A point after an integer is the point of a floating-point literal. -/
def fieldToks (base : Expr) (ts : List Tok) (f : String) : List Tok :=
  match base with
  | .const (.int n) => [.float (floatLiteral (Nat.toDigits 10 n.toNat) []), .ident f]
  | _ => ts ++ [.dot, .ident f]

def clockToks (clock : String) (on : Bool) : List Tok :=
  if on then [.ident "when", .ident clock] else [.ident "when", .ident "not", .ident clock]

def wrap (p : Nat) (ts : List Tok) (prec : Nat) : List Tok :=
  if prec < p then .lParen :: (ts ++ [.rParen]) else ts

def joinToks (sep : Tok) : List (List Tok) → List Tok
  | [] => []
  | [ts] => ts
  | ts :: rest => ts ++ sep :: joinToks sep rest

mutual

/-- The tokens of `formatExprPrec`. -/
def toks : Expr → Nat → List Tok
  | .const lit, p => wrap p (literalToks lit) 100
  | .var name, p => wrap p [.ident name] 100
  | .unary .not arg, p => wrap p (.ident "not" :: toks arg 90) 90
  | .unary .neg arg, p => wrap p (.minus :: toks arg 90) 90
  | .binary op lhs rhs, p =>
    match bitOpName op with
    | some fname =>
      wrap p (.ident fname :: .lParen :: (toks lhs 0 ++ .comma :: (toks rhs 0 ++ [.rParen]))) 100
    | none =>
      let prec := (binOpSyntax op).2
      wrap p (toks lhs prec ++ binOpTok op :: toks rhs (prec + 1)) prec
  | .ifThenElse c t e, p =>
    wrap p (.ident "if" :: (toks c 0 ++ .ident "then" :: (toks t 0 ++ .ident "else" :: toks e 0))) 5
  | .pre arg, p => wrap p (.ident "pre" :: toks arg 80) 80
  | .arrow init body, p => wrap p (toks init 15 ++ .arrow :: toks body 14) 15
  | .call node args, p =>
    wrap p (.ident node :: .lParen :: (joinToks .comma (partsToks args) ++ [.rParen])) 100
  | .field base f, p => wrap p (fieldToks base (toks base 100) f) 100
  | .index base i, p => wrap p (toks base 100 ++ .lBracket :: (toks i 0 ++ [.rBracket])) 100
  | .tuple items, p => wrap p (.lParen :: (joinToks .comma (partsToks items) ++ [.rParen])) 100
  | .array items, p => wrap p (.lBracket :: (joinToks .semi (partsToks items) ++ [.rBracket])) 100
  | .struct ty fields, p =>
    wrap p (.ident ty :: .lBrace :: (joinToks .comma (fieldsToks fields) ++ [.rBrace])) 100
  | .cast target arg, p =>
    wrap p (.ident (castTypeName target) :: .lParen :: (toks arg 0 ++ [.rParen])) 100
  | .when arg clock on, p => wrap p (toks arg 16 ++ clockToks clock on) 16
  | .merge clock t e, p =>
    wrap p (.ident "merge" :: .lParen :: .ident clock :: .comma ::
      (toks t 0 ++ .comma :: (toks e 0 ++ [.rParen]))) 100
  | .iterate kind node none arrays, p =>
    wrap p (.ident (iterName kind) :: .lParen ::
      (joinToks .comma ([.ident node] :: partsToks arrays) ++ [.rParen])) 100
  | .iterate kind node (some init) arrays, p =>
    wrap p (.ident (iterName kind) :: .lParen ::
      (joinToks .comma ([.ident node] :: toks init 0 :: partsToks arrays) ++ [.rParen])) 100

def partsToks : List Expr → List (List Tok)
  | [] => []
  | e :: es => toks e 0 :: partsToks es

def fieldsToks : List (String × Expr) → List (List Tok)
  | [] => []
  | (f, e) :: fields => (.ident f :: .colon :: toks e 0) :: fieldsToks fields

end

/-- The precedence of the printed form. -/
def precedence : Expr → Nat
  | .unary _ _ => 90
  | .binary op _ _ => if (bitOpName op).isSome then 100 else (binOpSyntax op).2
  | .ifThenElse _ _ _ => 5
  | .pre _ => 80
  | .arrow _ _ => 15
  | .when _ _ _ => 16
  | _ => 100

theorem toks_eq_wrap (e : Expr) (p : Nat) : toks e p = wrap p (toks e 0) (precedence e) := by
  cases e with
  | unary op arg => cases op <;> simp [toks, precedence, wrap]
  | binary op lhs rhs =>
    cases h : bitOpName op <;> simp [toks, precedence, wrap, h]
  | iterate kind node init arrays => cases init <;> simp [toks, precedence, wrap]
  | _ => simp [toks, precedence, wrap]

theorem toks_of_le {e : Expr} {p : Nat} (h : p ≤ precedence e) : toks e p = toks e 0 := by
  rw [toks_eq_wrap, wrap, if_neg (Nat.not_lt.mpr h)]

theorem toks_of_lt {e : Expr} {p : Nat} (h : precedence e < p) :
    toks e p = .lParen :: (toks e 0 ++ [.rParen]) := by
  rw [toks_eq_wrap, wrap, if_pos h]

/-- What the printed text of an operand is followed by. -/
inductive Cont
  | top
  | arrow (body : Expr)
  | implies (rhs : Expr)

def Cont.plug : Cont → Expr → Expr
  | .top, e => e
  | .arrow body, e => .arrow e body
  | .implies rhs, e => .binary .implies e rhs

mutual

/-- The expression that the printed form is read as: an arrow printed before an
arrow, and an implication before an implication, associate to the right. -/
def reread : Expr → Cont → Expr
  | .const lit, k => k.plug (.const lit)
  | .var name, k => k.plug (.var name)
  | .unary op arg, k => k.plug (.unary op (reread arg .top))
  | .binary op lhs rhs, k =>
    if op = .implies then
      match k with
      | .implies y => reread lhs (.implies (.binary .implies (reread rhs .top) y))
      | k => k.plug (reread lhs (.implies (reread rhs .top)))
    else k.plug (.binary op (reread lhs .top) (reread rhs .top))
  | .ifThenElse c t e, k => k.plug (.ifThenElse (reread c .top) (reread t .top) (reread e .top))
  | .pre arg, k => k.plug (.pre (reread arg .top))
  | .arrow init body, .arrow y => reread init (.arrow (reread body (.arrow y)))
  | .arrow init body, k => k.plug (reread init (.arrow (reread body .top)))
  | .call node args, k => k.plug (.call node (rereadList args))
  | .field base f, k => k.plug (.field (reread base .top) f)
  | .index base i, k => k.plug (.index (reread base .top) (reread i .top))
  | .tuple items, k => k.plug (.tuple (rereadList items))
  | .array items, k => k.plug (.array (rereadList items))
  | .struct ty fields, k => k.plug (.struct ty (rereadFields fields))
  | .cast target arg, k => k.plug (.cast target (reread arg .top))
  | .when arg clock on, k => k.plug (.when (reread arg .top) clock on)
  | .merge clock t e, k => k.plug (.merge clock (reread t .top) (reread e .top))
  | .iterate kind node none arrays, k => k.plug (.iterate kind node none (rereadList arrays))
  | .iterate kind node (some init) arrays, k =>
    k.plug (.iterate kind node (some (reread init .top)) (rereadList arrays))

def rereadList : List Expr → List Expr
  | [] => []
  | e :: es => reread e .top :: rereadList es

def rereadFields : List (String × Expr) → List (String × Expr)
  | [] => []
  | (f, e) :: fields => (f, reread e .top) :: rereadFields fields

end

theorem reread_arrow {e : Expr} (h : precedence e ≠ 15) (y : Expr) :
    reread e (.arrow y) = .arrow (reread e .top) y := by
  cases e with
  | arrow => exact absurd rfl h
  | binary op lhs rhs => by_cases hop : op = .implies <;> simp [reread, hop, Cont.plug]
  | iterate kind node init arrays => cases init <;> simp [reread, Cont.plug]
  | _ => simp [reread, Cont.plug]

theorem reread_implies {e : Expr} (h : precedence e ≠ 18) (y : Expr) :
    reread e (.implies y) = .binary .implies (reread e .top) y := by
  cases e with
  | binary op lhs rhs =>
    by_cases hop : op = .implies
    · subst hop
      exact absurd rfl h
    · simp [reread, hop, Cont.plug]
  | iterate kind node init arrays => cases init <;> simp [reread, Cont.plug]
  | _ => simp [reread, Cont.plug]

/-- The levels that loop, with one round of the loop. -/
def loops : List (Nat × Step ParseError Tok Expr) :=
  (16, whenStep) :: (100, postfixStep parseTokens) ::
    leftOps.map fun x => (x.1, operand x.2 (atLevel (x.1 + 1)))

theorem loops_eq {k : Nat} {step : Step ParseError Tok Expr} (h : (k, step) ∈ loops) :
    atLevel k = chain (atLevel (k + 1)) step := by
  simp only [loops, List.mem_cons, Prod.mk.injEq, List.mem_map, Prod.exists] at h
  rcases h with ⟨rfl, rfl⟩ | ⟨rfl, rfl⟩ | ⟨k', op, hop, rfl, rfl⟩
  · exact atLevel_when
  · exact atLevel_postfix
  · exact atLevel_left hop

theorem loops_stop {k : Nat} {step : Step ParseError Tok Expr} (h : (k, step) ∈ loops) (e : Expr)
    {rest : List Tok} (hstop : Stops k rest) : step e rest = none := by
  have hne : ∀ t ∈ rest.head?, binding t ≠ k := fun t ht => (hstop t ht).ne
  simp only [loops, List.mem_cons, Prod.mk.injEq, List.mem_map, Prod.exists] at h
  rcases h with ⟨rfl, rfl⟩ | ⟨rfl, rfl⟩ | ⟨k', op, hop, rfl, rfl⟩
  · exact whenStep_binding hne
  · exact postfixStep_binding hne
  · exact operand_stop fun t ht => leftOps_binding hop (hne t ht)

theorem loops_unique {k : Nat} {step step' : Step ParseError Tok Expr} (h : (k, step) ∈ loops)
    (h' : (k, step') ∈ loops) : step = step' := by
  have hkeys : (loops.map Prod.fst).Nodup := by simp [loops, leftOps]
  exact (Prod.mk.inj (List.inj_on_of_nodup_map hkeys h h' rfl)).2

theorem enters_of_reads {k : Nat} {step : Step ParseError Tok Expr} (h : (k, step) ∈ loops)
    {ts : List Tok} {e : Expr} (hr : Reads (k + 1) ts e) : Enters k step ts e := by
  intro rest hstop
  rw [loops_eq h]
  exact chain_eq (hr.read rest hstop)

theorem precedence_pos (e : Expr) : 5 ≤ precedence e := by
  cases e with
  | binary op lhs rhs => cases op <;> simp [precedence, bitOpName, binOpSyntax]
  | _ => simp [precedence]

theorem Reads.inside {ts : List Tok} {e : Expr} {k : Nat} {t : Tok} (h : Reads k ts e)
    (hk : 5 ≤ k) (ht : binding t = 0) (rest : List Tok) : parseTokens (ts ++ t :: rest) = .ok (e, t :: rest) := by
  rw [← atLevel_low (k := 5) (by omega)]
  exact (h.descend hk).read _ (by simp [ht])

theorem reads_paren {ts : List Tok} {e : Expr} {k : Nat} (h : Reads k ts e) (hk : 5 ≤ k) :
    Reads 101 (.lParen :: (ts ++ [.rParen])) e := by
  constructor
  · intro rest _
    simp only [List.cons_append, List.append_assoc, List.nil_append, atLevel_primary,
      parsePrimary_lParen, Reads.inside h hk (t := .rParen) rfl rest]
    rfl
  · intro _ rest
    simp [NoPrefix]

/-- A printed form is read at every level its context asks for. -/
theorem reads_at {e e' : Expr} (h : Reads (precedence e) (toks e 0) e') {p k : Nat} (hk : k ≤ 101)
    (hp : p ≤ precedence e → k ≤ precedence e) : Reads k (toks e p) e' := by
  by_cases hle : p ≤ precedence e
  · rw [toks_of_le hle]
    exact h.descend (hp hle)
  · rw [toks_of_lt (Nat.lt_of_not_le hle)]
    exact (reads_paren h (precedence_pos e)).descend hk

/-- The printed form of `e` is read as `reread e`, at its own level and as the
first operand of an operator. -/
structure Printed (e : Expr) : Prop where
  reads : Reads (precedence e) (toks e 0) (reread e .top)
  enters : ∀ step, (precedence e, step) ∈ loops →
    Enters (precedence e) step (toks e 0) (reread e .top)
  arrow : ∀ ts b rest, parseTokens ts = .ok (b, rest) →
    parseTokens (toks e 15 ++ .arrow :: ts) = .ok (reread e (.arrow b), rest)
  implies : ∀ ts r rest, atLevel 18 ts = .ok (r, rest) →
    atLevel 18 (toks e 18 ++ .fatArrow :: ts) = .ok (reread e (.implies r), rest)

theorem Printed.inside {e : Expr} (h : Printed e) {t : Tok} (ht : binding t = 0)
    (rest : List Tok) : parseTokens (toks e 0 ++ t :: rest) = .ok (reread e .top, t :: rest) :=
  Reads.inside h.reads (precedence_pos e) ht rest

/-- A printed first operand of a looping level starts the loop. -/
theorem Printed.enters_at {e : Expr} (h : Printed e) {k : Nat} (step : Step ParseError Tok Expr)
    (hk : (k, step) ∈ loops) (hle : k ≤ 100) : Enters k step (toks e k) (reread e .top) := by
  by_cases heq : k = precedence e
  · subst heq
    rw [toks_of_le le_rfl]
    exact h.enters step hk
  · exact enters_of_reads hk (reads_at h.reads (by omega) (by omega))

theorem arrow_of_reads {e : Expr} (h : Reads (precedence e) (toks e 0) (reread e .top))
    (hne : precedence e ≠ 15) {ts rest : List Tok} {b : Expr}
    (hts : parseTokens ts = .ok (b, rest)) :
    parseTokens (toks e 15 ++ .arrow :: ts) = .ok (reread e (.arrow b), rest) := by
  rw [← atLevel_low (k := 15) le_rfl] at hts ⊢
  rw [atLevel_arrow] at hts ⊢
  rw [rightAssoc_step atLevel_arrow_consumes
    ((reads_at h (p := 15) (k := 16) (by omega) (by omega)).read _ (by simp [binding])) rfl, hts,
    reread_arrow hne]
  rfl

theorem implies_of_reads {e : Expr} (h : Reads (precedence e) (toks e 0) (reread e .top))
    (hne : precedence e ≠ 18) {ts rest : List Tok} {r : Expr}
    (hts : atLevel 18 ts = .ok (r, rest)) :
    atLevel 18 (toks e 18 ++ .fatArrow :: ts) = .ok (reread e (.implies r), rest) := by
  rw [atLevel_implies] at hts ⊢
  rw [rightAssoc_step atLevel_implies_consumes
    ((reads_at h (p := 18) (k := 19) (by omega) (by omega)).read _ (by simp [binding])) rfl, hts,
    reread_implies hne]
  rfl

/-- A form that is neither an arrow nor an implication. -/
theorem printed_of_reads {e : Expr} (h : Reads (precedence e) (toks e 0) (reread e .top))
    (henters : ∀ step, (precedence e, step) ∈ loops →
      Enters (precedence e) step (toks e 0) (reread e .top))
    (harrow : precedence e ≠ 15) (himplies : precedence e ≠ 18) : Printed e where
  reads := h
  enters := henters
  arrow _ _ _ := arrow_of_reads h harrow
  implies _ _ _ := implies_of_reads h himplies

/-- A form of a level that does not loop. -/
theorem printed_of_level {e : Expr} (h : Reads (precedence e) (toks e 0) (reread e .top))
    (hlevel : precedence e ∈ [5, 30, 80, 90]) : Printed e := by
  apply printed_of_reads h
  · intro step hstep
    simp only [List.mem_cons, List.not_mem_nil, or_false] at hlevel
    rcases hlevel with heq | heq | heq | heq <;> simp [heq, loops, leftOps] at hstep
  all_goals
    intro heq
    simp [heq] at hlevel

/-- A form of a looping level. -/
theorem printed_of_enters {e : Expr} {k : Nat} (step : Step ParseError Tok Expr)
    (hk : (k, step) ∈ loops) (hprec : precedence e = k)
    (h : Enters k step (toks e 0) (reread e .top))
    (hhead : 90 < k → ∀ rest, NoPrefix (toks e 0 ++ rest)) : Printed e := by
  subst hprec
  have hne : precedence e ≠ 15 ∧ precedence e ≠ 18 := by
    constructor <;> intro heq <;> simp [heq, loops, leftOps] at hk
  apply printed_of_reads _ _ hne.1 hne.2
  · constructor
    · intro rest hstop
      rw [h rest (hstop.mono (Nat.le_succ _)), repeated_stop (loops_stop hk _ hstop)]
    · exact hhead
  · intro step' hstep'
    exact loops_unique hk hstep' ▸ h

/-- A form that a primary starts and ends. -/
theorem printed_of_primary {e : Expr} (hprec : precedence e = 100)
    (h : Reads 101 (toks e 0) (reread e .top)) : Printed e :=
  printed_of_enters (k := 100) (postfixStep parseTokens) (by simp [loops]) hprec
    (enters_of_reads (by simp [loops]) h) fun _ => h.head (by omega)

end OpenLustre.LustreEmit
