import OpenLustre.LustreEmit.Tokens

/-! What the parser reads from the tokens of a printed expression. -/

namespace OpenLustre.LustreEmit

open OpenLustre.Ir OpenLustre.Stdlib Parser

section Brackets

theorem parseTokens_closer {t : Tok} (h : t = .rParen ∨ t = .rBracket) (ts : List Tok) :
    parseTokens (t :: ts) = .error (.expected "expression" t.describe) := by
  rw [parseTokens_eq]
  rcases h with rfl | rfl <;> exact parseArrow_error rfl (by simp [NoPrefix])

theorem Printed.head_ne {e : Expr} (h : Printed e) {close : Tok}
    (hclose : close = .rParen ∨ close = .rBracket) (rest : List Tok) :
    ∃ t ts, toks e 0 ++ rest = t :: ts ∧ t ≠ close := by
  have hread := h.inside (t := .rParen) rfl []
  cases hts : toks e 0 with
  | nil =>
    rw [hts, List.nil_append, parseTokens_closer (.inl rfl)] at hread
    cases hread
  | cons t ts =>
    refine ⟨t, ts ++ rest, rfl, ?_⟩
    rintro rfl
    rw [hts, List.cons_append, parseTokens_closer hclose] at hread
    cases hread

variable {sep close : Tok}

theorem sepBy_printed (hsep : binding sep = 0) (hclose : binding close = 0) (hne : close ≠ sep) :
    ∀ es : List Expr, es ≠ [] → (∀ e ∈ es, Printed e) → ∀ rest,
      sepBy (· = sep) parseTokens (joinToks sep (partsToks es) ++ close :: rest)
        = .ok (rereadList es, close :: rest)
  | [], h, _, _ => absurd rfl h
  | [e], _, h, rest => by
    exact sepBy_one ((h e (by simp)).inside hclose rest) (by simpa using hne)
  | e :: e' :: es, _, h, rest => by
    have hrest := sepBy_printed hsep hclose hne (e' :: es) (by simp)
      (fun x hx => h x (List.mem_cons_of_mem _ hx)) rest
    simp only [partsToks, joinToks, List.append_assoc, List.cons_append] at hrest ⊢
    rw [sepBy_cons parseTokens_consumes ((h e (by simp)).inside hsep _) (by simp), hrest]
    rfl

theorem parseItems_printed (sep close : Tok) (hsep : binding sep = 0) (hne : close ≠ sep)
    (hclose : close = .rParen ∨ close = .rBracket) {es : List Expr} (h : ∀ e ∈ es, Printed e)
    (rest : List Tok) :
    parseItems parseTokens sep close (joinToks sep (partsToks es) ++ close :: rest)
      = .ok (rereadList es, rest) := by
  have hzero : binding close = 0 := by rcases hclose with rfl | rfl <;> rfl
  cases es with
  | nil => simp [partsToks, joinToks, parseItems, rereadList]
  | cons e es =>
    have hread := sepBy_printed hsep hzero hne _ (by simp) h rest
    have hhead : ∃ t ts, joinToks sep (partsToks (e :: es)) ++ close :: rest = t :: ts ∧
        t ≠ close := by
      cases es with
      | nil => exact (h e (by simp)).head_ne hclose _
      | cons e' es =>
        simp only [partsToks, joinToks, List.append_assoc]
        exact (h e (by simp)).head_ne hclose _
    obtain ⟨t, ts, heq, ht⟩ := hhead
    rw [heq] at hread ⊢
    simp only [parseItems, ht, if_false, hread, bind, Except.bind, expect_cons]

theorem parsePrimary_ident {name : String} (h : name ∉ reserved) (ts : List Tok) :
    parsePrimary parseTokens (.ident name :: ts) = parseNamed parseTokens name ts := by
  simp only [reserved, List.mem_cons, List.not_mem_nil, or_false, not_or] at h
  simp [parsePrimary_ident_eq, h]

theorem noPrefix_ident {name : String} (h : name ∉ reserved) (ts : List Tok) :
    NoPrefix (.ident name :: ts) := by
  simp only [reserved, List.mem_cons, List.not_mem_nil, or_false, not_or] at h
  simp [NoPrefix, h]

/-- A call form, whatever it stands for. -/
theorem reads_call (name : String) (args : List Expr) {e : Expr} (hname : name ∉ reserved)
    (hargs : ∀ a ∈ args, Printed a) (h : finishCall name (rereadList args) = .ok e) :
    Reads 101 (.ident name :: .lParen :: (joinToks .comma (partsToks args) ++ [.rParen])) e := by
  constructor
  · intro rest _
    simp only [List.cons_append, List.append_assoc, List.nil_append, atLevel_primary,
      parsePrimary_ident hname, parseNamed,
      parseItems_printed .comma .rParen rfl (by simp) (.inl rfl) hargs,
      bind, Except.bind, h]
  · exact fun _ rest => noPrefix_ident hname _

theorem sepBy_fields : ∀ fields : List (String × Expr), fields ≠ [] →
    (∀ f ∈ fields, Printed f.2) → ∀ rest,
      sepBy (· = .comma) (parseFieldInit parseTokens)
          (joinToks .comma (fieldsToks fields) ++ .rBrace :: rest)
        = .ok (rereadFields fields, .rBrace :: rest)
  | [], h, _, _ => absurd rfl h
  | [(f, e)], _, h, rest => by
    apply sepBy_one
    · simp only [fieldsToks, joinToks, List.cons_append, parseFieldInit, expect_cons, bind,
        Except.bind, (h (f, e) (by simp)).inside (t := .rBrace) rfl rest]
    · simp
  | (f, e) :: x :: fields, _, h, rest => by
    have hrest := sepBy_fields (x :: fields) (by simp)
      (fun y hy => h y (List.mem_cons_of_mem _ hy)) rest
    have hfield : ∀ ts, parseFieldInit parseTokens (.ident f :: .colon :: (toks e 0 ++ .comma :: ts))
        = .ok ((f, reread e .top), .comma :: ts) := by
      intro ts
      simp only [parseFieldInit, expect_cons, bind, Except.bind,
        (h (f, e) (by simp)).inside (t := .comma) rfl ts]
    simp only [fieldsToks, joinToks, List.append_assoc, List.cons_append] at hrest ⊢
    rw [sepBy_cons (parseFieldInit_consumes parseTokens_consumes) (hfield _) (by simp), hrest]
    rfl

theorem reads_struct {ty : String} {fields : List (String × Expr)} (hty : ty ∉ reserved)
    (h : ∀ f ∈ fields, Printed f.2) :
    Reads 101 (.ident ty :: .lBrace :: (joinToks .comma (fieldsToks fields) ++ [.rBrace]))
      (.struct ty (rereadFields fields)) := by
  constructor
  · intro rest _
    simp only [List.cons_append, List.append_assoc, List.nil_append, atLevel_primary,
      parsePrimary_ident hty, parseNamed]
    cases fields with
    | nil => simp [fieldsToks, joinToks, parseItems, rereadFields, bind, Except.bind]
    | cons x fields =>
      have hread := sepBy_fields _ (by simp) h rest
      have hhead : ∃ f ts, joinToks .comma (fieldsToks (x :: fields)) ++ .rBrace :: rest
          = .ident f :: ts := by
        cases fields <;> simp [fieldsToks, joinToks]
      obtain ⟨f, ts, heq⟩ := hhead
      rw [heq] at hread ⊢
      simp only [parseItems, hread, bind, Except.bind, expect_cons, reduceCtorEq, if_false]
  · exact fun _ rest => noPrefix_ident hty _

end Brackets

section Operators

theorem leftOps_loops {k : Nat} {op : Tok → Option (Expr → Expr → Expr)} (h : (k, op) ∈ leftOps) :
    (k, operand op (atLevel (k + 1))) ∈ loops := by
  simp only [loops, List.mem_cons, List.mem_map]
  exact .inr (.inr ⟨(k, op), h, rfl⟩)

theorem leftOps_le {k : Nat} {op : Tok → Option (Expr → Expr → Expr)} (h : (k, op) ∈ leftOps) :
    k ≤ 50 := by
  simp only [leftOps, List.mem_cons, Prod.mk.injEq, List.not_mem_nil, or_false] at h
  omega

theorem enters_left {k : Nat} {op : Tok → Option (Expr → Expr → Expr)} (hop : (k, op) ∈ leftOps)
    {t : Tok} {f : Expr → Expr → Expr} (ht : op t = some f) {l r : Expr} (hl : Printed l)
    (hr : Printed r) :
    Enters k (operand op (atLevel (k + 1))) (toks l k ++ t :: toks r (k + 1))
      (f (reread l .top) (reread r .top)) := by
  intro rest hstop
  have hle := leftOps_le hop
  have hbind : binding t = k := by
    by_contra hne
    rw [leftOps_binding hop hne] at ht
    cases ht
  rw [List.append_assoc, List.cons_append,
    hl.enters_at _ (leftOps_loops hop) (by omega) _ (by simp [hbind])]
  apply repeated_step (operand_advances (leftOps_consumes hop))
  refine operand_eq_ok.mpr ⟨t, _, f, _, rfl, ht, ?_, rfl⟩
  exact (reads_at hr.reads (by omega) (by omega)).read rest hstop

theorem printed_when {arg : Expr} {clock : String} {on : Bool} (hclock : on = true → clock ≠ "not")
    (h : Printed arg) : Printed (.when arg clock on) := by
  apply printed_of_enters (k := 16) whenStep (by simp [loops]) rfl _ (by omega)
  intro rest hstop
  have hwhen : binding (.ident "when") < 17 := by decide
  simp only [toks, wrap, Nat.not_lt_zero, if_false, reread, Cont.plug, List.append_assoc]
  rw [h.enters_at (k := 16) whenStep (by simp [loops]) (by omega) _
    (by cases on <;> simp [clockToks, hwhen])]
  apply repeated_step whenStep_advances
  cases on with
  | true => simp [clockToks, whenStep, hclock rfl]
  | false => simp [clockToks, whenStep]

theorem printed_unary {op : UnaryOp} {arg : Expr} (h : Printed arg) : Printed (.unary op arg) := by
  have harg : Reads 90 (toks arg 90) (reread arg .top) := reads_at h.reads (by omega) (by omega)
  apply printed_of_level _ (by simp [precedence])
  refine ⟨fun rest hstop => ?_, by simp [precedence]⟩
  have hread := harg.read rest hstop
  cases op with
  | not =>
    simp only [precedence, toks, wrap, Nat.not_lt_zero, if_false, reread, Cont.plug, atLevel_unary,
      List.cons_append, parseUnary_not] at hread ⊢
    rw [hread]
    rfl
  | neg =>
    simp only [precedence, toks, wrap, Nat.not_lt_zero, if_false, reread, Cont.plug, atLevel_unary,
      List.cons_append, parseUnary_minus] at hread ⊢
    rw [hread]
    rfl

theorem printed_pre {arg : Expr} (h : Printed arg) : Printed (.pre arg) := by
  have harg : Reads 80 (toks arg 80) (reread arg .top) := reads_at h.reads (by omega) (by omega)
  apply printed_of_level _ (by simp [precedence])
  refine ⟨fun rest hstop => ?_, by simp [precedence]⟩
  have hread := harg.read rest hstop
  have hlevel : atLevel 80 = parseUnary parseTokens := rfl
  simp only [precedence, toks, wrap, Nat.not_lt_zero, if_false, reread, Cont.plug, hlevel,
    List.cons_append, parseUnary_pre] at hread ⊢
  rw [hread]
  rfl

theorem printed_cmp {op : BinOp} {l r : Expr} (hop : precedence (.binary op l r) = 30)
    (hchain : precedence l ≠ 30) (hl : Printed l) (hr : Printed r) :
    Printed (.binary op l r) := by
  have htok : cmpOp (binOpTok op) = some (.binary op) ∧ bitOpName op = none ∧ op ≠ .implies ∧
      (binOpSyntax op).2 = 30 := by
    cases op <;> simp [precedence, bitOpName, binOpSyntax] at hop <;>
      simp [cmpOp, binOpTok, bitOpName, binOpSyntax]
  obtain ⟨htok, hbit, himp, hprec⟩ := htok
  have hbind : binding (binOpTok op) = 30 := by
    by_contra hne
    rw [cmpOp_binding hne] at htok
    cases htok
  apply printed_of_level _ (by simp [hop])
  rw [hop]
  refine ⟨fun rest hstop => ?_, by omega⟩
  simp only [toks, hbit, hprec, wrap, Nat.not_lt_zero, if_false, reread, himp, Cont.plug,
    List.append_assoc, List.cons_append, atLevel_cmp]
  exact nonAssoc_step
    ((reads_at hl.reads (p := 30) (k := 31) (by omega) (by omega)).read _ (by simp [hbind])) htok
    ((reads_at hr.reads (p := 31) (k := 31) (by omega) (by omega)).read rest (hstop.mono (by omega)))

theorem printed_left {op : BinOp} {l r : Expr} {k : Nat} (hk : precedence (.binary op l r) = k)
    (hleft : k = 20 ∨ k = 25 ∨ k = 40 ∨ k = 50) (hl : Printed l) (hr : Printed r) :
    Printed (.binary op l r) := by
  have htok : ∃ f, (k, f) ∈ leftOps ∧ f (binOpTok op) = some (.binary op) ∧ bitOpName op = none ∧
      op ≠ .implies ∧ (binOpSyntax op).2 = k := by
    subst hk
    cases op <;> simp [precedence, bitOpName, binOpSyntax] at hleft <;>
      simp [leftOps, precedence, binOpTok, bitOpName, binOpSyntax, orOp, andOp, addOp, mulOp]
  obtain ⟨f, hf, htok, hbit, himp, hprec⟩ := htok
  apply printed_of_enters _ (leftOps_loops hf) hk _ (by omega)
  have henters := enters_left hf htok hl hr
  simpa only [toks, hbit, hprec, wrap, Nat.not_lt_zero, if_false, reread, himp, Cont.plug]
    using henters

theorem printed_ifThenElse {c t e : Expr} (hc : Printed c) (ht : Printed t) (he : Printed e) :
    Printed (.ifThenElse c t e) := by
  apply printed_of_level _ (by simp [precedence])
  refine ⟨fun rest hstop => ?_, by simp [precedence]⟩
  have hthen : binding (.ident "then") = 0 := by decide
  have helse : binding (.ident "else") = 0 := by decide
  have hread : atLevel 101 (toks (.ifThenElse c t e) 0 ++ rest)
      = .ok (reread (.ifThenElse c t e) .top, rest) := by
    have hlast : parseTokens (toks e 0 ++ rest) = .ok (reread e .top, rest) := by
      rw [← atLevel_low (k := 5) (by omega)]
      exact (he.reads.descend (precedence_pos e)).read rest hstop
    simp only [toks, wrap, Nat.not_lt_zero, if_false, reread, Cont.plug, List.cons_append,
      List.append_assoc, atLevel_primary, parsePrimary_ident_eq, parseIf, hc.inside hthen,
      ht.inside helse, hlast, bind, Except.bind, expectKw_cons]
    rfl
  -- no level between the primary and the whole expression reads on
  have hdescend : ∀ k, 5 ≤ k → k ≤ 101 → atLevel k (toks (.ifThenElse c t e) 0 ++ rest)
      = .ok (reread (.ifThenElse c t e) .top, rest) := by
    intro k hk hk'
    induction hk' using Nat.decreasingInduction with
    | self => exact hread
    | of_succ k hlt ih =>
      apply atLevel_descend (ih (by omega)) (hstop.mono hk)
      intro _
      simp [toks, wrap, NoPrefix]
  exact hdescend 5 le_rfl (by omega)

theorem precedence_ne {e : Expr} : precedence e ≠ 14 ∧ precedence e ≠ 19 := by
  cases e with
  | binary op lhs rhs => cases op <;> simp [precedence, bitOpName, binOpSyntax]
  | _ => simp [precedence]

theorem toks_body (b : Expr) : toks b 14 = toks b 15 := by
  have hne := (precedence_ne (e := b)).1
  by_cases h : 14 ≤ precedence b
  · rw [toks_of_le h, toks_of_le (p := 15) (by omega)]
  · rw [toks_of_lt (p := 14) (by omega), toks_of_lt (p := 15) (by omega)]

theorem printed_arrow {i b : Expr} (hi : Printed i) (hb : Printed b) : Printed (.arrow i b) := by
  have htoks : toks (.arrow i b) 0 = toks i 15 ++ .arrow :: toks b 14 := by
    simp [toks, wrap]
  have hreads : Reads (precedence (.arrow i b)) (toks (.arrow i b) 0) (reread (.arrow i b) .top) := by
    refine ⟨fun rest hstop => ?_, by simp [precedence]⟩
    have hbody : parseTokens (toks b 14 ++ rest) = .ok (reread b .top, rest) := by
      rw [← atLevel_low (k := 15) le_rfl]
      have hne := (precedence_ne (e := b)).1
      exact (reads_at hb.reads (by omega) (by omega)).read rest hstop
    rw [precedence, atLevel_low le_rfl, htoks, List.append_assoc, List.cons_append,
      hi.arrow _ _ _ hbody]
    simp [reread, Cont.plug]
  refine ⟨hreads, ?_, ?_, fun ts r rest => implies_of_reads hreads (by simp [precedence])⟩
  · intro step hstep
    simp [precedence, loops, leftOps] at hstep
  · intro ts y rest hts
    rw [toks_of_le (by simp [precedence]), htoks, toks_body, List.append_assoc, List.cons_append,
      hi.arrow _ _ _ (hb.arrow ts y rest hts)]
    simp [reread]

theorem printed_implies {l r : Expr} (hl : Printed l) (hr : Printed r) :
    Printed (.binary .implies l r) := by
  have htoks : toks (.binary .implies l r) 0 = toks l 18 ++ .fatArrow :: toks r 19 := by
    simp [toks, bitOpName, binOpSyntax, binOpTok, wrap]
  have hright : Reads 19 (toks r 19) (reread r .top) := reads_at hr.reads (by omega) (by omega)
  have hreads : Reads (precedence (.binary .implies l r)) (toks (.binary .implies l r) 0)
      (reread (.binary .implies l r) .top) := by
    refine ⟨fun rest hstop => ?_, by simp [precedence, bitOpName, binOpSyntax]⟩
    have hrest := (hright.descend (Nat.le_succ 18)).read rest hstop
    show atLevel 18 _ = _
    rw [htoks, List.append_assoc, List.cons_append, hl.implies _ _ _ hrest]
    simp [reread, Cont.plug]
  refine ⟨hreads, ?_, fun ts b rest => arrow_of_reads hreads (by simp [precedence, bitOpName,
    binOpSyntax]), ?_⟩
  · intro step hstep
    simp [precedence, bitOpName, binOpSyntax, loops, leftOps] at hstep
  · intro ts y rest hts
    have hnext : atLevel 18 (toks r 19 ++ .fatArrow :: ts)
        = .ok (.binary .implies (reread r .top) y, rest) := by
      rw [atLevel_implies] at hts ⊢
      rw [rightAssoc_step atLevel_implies_consumes (hright.read _ (by simp [binding])) rfl, hts]
      rfl
    rw [toks_of_le (by simp [precedence, bitOpName, binOpSyntax]), htoks, List.append_assoc,
      List.cons_append, hl.implies _ _ _ hnext]
    simp [reread]

theorem printed_index {base i : Expr} (hb : Printed base) (hi : Printed i) :
    Printed (.index base i) := by
  have hbase := reads_at hb.reads (p := 100) (k := 100) (by omega) (by omega)
  apply printed_of_enters (k := 100) (postfixStep parseTokens) (by simp [loops]) rfl
  · intro rest hstop
    simp only [toks, wrap, Nat.not_lt_zero, if_false, reread, Cont.plug, List.append_assoc,
      List.cons_append, List.nil_append]
    rw [hb.enters_at (k := 100) (postfixStep parseTokens) (by simp [loops]) (by omega) _
      (by simp [binding])]
    apply repeated_step (postfixStep_advances parseTokens_consumes)
    simp only [postfixStep, hi.inside (t := .rBracket) rfl, bind, Except.bind, expect_cons]
  · intro _ rest
    simpa only [toks, wrap, Nat.not_lt_zero, if_false, List.append_assoc]
      using hbase.head (by omega) _

theorem printed_field {base : Expr} {f : String} (hint : ∀ n, base ≠ .const (.int n))
    (hb : Printed base) : Printed (.field base f) := by
  have hbase := reads_at hb.reads (p := 100) (k := 100) (by omega) (by omega)
  have htoks : toks (.field base f) 0 = toks base 100 ++ [.dot, .ident f] := by
    simp only [toks, wrap, Nat.not_lt_zero, if_false]
    unfold fieldToks
    split
    · next n => exact absurd rfl (hint n)
    · rfl
  apply printed_of_enters (k := 100) (postfixStep parseTokens) (by simp [loops]) rfl
  · intro rest hstop
    simp only [htoks, reread, Cont.plug, List.append_assoc, List.cons_append, List.nil_append]
    rw [hb.enters_at (k := 100) (postfixStep parseTokens) (by simp [loops]) (by omega) _
      (by simp [binding])]
    exact repeated_step (postfixStep_advances parseTokens_consumes) rfl
  · intro _ rest
    rw [htoks, List.append_assoc]
    exact hbase.head (by omega) _

end Operators

section Atoms

/-- A printed form that a primary reads as itself. -/
theorem printed_atom {e : Expr} {w : List Tok} (hprec : precedence e = 100)
    (htoks : toks e 0 = w) (h : Reads 101 w (reread e .top)) : Printed e :=
  printed_of_primary hprec (htoks ▸ h)

theorem printed_const {lit : Literal} (h : ReadLiteral lit)
    (hinf : ∀ f, lit = .float f → ¬ f.isInf) : Printed (.const lit) := by
  apply printed_atom (w := literalToks lit) rfl (by simp [toks, wrap])
  cases lit with
  | bool b =>
    cases b <;>
      exact ⟨fun rest _ => rfl, fun _ rest => by simp [literalToks, NoPrefix, toString]⟩
  | int n => exact ⟨fun rest _ => rfl, fun _ rest => by simp [literalToks, NoPrefix]⟩
  | float f =>
    simp only [literalToks, hinf f rfl]
    exact ⟨fun rest _ => rfl, fun _ rest => by simp [NoPrefix]⟩
  | char b => exact ⟨fun rest _ => rfl, fun _ rest => by simp [literalToks, NoPrefix]⟩

theorem printed_var {name : String} (h : name ∉ reserved) : Printed (.var name) := by
  apply printed_atom (w := [.ident name]) rfl (by simp [toks, wrap])
  refine ⟨fun rest hstop => ?_, fun _ rest => noPrefix_ident h _⟩
  rw [List.singleton_append, atLevel_primary, parsePrimary_ident h]
  unfold parseNamed
  split
  · simp [binding] at hstop
  · simp [binding] at hstop
  · rfl

theorem printed_array {items : List Expr} (h : ∀ i ∈ items, Printed i) : Printed (.array items) := by
  apply printed_atom rfl (by simp only [toks, wrap, Nat.not_lt_zero, if_false]; rfl)
  refine ⟨fun rest _ => ?_, fun _ rest => by simp [NoPrefix]⟩
  simp only [List.cons_append, List.append_assoc, List.nil_append, atLevel_primary,
    parsePrimary_lBracket, parseItems_printed .semi .rBracket rfl (by simp) (.inr rfl) h, bind,
    Except.bind, reread, Cont.plug]

theorem printed_struct {ty : String} {fields : List (String × Expr)} (hty : ty ∉ reserved)
    (h : ∀ f ∈ fields, Printed f.2) : Printed (.struct ty fields) :=
  printed_atom rfl (by simp only [toks, wrap, Nat.not_lt_zero, if_false]) (reads_struct hty h)

theorem numericTypeName_castTypeName {target : Ty} (h : target.isNumeric) :
    numericTypeName (castTypeName target) = some target := by
  cases target <;> simp_all [Ty.isNumeric, Ty.isInteger, Ty.isFloat, castTypeName, numericTypeName]

theorem castTypeName_not_reserved (target : Ty) :
    castTypeName target ∉ reserved ∧ castTypeName target ∉ ["map", "fold", "merge"] := by
  cases target <;> simp [castTypeName, reserved]

theorem printed_cast {target : Ty} {arg : Expr} (htarget : target.isNumeric) (h : Printed arg) :
    Printed (.cast target arg) := by
  obtain ⟨hres, hforms⟩ := castTypeName_not_reserved target
  apply printed_atom rfl (by simp only [toks, wrap, Nat.not_lt_zero, if_false]; rfl)
  refine reads_call _ [arg] hres (by simpa using h) ?_
  simp only [List.mem_cons, List.not_mem_nil, or_false, not_or] at hforms
  simp [finishCall, hforms, numericTypeName_castTypeName htarget, rereadList, reread, Cont.plug]

theorem printed_call {node : String} {args : List Expr} (hnode : CallWord node)
    (h : ∀ a ∈ args, Printed a) : Printed (.call node args) := by
  obtain ⟨-, hres, hforms, hcast⟩ := hnode
  apply printed_atom rfl (by simp only [toks, wrap, Nat.not_lt_zero, if_false]; rfl)
  refine reads_call node args hres h ?_
  simp only [List.mem_cons, List.not_mem_nil, or_false, not_or] at hforms
  simp [finishCall, hforms, hcast, reread, Cont.plug]

theorem printed_merge {clock : String} {t e : Expr} (hclock : clock ∉ reserved) (ht : Printed t)
    (he : Printed e) : Printed (.merge clock t e) := by
  apply printed_atom rfl (by simp only [toks, wrap, Nat.not_lt_zero, if_false]; rfl)
  have hread := reads_call "merge" [.var clock, t, e]
    (e := .merge clock (reread t .top) (reread e .top)) (by decide)
    (by simpa using ⟨printed_var hclock, ht, he⟩)
    (by simp [finishCall, finishMerge, rereadList, reread, Cont.plug])
  simpa [joinToks, partsToks, toks, wrap, reread, Cont.plug] using hread

theorem printed_map {node : String} {arrays : List Expr} (hnode : node ∉ reserved)
    (hne : arrays ≠ []) (h : ∀ a ∈ arrays, Printed a) :
    Printed (.iterate .map node none arrays) := by
  apply printed_atom rfl (by simp only [toks, wrap, Nat.not_lt_zero, if_false]; rfl)
  have hempty : rereadList arrays ≠ [] := by
    cases arrays <;> simp_all [rereadList]
  have hread := reads_call "map" (.var node :: arrays)
    (e := .iterate .map node none (rereadList arrays)) (by decide)
    (List.forall_mem_cons.mpr ⟨printed_var hnode, h⟩)
    (by simp [finishCall, finishIterate, rereadList, reread, Cont.plug, hempty])
  simpa [partsToks, toks, wrap, iterName, reread, Cont.plug] using hread

theorem printed_fold {node : String} {init array : Expr} (hnode : node ∉ reserved)
    (hi : Printed init) (ha : Printed array) :
    Printed (.iterate .fold node (some init) [array]) := by
  apply printed_atom rfl (by simp only [toks, wrap, Nat.not_lt_zero, if_false]; rfl)
  have hread := reads_call "fold" [.var node, init, array]
    (e := .iterate .fold node (some (reread init .top)) [reread array .top]) (by decide)
    (by simpa using ⟨printed_var hnode, hi, ha⟩)
    (by simp [finishCall, finishIterate, rereadList, reread, Cont.plug])
  simpa [partsToks, toks, wrap, iterName, reread, rereadList, Cont.plug] using hread

end Atoms

/-- A form whose printed text says something else than the form: a bit operator
prints as a call, an infinity as a field of a variable, and a point after an
integer makes it a floating-point literal. -/
def tokenSlip : Expr → Bool
  | .binary op _ _ => (bitOpName op).isSome
  | .field (.const (.int _)) _ => true
  | .const (.float f) => f.isInf
  | _ => false

/-- A comparison printed as the first operand of a comparison, which the grammar
does not have. -/
def chainSlip : Expr → Bool
  | .binary op (.binary op' _ _) _ => (binOpSyntax op).2 == 30 && (binOpSyntax op').2 == 30
  | _ => false

theorem printed_binary {op : BinOp} {l r : Expr} (hbit : tokenSlip (.binary op l r) = false)
    (hchain : chainSlip (.binary op l r) = false) (hl : Printed l) (hr : Printed r) :
    Printed (.binary op l r) := by
  have hprec : precedence (.binary op l r) = (binOpSyntax op).2 := by
    simp only [tokenSlip] at hbit
    simp [precedence, hbit]
  by_cases himp : op = .implies
  · exact himp ▸ printed_implies hl hr
  by_cases hcmp : (binOpSyntax op).2 = 30
  · apply printed_cmp (hprec.trans hcmp) _ hl hr
    intro h30
    cases l with
    | binary op' l' r' =>
      have hop' : (binOpSyntax op').2 = 30 := by
        cases op' <;> simp [precedence, bitOpName, binOpSyntax] at h30 ⊢
      simp [chainSlip, hcmp, hop'] at hchain
    | _ => simp [precedence] at h30
  · apply printed_left rfl _ hl hr
    rw [hprec]
    cases op <;> simp [tokenSlip, bitOpName, binOpSyntax] at hbit hcmp himp ⊢

/-- Every subexpression satisfies `P`. -/
def Throughout (P : Expr → Prop) (e : Expr) : Prop := ∀ x ∈ e.subterms, P x

theorem Throughout.self {P : Expr → Prop} {e : Expr} (h : Throughout P e) : P e :=
  h e (Expr.self_mem_subterms e)

theorem Throughout.child {P : Expr → Prop} {c e : Expr} (h : Throughout P e)
    (hc : c ∈ e.children) : Throughout P c :=
  fun x hx => h x (Expr.subterms_of_child hc hx)

/-- The tokens of a printed expression are read as the expression, up to the
association of arrows and implications. -/
theorem printed {e : Expr} (h : Parsed e) :
    Throughout (fun x => tokenSlip x = false ∧ chainSlip x = false) e → Printed e := by
  induction h with
  | const lit hlit =>
    intro hs
    apply printed_const hlit
    rintro f rfl
    simpa [tokenSlip] using hs.self.1
  | var name _ hres => exact fun _ => printed_var hres
  | unary op arg _ ih => exact fun hs => printed_unary (ih (hs.child (by simp [Expr.children])))
  | binary op l r _ _ ihl ihr =>
    exact fun hs => printed_binary hs.self.1 hs.self.2 (ihl (hs.child (by simp [Expr.children])))
      (ihr (hs.child (by simp [Expr.children])))
  | ifThenElse c t e _ _ _ ihc iht ihe =>
    exact fun hs => printed_ifThenElse (ihc (hs.child (by simp [Expr.children])))
      (iht (hs.child (by simp [Expr.children]))) (ihe (hs.child (by simp [Expr.children])))
  | pre arg _ ih => exact fun hs => printed_pre (ih (hs.child (by simp [Expr.children])))
  | arrow i b _ _ ihi ihb =>
    exact fun hs => printed_arrow (ihi (hs.child (by simp [Expr.children])))
      (ihb (hs.child (by simp [Expr.children])))
  | call node args hnode _ ih => exact fun hs => printed_call hnode fun a ha => ih a ha (hs.child ha)
  | field base f _ _ ih =>
    intro hs
    apply printed_field _ (ih (hs.child (by simp [Expr.children])))
    rintro n rfl
    cases hs.self.1
  | index base i _ _ ihb ihi =>
    exact fun hs => printed_index (ihb (hs.child (by simp [Expr.children])))
      (ihi (hs.child (by simp [Expr.children])))
  | array items _ ih => exact fun hs => printed_array fun i hi => ih i hi (hs.child hi)
  | struct ty fields _ hres _ _ ih =>
    exact fun hs => printed_struct hres fun f hf => ih f hf (hs.child (List.mem_map_of_mem hf))
  | cast target arg htarget _ ih =>
    exact fun hs => printed_cast htarget (ih (hs.child (by simp [Expr.children])))
  | when arg clock on _ hclock _ ih =>
    exact fun hs => printed_when hclock (ih (hs.child (by simp [Expr.children])))
  | merge clock t e _ hres _ _ iht ihe =>
    exact fun hs => printed_merge hres (iht (hs.child (by simp [Expr.children])))
      (ihe (hs.child (by simp [Expr.children])))
  | map node arrays _ hres hne _ ih =>
    exact fun hs => printed_map hres hne fun a ha => ih a ha
      (hs.child (by simpa [Expr.children] using ha))
  | fold node init array _ hres _ _ ihi iha =>
    exact fun hs => printed_fold hres (ihi (hs.child (by simp [Expr.children])))
      (iha (hs.child (by simp [Expr.children])))

end OpenLustre.LustreEmit
