import OpenLustre.LustreEmit.Lexing

/-! Printing a parsed expression and parsing it again. -/

namespace OpenLustre.LustreEmit

open OpenLustre.Ir OpenLustre.Stdlib

/-- A right-associative operator whose first operand is the same operator: both
are printed at one precedence, so the parentheses are lost. -/
def assocSlip : Expr → Bool
  | .arrow (.arrow _ _) _ => true
  | .binary .implies (.binary .implies _ _) _ => true
  | _ => false

theorem rereadList_eq {es : List Expr} (h : ∀ e ∈ es, reread e .top = e) : rereadList es = es := by
  induction es with
  | nil => rfl
  | cons e es ih =>
    rw [List.forall_mem_cons] at h
    rw [rereadList, h.1, ih h.2]

theorem rereadFields_eq {fields : List (String × Expr)} (h : ∀ f ∈ fields, reread f.2 .top = f.2) :
    rereadFields fields = fields := by
  induction fields with
  | nil => rfl
  | cons f fields ih =>
    rw [List.forall_mem_cons] at h
    rw [rereadFields, h.1, ih h.2]

theorem reread_binary {op : BinOp} {l r : Expr} (hslip : assocSlip (.binary op l r) = false)
    (hl : reread l .top = l) (hr : reread r .top = r) :
    reread (.binary op l r) .top = .binary op l r := by
  by_cases hop : op = .implies
  · subst hop
    have hne : precedence l ≠ 18 := by
      intro h18
      cases l with
      | binary op' l' r' =>
        cases op' <;> simp [precedence, bitOpName, binOpSyntax, assocSlip] at h18 hslip
      | _ => simp [precedence] at h18
    simp [reread, Cont.plug, hr, reread_implies hne, hl]
  · simp [reread, Cont.plug, hop, hl, hr]

theorem reread_arrow_top {i b : Expr} (hslip : assocSlip (.arrow i b) = false)
    (hi : reread i .top = i) (hb : reread b .top = b) :
    reread (.arrow i b) .top = .arrow i b := by
  have hne : precedence i ≠ 15 := by
    intro h15
    cases i with
    | arrow => simp [assocSlip] at hslip
    | binary op' l' r' => cases op' <;> simp [precedence, bitOpName, binOpSyntax] at h15
    | _ => simp [precedence] at h15
  simp [reread, Cont.plug, hb, reread_arrow hne, hi]

/-- Without such an operand the printed form is read as it was written. -/
theorem reread_eq (e : Expr) : Throughout (fun x => assocSlip x = false) e → reread e .top = e := by
  induction e using Expr.children_induct with
  | h e ih =>
    intro hs
    have hc : ∀ c ∈ e.children, reread c .top = c := fun c hc => ih c hc (hs.child hc)
    cases e with
    | const | var => rfl
    | binary op l r =>
      exact reread_binary hs.self (hc l (by simp [Expr.children])) (hc r (by simp [Expr.children]))
    | arrow i b =>
      exact reread_arrow_top hs.self (hc i (by simp [Expr.children]))
        (hc b (by simp [Expr.children]))
    | call _ items | tuple items | array items =>
      have hitems : rereadList items = items := rereadList_eq hc
      rw [reread, hitems, Cont.plug]
    | struct ty fields =>
      rw [reread, rereadFields_eq fun f hf => hc f.2 (List.mem_map_of_mem hf), Cont.plug]
    | iterate kind node init arrays =>
      have harrays := rereadList_eq fun a ha => hc a (List.mem_append_right _ ha)
      cases init with
      | none => rw [reread, harrays, Cont.plug]
      | some i => rw [reread, harrays, hc i (by simp [Expr.children]), Cont.plug]
    | _ =>
      simp only [Expr.children, List.forall_mem_cons] at hc
      simp [reread, Cont.plug, hc]

/-- The nodes that printing gets wrong. -/
def misprinted (e : Expr) : Bool := tokenSlip e || chainSlip e || assocSlip e || wideSlip e

/-- Printing `e` gets no node of it wrong. -/
def Faithful (e : Expr) : Prop := Throughout (fun x => misprinted x = false) e

instance (e : Expr) : Decidable (Faithful e) := inferInstanceAs (Decidable (∀ x ∈ e.subterms, _))

theorem tokenize_formatExpr {e : Expr} (h : Lexed e) : tokenize (formatExpr e) = .ok (toks e 0) := by
  have hread := h (asBytes (formatExpr e)).length [] (follow_of_clear ⟨by simp [Apart], by
    simp [NoPoint]⟩)
  rw [List.append_nil, lex_nil] at hread
  simpa [tokenize_eq, formatExpr, prepend, Except.map] using hread

theorem parseTokens_toks {e : Expr} (h : Printed e) :
    parseTokens (toks e 0) = .ok (reread e .top, []) := by
  rw [← atLevel_low (k := 5) (by omega)]
  simpa using (h.reads.descend (precedence_pos e)).read [] (by simp)

end OpenLustre.LustreEmit
