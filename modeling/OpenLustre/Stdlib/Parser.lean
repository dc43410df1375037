import OpenLustre.Lib.Parsing
import OpenLustre.Stdlib.Lexer

/-! The recursive-descent parser of the textual surface syntax.  Each level of
the grammar is given over a parser of whole expressions; `parseExpr` closes the
recursion, to the depth the number of tokens bounds. -/

namespace OpenLustre.Stdlib

open OpenLustre.Ir

/-- A parse of tokens, which returns the tokens it leaves. -/
abbrev Parse (α : Type) : Type := Parser ParseError Tok α

def found (ts : List Tok) : String := (ts.head?.map Tok.describe).getD "<eof>"

def expect (t : Tok) : List Tok → Except ParseError (List Tok)
  | [] => .error .unexpectedEof
  | u :: ts => if u = t then .ok ts else .error (.expected t.describe u.describe)

def expectKw (kw : String) : List Tok → Except ParseError (List Tok)
  | .ident s :: ts => if s = kw then .ok ts else .error (.expected kw s)
  | ts => .error (.expected kw (found ts))

/-- A short description of an expression for parse-error messages. -/
def describeExpr : Expr → String
  | .const _ => "a literal"
  | .call node _ => "a call to `" ++ node ++ "`"
  | _ => "a compound expression"

/-- Numeric type names usable as casts. -/
def numericTypeName : String → Option Ty
  | "int8" => some .int8
  | "int16" => some .int16
  | "int" | "int32" => some .int32
  | "int64" => some .int64
  | "uint8" => some .uint8
  | "uint16" => some .uint16
  | "uint32" => some .uint32
  | "uint64" => some .uint64
  | "float32" => some .float32
  | "real" | "float64" => some .float64
  | _ => none

/-- A string literal is an array of `char` constants. -/
def exprString (s : List UInt8) : Expr := .array (s.map fun b => .const (.char b))

/-- `map(F, a, …)` and `fold(F, init, a)`. -/
def finishIterate (name : String) : List Expr → Except ParseError Expr
  | .var node :: rest =>
    if name = "map" then
      if rest.isEmpty then
        .error (.expected "map(F, array, …) with at least one array" "no arrays")
      else .ok (.iterate .map node none rest)
    else
      match rest with
      | [init, array] => .ok (.iterate .fold node (some init) [array])
      | _ => .error (.expected "fold(F, init, array)" (toString rest.length ++ " arguments after F"))
  | args => .error (.expected ("a function name as " ++ name ++ "'s first argument")
      ((args.head?.map describeExpr).getD "no arguments"))

/-- `merge(clock, onTrue, onFalse)`. -/
def finishMerge : List Expr → Except ParseError Expr
  | [.var clock, onTrue, onFalse] => .ok (.merge clock onTrue onFalse)
  | [other, _, _] => .error (.expected "a clock variable name as merge's first argument"
      (describeExpr other))
  | args => .error (.expected "merge(clock, on_true, on_false)"
      (toString args.length ++ " arguments"))

/-- What `name(args)` stands for. -/
def finishCall (name : String) (args : List Expr) : Except ParseError Expr :=
  if name = "map" ∨ name = "fold" then finishIterate name args
  else if name = "merge" then finishMerge args
  else
    match numericTypeName name, args with
    | some ty, [arg] => .ok (.cast ty arg)
    | some _, _ => .error (.expected ("exactly one argument for cast `" ++ name ++ "(...)`")
        (toString args.length ++ " arguments"))
    | none, _ => .ok (.call name args)

def arrowOp : Tok → Option (Expr → Expr → Expr)
  | .arrow => some .arrow
  | _ => none

def impliesOp : Tok → Option (Expr → Expr → Expr)
  | .fatArrow => some (.binary .implies)
  | _ => none

def orOp : Tok → Option (Expr → Expr → Expr)
  | .ident s =>
    if s = "or" then some (.binary .or) else if s = "xor" then some (.binary .xor) else none
  | _ => none

def andOp : Tok → Option (Expr → Expr → Expr)
  | .ident s => if s = "and" then some (.binary .and) else none
  | _ => none

def bitOrOp : Tok → Option (Expr → Expr → Expr)
  | .pipe => some (.binary .bitOr)
  | _ => none

def bitXorOp : Tok → Option (Expr → Expr → Expr)
  | .caret => some (.binary .bitXor)
  | _ => none

def bitAndOp : Tok → Option (Expr → Expr → Expr)
  | .amp => some (.binary .bitAnd)
  | _ => none

def cmpOp : Tok → Option (Expr → Expr → Expr)
  | .eq => some (.binary .eq)
  | .ne => some (.binary .neq)
  | .lt => some (.binary .lt)
  | .le => some (.binary .le)
  | .gt => some (.binary .gt)
  | .ge => some (.binary .ge)
  | _ => none

def shiftOp : Tok → Option (Expr → Expr → Expr)
  | .shl => some (.binary .shl)
  | .shr => some (.binary .shr)
  | _ => none

def addOp : Tok → Option (Expr → Expr → Expr)
  | .plus => some (.binary .add)
  | .minus => some (.binary .sub)
  | _ => none

def mulOp : Tok → Option (Expr → Expr → Expr)
  | .star => some (.binary .mul)
  | .slash => some (.binary .div)
  | .ident s =>
    if s = "div" then some (.binary .div) else if s = "mod" then some (.binary .mod) else none
  | _ => none

section Levels

variable (self : Parse Expr)

/-- Items up to a closing token, which may follow at once. -/
def parseItems {α : Type} (item : Parse α) (sep close : Tok) : Parse (List α)
  | [] => .error .unexpectedEof
  | t :: ts =>
    if t = close then .ok ([], ts)
    else do
      let (items, rest) ← Parser.sepBy (· = sep) item (t :: ts)
      let rest ← expect close rest
      .ok (items, rest)

/-- `field: value` in a record literal. -/
def parseFieldInit : Parse (String × Expr)
  | .ident field :: ts => do
    let ts ← expect .colon ts
    let (value, rest) ← self ts
    .ok ((field, value), rest)
  | ts => .error (.expected "field name in struct literal" (found ts))

def parseIf : Parse Expr := fun ts => do
  let (cond, ts) ← self ts
  let ts ← expectKw "then" ts
  let (thenBranch, ts) ← self ts
  let ts ← expectKw "else" ts
  let (elseBranch, ts) ← self ts
  .ok (.ifThenElse cond thenBranch elseBranch, ts)

/-- What may follow an identifier. -/
def parseNamed (name : String) : Parse Expr
  | .lParen :: ts => do
    let (args, rest) ← parseItems self .comma .rParen ts
    let e ← finishCall name args
    .ok (e, rest)
  | .lBrace :: ts => do
    let (fields, rest) ← parseItems (parseFieldInit self) .comma .rBrace ts
    .ok (.struct name fields, rest)
  | ts => .ok (.var name, ts)

def parsePrimary : Parse Expr
  | [] => .error .unexpectedEof
  | .lParen :: ts => do
    let (e, rest) ← self ts
    let rest ← expect .rParen rest
    .ok (e, rest)
  | .int n :: ts => .ok (.const (.int n), ts)
  | .float f :: ts => .ok (.const (.float f), ts)
  | .typedInt n ty :: ts => .ok (.cast ty (.const (.int n)), ts)
  | .typedFloat f ty :: ts => .ok (.cast ty (.const (.float f)), ts)
  | .charLit b :: ts => .ok (.const (.char b), ts)
  | .str s :: ts => .ok (exprString s, ts)
  | .lBracket :: ts => do
    let (items, rest) ← parseItems self .semi .rBracket ts
    .ok (.array items, rest)
  | .ident name :: ts =>
    if name = "true" then .ok (.const (.bool true), ts)
    else if name = "false" then .ok (.const (.bool false), ts)
    else if name = "if" then parseIf self ts
    else parseNamed self name ts
  | t :: _ => .error (.expected "expression" t.describe)

/-- `.field` or `[index]` after an expression. -/
def postfixStep : Parser.Step ParseError Tok Expr
  | e, .dot :: .ident field :: ts => some (.ok (.field e field, ts))
  | _, .dot :: ts => some (.error (.expected "field name" (found ts)))
  | e, .lBracket :: ts => some do
    let (index, rest) ← self ts
    let rest ← expect .rBracket rest
    .ok (.index e index, rest)
  | _, _ => none

def parsePostfix : Parse Expr := Parser.chain (parsePrimary self) (postfixStep self)

def parseUnary : Parse Expr
  | .ident s :: ts =>
    if s = "not" then (parseUnary ts).map fun x => (.unary .not x.1, x.2)
    else if s = "pre" then (parseUnary ts).map fun x => (.pre x.1, x.2)
    else parsePostfix self (.ident s :: ts)
  | .minus :: ts => (parseUnary ts).map fun x => (.unary .neg x.1, x.2)
  | ts => parsePostfix self ts

def parseMul : Parse Expr := Parser.leftAssoc mulOp (parseUnary self)
def parseAdd : Parse Expr := Parser.leftAssoc addOp (parseMul self)
def parseShift : Parse Expr := Parser.leftAssoc shiftOp (parseAdd self)
def parseCmp : Parse Expr := Parser.nonAssoc cmpOp (parseShift self)
def parseBitAnd : Parse Expr := Parser.leftAssoc bitAndOp (parseCmp self)
def parseBitXor : Parse Expr := Parser.leftAssoc bitXorOp (parseBitAnd self)
def parseBitOr : Parse Expr := Parser.leftAssoc bitOrOp (parseBitXor self)
def parseAnd : Parse Expr := Parser.leftAssoc andOp (parseBitOr self)
def parseOr : Parse Expr := Parser.leftAssoc orOp (parseAnd self)
def parseImplies : Parse Expr := Parser.rightAssoc impliesOp (parseOr self)

/-- `when c` or `when not c` after an expression. -/
def whenStep : Parser.Step ParseError Tok Expr
  | e, .ident kw :: ts =>
    if kw = "when" then
      let (on, ts) := match ts with
        | .ident s :: rest => if s = "not" then (false, rest) else (true, ts)
        | _ => (true, ts)
      match ts with
      | .ident clock :: rest => some (.ok (.when e clock on, rest))
      | _ => some (.error (.expected "clock variable name after `when`" (found ts)))
    else none
  | _, _ => none

def parseWhen : Parse Expr := Parser.chain (parseImplies self) whenStep

def parseArrow : Parse Expr := Parser.rightAssoc arrowOp (parseWhen self)

end Levels

/-- Expressions nested in brackets to a given depth. -/
def parseDepth : Nat → Parse Expr
  | 0 => fun _ => .error .unexpectedEof
  | n + 1 => parseArrow (parseDepth n)

/-- An expression at the front of the tokens. -/
def parseTokens : Parse Expr := fun ts => parseDepth (ts.length + 1) ts

/-- Parse a textual expression. -/
def parseExpr (src : String) : Except ParseError Expr := do
  let toks ← tokenize src
  let (e, rest) ← parseTokens toks
  if rest.isEmpty then .ok e
  else .error (.trailing (String.intercalate " " (rest.map Tok.describe)))

section Primary

variable (self : Parse Expr) (ts : List Tok)

theorem parsePrimary_lParen :
    parsePrimary self (.lParen :: ts) = (do
      let (e, rest) ← self ts
      let rest ← expect .rParen rest
      .ok (e, rest)) := rfl

theorem parsePrimary_lBracket :
    parsePrimary self (.lBracket :: ts) = (do
      let (items, rest) ← parseItems self .semi .rBracket ts
      .ok (.array items, rest)) := rfl

theorem parsePrimary_ident_eq (name : String) :
    parsePrimary self (.ident name :: ts) =
      if name = "true" then .ok (.const (.bool true), ts)
      else if name = "false" then .ok (.const (.bool false), ts)
      else if name = "if" then parseIf self ts
      else parseNamed self name ts := rfl

end Primary

theorem expect_eq_ok {t : Tok} {ts rest : List Tok} :
    expect t ts = .ok rest ↔ ts = t :: rest := by
  cases ts with
  | nil => simp [expect]
  | cons u ts =>
    simp only [expect]
    split <;> simp_all

@[simp] theorem expect_cons (t : Tok) (ts : List Tok) : expect t (t :: ts) = .ok ts :=
  expect_eq_ok.mpr rfl

theorem expectKw_eq_ok {kw : String} {ts rest : List Tok} :
    expectKw kw ts = .ok rest ↔ ts = .ident kw :: rest := by
  unfold expectKw
  split
  · split <;> simp_all
  · next h => simpa using fun heq => h kw rest heq

@[simp] theorem expectKw_cons (kw : String) (ts : List Tok) :
    expectKw kw (.ident kw :: ts) = .ok ts :=
  expectKw_eq_ok.mpr rfl

theorem whenStep_eq_ok {e e' : Expr} {ts rest : List Tok}
    (h : whenStep e ts = some (.ok (e', rest))) :
    (∃ clock, clock ≠ "not" ∧ ts = .ident "when" :: .ident clock :: rest ∧
        e' = .when e clock true) ∨
      ∃ clock, ts = .ident "when" :: .ident "not" :: .ident clock :: rest ∧
        e' = .when e clock false := by
  unfold whenStep at h
  split at h
  · next kw ts =>
    split at h
    · next hkw =>
      subst hkw
      cases ts with
      | nil => cases h
      | cons t ts =>
        cases t with
        | ident s =>
          by_cases hs : s = "not"
          · subst hs
            simp only [if_true] at h
            split at h
            · next clock rest' =>
              cases h
              exact .inr ⟨_, rfl, rfl⟩
            · cases h
          · simp only [hs, if_false] at h
            cases h
            exact .inl ⟨s, hs, rfl, rfl⟩
        | _ => cases h
    · cases h
  · cases h

theorem whenStep_advances : whenStep.Advances := by
  intro e ts e' rest h
  rcases whenStep_eq_ok h with ⟨clock, -, rfl, -⟩ | ⟨clock, rfl, -⟩ <;> grind

/-- The operator tables of the grammar's levels. -/
def infixOps : List (Tok → Option (Expr → Expr → Expr)) :=
  [arrowOp, impliesOp, orOp, andOp, bitOrOp, bitXorOp, bitAndOp, cmpOp, shiftOp, addOp, mulOp]

/-- Words that never name a variable, a call or a record type. -/
def reserved : List String := ["not", "pre", "true", "false", "if"]

/-- Facts about the tokens read, the expression and the tokens left that every
production of the grammar preserves; `Qs` and `Qf` are the facts about lists of
expressions and of field initialisers. -/
structure Closed (Q : List Tok → Expr → List Tok → Prop)
    (Qs : List Tok → List Expr → List Tok → Prop)
    (Qf : List Tok → List (String × Expr) → List Tok → Prop) : Prop where
  int : ∀ n ts, Q (.int n :: ts) (.const (.int n)) ts
  float : ∀ f ts, Q (.float f :: ts) (.const (.float f)) ts
  typedInt : ∀ n ty ts, Q (.typedInt n ty :: ts) (.cast ty (.const (.int n))) ts
  typedFloat : ∀ f ty ts, Q (.typedFloat f ty :: ts) (.cast ty (.const (.float f))) ts
  charLit : ∀ b ts, Q (.charLit b :: ts) (.const (.char b)) ts
  str : ∀ s ts, Q (.str s :: ts) (exprString s) ts
  bool : ∀ name b ts, Q (.ident name :: ts) (.const (.bool b)) ts
  var : ∀ name ts, name ∉ reserved → Q (.ident name :: ts) (.var name) ts
  paren : ∀ ts e rest, Q ts e (.rParen :: rest) → Q (.lParen :: ts) e rest
  array : ∀ ts es rest, Qs ts es (.rBracket :: rest) → Q (.lBracket :: ts) (.array es) rest
  ifThenElse : ∀ ts c ts₁ t ts₂ e rest, Q ts c (.ident "then" :: ts₁) →
    Q ts₁ t (.ident "else" :: ts₂) → Q ts₂ e rest →
    Q (.ident "if" :: ts) (.ifThenElse c t e) rest
  call : ∀ name ts args rest e, name ∉ reserved → Qs ts args (.rParen :: rest) →
    finishCall name args = .ok e → Q (.ident name :: .lParen :: ts) e rest
  struct : ∀ name ts fields rest, name ∉ reserved → Qf ts fields (.rBrace :: rest) →
    Q (.ident name :: .lBrace :: ts) (.struct name fields) rest
  field : ∀ ts e f rest, Q ts e (.dot :: .ident f :: rest) → Q ts (.field e f) rest
  index : ∀ ts e mid i rest, Q ts e (.lBracket :: mid) → Q mid i (.rBracket :: rest) →
    Q ts (.index e i) rest
  not : ∀ ts e rest, Q ts e rest → Q (.ident "not" :: ts) (.unary .not e) rest
  pre : ∀ ts e rest, Q ts e rest → Q (.ident "pre" :: ts) (.pre e) rest
  neg : ∀ ts e rest, Q ts e rest → Q (.minus :: ts) (.unary .neg e) rest
  infixes : ∀ op ∈ infixOps, Parser.ClosedUnder Q op
  when : ∀ ts e clock rest, clock ≠ "not" → Q ts e (.ident "when" :: .ident clock :: rest) →
    Q ts (.when e clock true) rest
  whenNot : ∀ ts e clock rest,
    Q ts e (.ident "when" :: .ident "not" :: .ident clock :: rest) →
    Q ts (.when e clock false) rest
  none : ∀ ts, Qs ts [] ts
  one : ∀ ts e rest, Q ts e rest → Qs ts [e] rest
  more : ∀ ts e t mid es rest, Q ts e (t :: mid) → Qs mid es rest → Qs ts (e :: es) rest
  noField : ∀ ts, Qf ts [] ts
  oneField : ∀ f ts e rest, Q ts e rest → Qf (.ident f :: .colon :: ts) [(f, e)] rest
  moreFields : ∀ f ts e t mid fields rest, Q ts e (t :: mid) → Qf mid fields rest →
    Qf (.ident f :: .colon :: ts) ((f, e) :: fields) rest

/-- Not at a prefix operator. -/
def NoPrefix (ts : List Tok) : Prop :=
  ∀ t ∈ ts.head?, t ≠ .ident "not" ∧ t ≠ .ident "pre" ∧ t ≠ .minus

theorem noPrefix_or (ts : List Tok) :
    NoPrefix ts ∨ ∃ ts', ts = .ident "not" :: ts' ∨ ts = .ident "pre" :: ts' ∨ ts = .minus :: ts' := by
  cases ts with
  | nil => exact .inl (by simp [NoPrefix])
  | cons t ts =>
    by_cases h : t = .ident "not" ∨ t = .ident "pre" ∨ t = .minus
    · exact .inr ⟨ts, by simpa using h⟩
    · exact .inl (by simpa [NoPrefix] using h)

@[simp] theorem parseUnary_not (self : Parse Expr) (ts : List Tok) :
    parseUnary self (.ident "not" :: ts)
      = (parseUnary self ts).map fun x => (.unary .not x.1, x.2) := rfl

@[simp] theorem parseUnary_pre (self : Parse Expr) (ts : List Tok) :
    parseUnary self (.ident "pre" :: ts) = (parseUnary self ts).map fun x => (.pre x.1, x.2) := rfl

@[simp] theorem parseUnary_minus (self : Parse Expr) (ts : List Tok) :
    parseUnary self (.minus :: ts)
      = (parseUnary self ts).map fun x => (.unary .neg x.1, x.2) := rfl

theorem parseUnary_of_noPrefix {self : Parse Expr} {ts : List Tok} (h : NoPrefix ts) :
    parseUnary self ts = parsePostfix self ts := by
  unfold parseUnary
  split
  · have := h _ rfl
    simp_all
  · exact absurd rfl (h _ rfl).2.2
  · rfl

section Ensures

variable {self : Parse Expr} {Q : List Tok → Expr → List Tok → Prop}
  {Qs : List Tok → List Expr → List Tok → Prop}
  {Qf : List Tok → List (String × Expr) → List Tok → Prop}

theorem parseItems_ensures {α : Type} {item : Parse α} {sep close : Tok}
    {P : List Tok → α → List Tok → Prop} {Ps : List Tok → List α → List Tok → Prop}
    (hitem : item.Ensures P) (none : ∀ ts, Ps ts [] ts)
    (one : ∀ ts a rest, P ts a rest → Ps ts [a] rest)
    (more : ∀ ts a t mid as rest, P ts a (t :: mid) → Ps mid as rest → Ps ts (a :: as) rest) :
    (parseItems item sep close).Ensures fun ts as rest => Ps ts as (close :: rest) := by
  intro ts as rest h
  cases ts with
  | nil => cases h
  | cons t ts =>
    simp only [parseItems] at h
    split at h
    · next heq =>
      cases h
      rw [heq]
      exact none _
    · obtain ⟨⟨as', mid⟩, has, h⟩ := Except.bind_eq_ok.mp h
      obtain ⟨rest', hexpect, h⟩ := Except.bind_eq_ok.mp h
      cases h
      rw [expect_eq_ok] at hexpect
      subst hexpect
      exact Parser.sepBy_ensures hitem one (fun ts a t mid as rest _ => more ts a t mid as rest)
        _ _ _ has

theorem parseFieldInit_ensures (hself : self.Ensures Q) :
    (parseFieldInit self).Ensures fun ts x rest =>
      ∃ ts', ts = .ident x.1 :: .colon :: ts' ∧ Q ts' x.2 rest := by
  intro ts x rest h
  unfold parseFieldInit at h
  split at h
  · obtain ⟨ts', hcolon, h⟩ := Except.bind_eq_ok.mp h
    obtain ⟨⟨e, rest'⟩, he, h⟩ := Except.bind_eq_ok.mp h
    cases h
    rw [expect_eq_ok] at hcolon
    exact ⟨ts', by rw [hcolon], hself _ _ _ he⟩
  · cases h

variable (hQ : Closed Q Qs Qf) (hself : self.Ensures Q)

include hQ hself

theorem parseIf_ensures :
    (parseIf self).Ensures fun ts e rest => Q (.ident "if" :: ts) e rest := by
  intro ts e rest h
  obtain ⟨⟨c, ts₁⟩, hc, h⟩ := Except.bind_eq_ok.mp h
  obtain ⟨ts₂, hthen, h⟩ := Except.bind_eq_ok.mp h
  obtain ⟨⟨t, ts₃⟩, ht, h⟩ := Except.bind_eq_ok.mp h
  obtain ⟨ts₄, helse, h⟩ := Except.bind_eq_ok.mp h
  obtain ⟨⟨e', ts₅⟩, he, h⟩ := Except.bind_eq_ok.mp h
  cases h
  cases expectKw_eq_ok.mp hthen
  cases expectKw_eq_ok.mp helse
  exact hQ.ifThenElse ts c ts₂ t ts₄ e' rest (hself _ _ _ hc) (hself _ _ _ ht) (hself _ _ _ he)

theorem parseNamed_ensures {name : String} (hname : name ∉ reserved) :
    (parseNamed self name).Ensures fun ts e rest => Q (.ident name :: ts) e rest := by
  intro ts e rest h
  unfold parseNamed at h
  split at h
  · obtain ⟨⟨args, mid⟩, hargs, h⟩ := Except.bind_eq_ok.mp h
    obtain ⟨e', he, h⟩ := Except.bind_eq_ok.mp h
    cases h
    exact hQ.call name _ args rest e hname
      (parseItems_ensures hself hQ.none hQ.one hQ.more _ _ _ hargs) he
  · obtain ⟨⟨fields, mid⟩, hfields, h⟩ := Except.bind_eq_ok.mp h
    cases h
    apply hQ.struct name _ fields rest hname
    refine parseItems_ensures (parseFieldInit_ensures hself) hQ.noField ?_ ?_ _ _ _ hfields
    · rintro ts ⟨f, e⟩ rest ⟨ts', rfl, he⟩
      exact hQ.oneField f ts' e rest he
    · rintro ts ⟨f, e⟩ t mid fields rest ⟨ts', rfl, he⟩ hrest
      exact hQ.moreFields f ts' e t mid fields rest he hrest
  · cases h
    exact hQ.var name _ hname

theorem parsePrimary_ensures :
    (parsePrimary self).Ensures fun ts e rest => NoPrefix ts → Q ts e rest := by
  intro ts e rest h hpre
  cases ts with
  | nil => cases h
  | cons t ts =>
    cases t with
    | lParen =>
      obtain ⟨⟨e', mid⟩, he, h⟩ := Except.bind_eq_ok.mp h
      obtain ⟨rest', hclose, h⟩ := Except.bind_eq_ok.mp h
      cases h
      cases expect_eq_ok.mp hclose
      exact hQ.paren _ e rest (hself _ _ _ he)
    | int n =>
      cases h
      exact hQ.int _ _
    | float f =>
      cases h
      exact hQ.float _ _
    | typedInt n ty =>
      cases h
      exact hQ.typedInt _ _ _
    | typedFloat f ty =>
      cases h
      exact hQ.typedFloat _ _ _
    | charLit b =>
      cases h
      exact hQ.charLit _ _
    | str s =>
      cases h
      exact hQ.str _ _
    | lBracket =>
      obtain ⟨⟨es, mid⟩, hes, h⟩ := Except.bind_eq_ok.mp h
      cases h
      exact hQ.array _ es rest (parseItems_ensures hself hQ.none hQ.one hQ.more _ _ _ hes)
    | ident name =>
      have hne := hpre _ rfl
      rw [parsePrimary_ident_eq] at h
      split at h
      · cases h
        exact hQ.bool _ _ _
      split at h
      · cases h
        exact hQ.bool _ _ _
      split at h
      · next hif =>
        rw [hif]
        exact parseIf_ensures hQ hself _ _ _ h
      · exact parseNamed_ensures hQ hself (by simp_all [reserved]) _ _ _ h
    | _ => cases h

theorem parsePostfix_ensures :
    (parsePostfix self).Ensures fun ts e rest => NoPrefix ts → Q ts e rest := by
  apply Parser.chain_ensures (parsePrimary_ensures hQ hself)
  intro ts e mid e' rest he h hpre
  unfold postfixStep at h
  split at h
  · cases h
    exact hQ.field ts e _ rest (he hpre)
  · cases h
  · simp only [Option.some.injEq] at h
    obtain ⟨⟨i, mid'⟩, hi, h⟩ := Except.bind_eq_ok.mp h
    obtain ⟨rest', hclose, h⟩ := Except.bind_eq_ok.mp h
    cases h
    cases expect_eq_ok.mp hclose
    exact hQ.index ts e _ i rest (he hpre) (hself _ _ _ hi)
  · cases h

theorem parseUnary_ensures : (parseUnary self).Ensures Q := by
  intro ts
  induction ts with
  | nil => exact fun e rest h => parsePostfix_ensures hQ hself [] e rest h (by simp [NoPrefix])
  | cons t ts ih =>
    intro e rest h
    rcases noPrefix_or (t :: ts) with hpre | ⟨ts', heq | heq | heq⟩
    · rw [parseUnary_of_noPrefix hpre] at h
      exact parsePostfix_ensures hQ hself _ e rest h hpre
    · cases heq
      obtain ⟨x, hx, h⟩ := Except.map_eq_ok.mp h
      cases h
      exact hQ.not ts x.1 x.2 (ih _ _ hx)
    · cases heq
      obtain ⟨x, hx, h⟩ := Except.map_eq_ok.mp h
      cases h
      exact hQ.pre ts x.1 x.2 (ih _ _ hx)
    · cases heq
      obtain ⟨x, hx, h⟩ := Except.map_eq_ok.mp h
      cases h
      exact hQ.neg ts x.1 x.2 (ih _ _ hx)

theorem parseMul_ensures : (parseMul self).Ensures Q :=
  Parser.leftAssoc_ensures (parseUnary_ensures hQ hself) (hQ.infixes mulOp (by simp [infixOps]))

theorem parseAdd_ensures : (parseAdd self).Ensures Q :=
  Parser.leftAssoc_ensures (parseMul_ensures hQ hself) (hQ.infixes addOp (by simp [infixOps]))

theorem parseShift_ensures : (parseShift self).Ensures Q :=
  Parser.leftAssoc_ensures (parseAdd_ensures hQ hself) (hQ.infixes shiftOp (by simp [infixOps]))

theorem parseCmp_ensures : (parseCmp self).Ensures Q :=
  Parser.nonAssoc_ensures (parseShift_ensures hQ hself) (hQ.infixes cmpOp (by simp [infixOps]))

theorem parseBitAnd_ensures : (parseBitAnd self).Ensures Q :=
  Parser.leftAssoc_ensures (parseCmp_ensures hQ hself) (hQ.infixes bitAndOp (by simp [infixOps]))

theorem parseBitXor_ensures : (parseBitXor self).Ensures Q :=
  Parser.leftAssoc_ensures (parseBitAnd_ensures hQ hself)
    (hQ.infixes bitXorOp (by simp [infixOps]))

theorem parseBitOr_ensures : (parseBitOr self).Ensures Q :=
  Parser.leftAssoc_ensures (parseBitXor_ensures hQ hself) (hQ.infixes bitOrOp (by simp [infixOps]))

theorem parseAnd_ensures : (parseAnd self).Ensures Q :=
  Parser.leftAssoc_ensures (parseBitOr_ensures hQ hself) (hQ.infixes andOp (by simp [infixOps]))

theorem parseOr_ensures : (parseOr self).Ensures Q :=
  Parser.leftAssoc_ensures (parseAnd_ensures hQ hself) (hQ.infixes orOp (by simp [infixOps]))

theorem parseImplies_ensures : (parseImplies self).Ensures Q :=
  Parser.rightAssoc_ensures (parseOr_ensures hQ hself)
    (hQ.infixes impliesOp (by simp [infixOps]))

theorem parseWhen_ensures : (parseWhen self).Ensures Q := by
  apply Parser.chain_ensures (parseImplies_ensures hQ hself)
  intro ts e mid e' rest he h
  rcases whenStep_eq_ok h with ⟨clock, hclock, rfl, rfl⟩ | ⟨clock, rfl, rfl⟩
  · exact hQ.when ts e clock rest hclock he
  · exact hQ.whenNot ts e clock rest he

theorem parseArrow_ensures : (parseArrow self).Ensures Q :=
  Parser.rightAssoc_ensures (parseWhen_ensures hQ hself) (hQ.infixes arrowOp (by simp [infixOps]))

omit hself in
/-- What every production of the grammar preserves holds whenever the parser
returns. -/
theorem parseDepth_ensures : ∀ n, (parseDepth n).Ensures Q
  | 0 => fun _ _ _ h => nomatch h
  | n + 1 => parseArrow_ensures hQ (parseDepth_ensures n)

omit hself in
theorem parseTokens_ensures : parseTokens.Ensures Q :=
  fun ts => parseDepth_ensures hQ _ ts

end Ensures

/-- Every production reads a token. -/
theorem closed_consumes :
    Closed (fun ts _ rest => rest.length < ts.length) (fun ts _ rest => rest.length ≤ ts.length)
      (fun ts _ rest => rest.length ≤ ts.length) where
  infixes := by
    intro op _ ts t mid f l r rest _ hl hr
    simp only [List.length_cons] at hl
    omega
  int := by simp
  float := by simp
  typedInt := by simp
  typedFloat := by simp
  charLit := by simp
  str := by simp
  bool := by simp
  var := by simp
  none := by simp
  noField := by simp
  paren := by grind
  array := by grind
  ifThenElse := by grind
  call := by grind
  struct := by grind
  field := by grind
  index := by grind
  not := by grind
  pre := by grind
  neg := by grind
  when := by grind
  whenNot := by grind
  one := by grind
  more := by grind
  oneField := by grind
  moreFields := by grind

section Congr

variable {self self' : Parse Expr} {k : Nat}

theorem parseItems_congr {α : Type} {item item' : Parse α} {sep close : Tok}
    (h : Parser.AgreeTo k item item') (hc : item.Consumes) :
    Parser.AgreeTo k (parseItems item sep close) (parseItems item' sep close) := by
  intro ts hk
  cases ts with
  | nil => rfl
  | cons t ts => simp only [parseItems, Parser.sepBy_congr h hc (t :: ts) hk]

variable (h : Parser.AgreeTo k self self') (hc : self.Consumes)

include h in
theorem parseFieldInit_congr :
    Parser.AgreeTo k (parseFieldInit self) (parseFieldInit self') := by
  intro ts hk
  unfold parseFieldInit
  split
  · next f ts =>
    cases hcolon : expect .colon ts with
    | error e => rfl
    | ok ts' =>
      cases expect_eq_ok.mp hcolon
      simp only [List.length_cons] at hk
      simp only [bind, Except.bind, h ts' (by omega)]
  · rfl

include hc in
theorem parseFieldInit_consumes : (parseFieldInit self).Consumes := by
  intro ts x rest hx
  obtain ⟨ts', rfl, hlt⟩ := parseFieldInit_ensures hc ts x rest hx
  simp only [List.length_cons]
  omega

include h hc

theorem parseIf_congr : Parser.AgreeTo k (parseIf self) (parseIf self') := by
  intro ts hk
  simp only [parseIf, ← h ts hk]
  cases hcond : self ts with
  | error e => rfl
  | ok x =>
    have hlt := hc ts x.1 x.2 hcond
    simp only [bind, Except.bind]
    cases hthen : expectKw "then" x.2 with
    | error e => rfl
    | ok ts₁ =>
      have hlen := congrArg List.length (expectKw_eq_ok.mp hthen)
      simp only [List.length_cons] at hlen
      simp only [← h ts₁ (by omega)]
      cases hbranch : self ts₁ with
      | error e => rfl
      | ok y =>
        have hlt' := hc ts₁ y.1 y.2 hbranch
        simp only
        cases helse : expectKw "else" y.2 with
        | error e => rfl
        | ok ts₂ =>
          have hlen' := congrArg List.length (expectKw_eq_ok.mp helse)
          simp only [List.length_cons] at hlen'
          simp only [← h ts₂ (by omega)]

theorem parseNamed_congr (name : String) :
    Parser.AgreeTo k (parseNamed self name) (parseNamed self' name) := by
  intro ts hk
  unfold parseNamed
  split
  · simp only [List.length_cons] at hk
    rw [parseItems_congr h hc _ (by omega)]
  · simp only [List.length_cons] at hk
    rw [parseItems_congr (parseFieldInit_congr h) (parseFieldInit_consumes hc) _ (by omega)]
  · rfl

/-- Every level looks at shorter lists of tokens through `self`. -/
theorem parsePrimary_congr : Parser.AgreeTo (k + 1) (parsePrimary self) (parsePrimary self') := by
  intro ts hk
  cases ts with
  | nil => rfl
  | cons t ts =>
    simp only [List.length_cons] at hk
    cases t with
    | lParen => rw [parsePrimary_lParen, parsePrimary_lParen, h _ (by omega)]
    | lBracket =>
      rw [parsePrimary_lBracket, parsePrimary_lBracket, parseItems_congr h hc _ (by omega)]
    | ident name =>
      rw [parsePrimary_ident_eq, parsePrimary_ident_eq, parseIf_congr h hc _ (by omega),
        parseNamed_congr h hc _ _ (by omega)]
    | _ => rfl

omit h in
theorem postfixStep_advances : (postfixStep self).Advances := by
  intro e ts e' rest hs
  unfold postfixStep at hs
  split at hs
  · cases hs
    grind
  · cases hs
  · simp only [Option.some.injEq] at hs
    obtain ⟨⟨i, mid⟩, hi, hs⟩ := Except.bind_eq_ok.mp hs
    obtain ⟨rest', hclose, hs⟩ := Except.bind_eq_ok.mp hs
    cases hs
    have hlt := hc _ _ _ hi
    have hlen := congrArg List.length (expect_eq_ok.mp hclose)
    simp only [List.length_cons] at hlen ⊢
    omega
  · cases hs

theorem parsePostfix_congr {ts : List Tok} (hk : ts.length ≤ k + 1) (hpre : NoPrefix ts) :
    parsePostfix self ts = parsePostfix self' ts := by
  apply Parser.chain_congr (k := k) (parsePrimary_congr h hc ts hk) _ (postfixStep_advances hc)
  · intro e ts hk
    unfold postfixStep
    split <;> try rfl
    simp only [List.length_cons] at hk
    rw [h _ (by omega)]
  · intro e rest hs
    have := parsePrimary_ensures closed_consumes hc ts e rest hs hpre
    omega

theorem parseUnary_congr : Parser.AgreeTo (k + 1) (parseUnary self) (parseUnary self') := by
  intro ts
  induction ts with
  | nil => exact fun hk => parsePostfix_congr h hc hk (by simp [NoPrefix])
  | cons t ts ih =>
    intro hk
    have ih := ih (by simp only [List.length_cons] at hk; omega)
    rcases noPrefix_or (t :: ts) with hpre | ⟨ts', heq | heq | heq⟩
    · rw [parseUnary_of_noPrefix hpre, parseUnary_of_noPrefix hpre]
      exact parsePostfix_congr h hc hk hpre
    · cases heq
      rw [parseUnary_not, parseUnary_not, ih]
    · cases heq
      rw [parseUnary_pre, parseUnary_pre, ih]
    · cases heq
      rw [parseUnary_minus, parseUnary_minus, ih]

theorem parseCmp_congr : Parser.AgreeTo (k + 1) (parseCmp self) (parseCmp self') := by
  have hmul : Parser.AgreeTo (k + 1) (parseMul self) (parseMul self') :=
    Parser.leftAssoc_congr (parseUnary_congr h hc) (parseUnary_ensures closed_consumes hc)
  have hadd : Parser.AgreeTo (k + 1) (parseAdd self) (parseAdd self') :=
    Parser.leftAssoc_congr hmul (parseMul_ensures closed_consumes hc)
  have hshift : Parser.AgreeTo (k + 1) (parseShift self) (parseShift self') :=
    Parser.leftAssoc_congr hadd (parseAdd_ensures closed_consumes hc)
  exact Parser.nonAssoc_congr hshift (parseShift_ensures closed_consumes hc)

theorem parseImplies_congr : Parser.AgreeTo (k + 1) (parseImplies self) (parseImplies self') := by
  have hbitAnd : Parser.AgreeTo (k + 1) (parseBitAnd self) (parseBitAnd self') :=
    Parser.leftAssoc_congr (parseCmp_congr h hc) (parseCmp_ensures closed_consumes hc)
  have hbitXor : Parser.AgreeTo (k + 1) (parseBitXor self) (parseBitXor self') :=
    Parser.leftAssoc_congr hbitAnd (parseBitAnd_ensures closed_consumes hc)
  have hbitOr : Parser.AgreeTo (k + 1) (parseBitOr self) (parseBitOr self') :=
    Parser.leftAssoc_congr hbitXor (parseBitXor_ensures closed_consumes hc)
  have hand : Parser.AgreeTo (k + 1) (parseAnd self) (parseAnd self') :=
    Parser.leftAssoc_congr hbitOr (parseBitOr_ensures closed_consumes hc)
  have hor : Parser.AgreeTo (k + 1) (parseOr self) (parseOr self') :=
    Parser.leftAssoc_congr hand (parseAnd_ensures closed_consumes hc)
  exact Parser.rightAssoc_congr hor (parseOr_ensures closed_consumes hc)

theorem parseArrow_congr : Parser.AgreeTo (k + 1) (parseArrow self) (parseArrow self') := by
  have hwhen : Parser.AgreeTo (k + 1) (parseWhen self) (parseWhen self') := by
    intro ts hk
    apply Parser.chain_congr (k := k) (parseImplies_congr h hc ts hk) _ whenStep_advances
      fun _ _ _ => rfl
    intro e rest hs
    have := parseImplies_ensures closed_consumes hc ts e rest hs
    omega
  exact Parser.rightAssoc_congr hwhen (parseWhen_ensures closed_consumes hc)

end Congr

/-- Where no expression starts there is none at any level. -/
theorem parseArrow_error {self : Parse Expr} {ts : List Tok} {err : ParseError}
    (h : parsePrimary self ts = .error err) (hpre : NoPrefix ts) :
    parseArrow self ts = .error err := by
  have hunary : parseUnary self ts = .error err := by
    rw [parseUnary_of_noPrefix hpre]
    exact Parser.chain_error h
  have hmul : parseMul self ts = .error err := Parser.chain_error hunary
  have hcmp : parseCmp self ts = .error err :=
    Parser.nonAssoc_error (Parser.chain_error (Parser.chain_error hmul))
  have hor : parseOr self ts = .error err :=
    Parser.chain_error (Parser.chain_error (Parser.chain_error (Parser.chain_error
      (Parser.chain_error hcmp))))
  exact Parser.rightAssoc_error (Parser.chain_error (Parser.rightAssoc_error hor))

theorem parseArrow_nil (self : Parse Expr) : parseArrow self [] = .error .unexpectedEof :=
  parseArrow_error rfl (by simp [NoPrefix])

/-- Brackets nest at most as deep as there are tokens. -/
theorem parseDepth_congr : ∀ k n m, k < n → k < m → Parser.AgreeTo k (parseDepth n) (parseDepth m)
  | _, 0, _, hn, _ => absurd hn (Nat.not_lt_zero _)
  | _, _, 0, _, hm => absurd hm (Nat.not_lt_zero _)
  | 0, n + 1, m + 1, _, _ => by
    intro ts hk
    cases List.length_eq_zero_iff.mp (Nat.le_zero.mp hk)
    rw [parseDepth, parseDepth, parseArrow_nil, parseArrow_nil]
  | k + 1, n + 1, m + 1, hn, hm =>
    parseArrow_congr (parseDepth_congr k n m (by omega) (by omega))
      (parseDepth_ensures closed_consumes n)

/-- The grammar's recursion, without the bound. -/
theorem parseTokens_eq : parseTokens = parseArrow parseTokens := by
  funext ts
  cases ts with
  | nil => rw [parseTokens, parseDepth, parseArrow_nil, parseArrow_nil]
  | cons t ts =>
    apply parseArrow_congr (k := ts.length) _ (parseDepth_ensures closed_consumes _) _ (by simp)
    intro ts' hk
    exact parseDepth_congr ts'.length _ _ (by simp; omega) (Nat.lt_succ_self _) ts' le_rfl

theorem parseTokens_consumes : parseTokens.Consumes := parseTokens_ensures closed_consumes

end OpenLustre.Stdlib
