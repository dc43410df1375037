import Mathlib.Data.List.TakeWhile
import OpenLustre.Stdlib.Parser

/-! The expressions that parsing a text can give. -/

namespace OpenLustre.Stdlib

open OpenLustre.Ir

/-- The name an identifier token carries. -/
def Word (name : String) : Prop :=
  ∃ b bs, isIdentStart b ∧ (∀ x ∈ bs, isIdentPart x) ∧ name = ofBytes (b :: bs)

/-- The literals of the lexer: no negative number and no NaN. -/
def ReadLiteral : Literal → Prop
  | .bool _ | .char _ => True
  | .int n => 0 ≤ n ∧ n ≤ i64Max
  | .float f => f.neg = false ∧ ¬ f.isNaN

def Tok.Valid : Tok → Prop
  | .ident s => Word s
  | .int n => ReadLiteral (.int n)
  | .float f => ReadLiteral (.float f)
  | .typedInt n ty => ReadLiteral (.int n) ∧ ty.isNumeric
  | .typedFloat f ty => ReadLiteral (.float f) ∧ ty.isNumeric
  | _ => True

theorem symbol_valid {c : Char} {next : Option Char} {t : Tok} {n : Nat}
    (h : symbol c next = some (t, n)) : t.Valid := by
  unfold symbol at h
  split at h <;> cases h <;> trivial

theorem numericSuffixType_isNumeric {s : String} {ty : Ty} (h : numericSuffixType s = some ty) :
    ty.isNumeric := by
  unfold numericSuffixType at h
  split at h <;> cases h <;> rfl

theorem scanSuffix_isNumeric {bs : List UInt8} {ty : Ty} (h : (scanSuffix bs).1 = some ty) :
    ty.isNumeric := by
  unfold scanSuffix at h
  split at h
  · cases h
  · split at h
    · split at h
      · next hs =>
        cases h
        exact numericSuffixType_isNumeric hs
      · cases h
    · cases h

theorem intLiteral_valid {start : Nat} {c : Char} {digits : List Char} {n : Int}
    (h : intLiteral start c digits = .ok n) : ReadLiteral (.int n) := by
  unfold intLiteral at h
  simp only at h
  split at h
  · cases h
    exact ⟨Int.natCast_nonneg _, by exact_mod_cast ‹_›⟩
  · cases h

theorem floatLiteral_valid (whole fraction : List Char) :
    ReadLiteral (.float (floatLiteral whole fraction)) := by
  refine ⟨rfl, fun hnan => ?_⟩
  exact absurd (of_decide_eq_true hnan) (Nat.not_lt.mpr (Ieee.Num.roundBits_le _ _))

theorem decimalLiteral_valid {start : Nat} {c : Char} {bs rest : List UInt8} {t : Tok}
    (h : decimalLiteral start c bs = .ok (t, rest)) : t.Valid := by
  unfold decimalLiteral at h
  simp only at h
  split at h
  · next hty =>
    cases h
    exact ⟨floatLiteral_valid _ _, scanSuffix_isNumeric hty⟩
  · next hty =>
    obtain ⟨n, hn, h⟩ := Except.map_eq_ok.mp h
    cases h
    exact ⟨intLiteral_valid hn, scanSuffix_isNumeric hty⟩
  · cases h
    exact floatLiteral_valid _ _
  · obtain ⟨n, hn, h⟩ := Except.map_eq_ok.mp h
    cases h
    exact intLiteral_valid hn

theorem charLiteral_valid {bs rest : List UInt8} {t : Tok} (h : charLiteral bs = .ok (t, rest)) :
    t.Valid := by
  obtain ⟨⟨value, mid⟩, -, h⟩ := Except.bind_eq_ok.mp h
  cases mid with
  | nil => cases h
  | cons q mid =>
    simp only at h
    split at h
    · cases h
      trivial
    · cases h

theorem hexLiteral_valid {start : Nat} {c : Char} {bs rest : List UInt8} {t : Tok}
    (h : hexLiteral start c bs = .ok (t, rest)) : t.Valid := by
  unfold hexLiteral at h
  simp only at h
  split at h
  · cases h
  · next hle =>
    cases h
    simp only [Bool.or_eq_true, decide_eq_true_eq, not_or, not_lt] at hle
    exact ⟨Int.natCast_nonneg _, by exact_mod_cast hle.2⟩

theorem lexeme_valid {start : Nat} {b : UInt8} {bs rest : List UInt8} {t : Tok}
    (h : lexeme start b bs = .ok (t, rest)) : t.Valid := by
  unfold lexeme at h
  cases hs : symbol (asChar b) (bs.head?.map asChar) with
  | some x =>
    simp only [hs] at h
    cases h
    exact symbol_valid hs
  | none =>
    simp only [hs] at h
    split_ifs at h with hc hstr hdigit hhex hident
    · exact charLiteral_valid h
    · obtain ⟨x, -, h⟩ := Except.map_eq_ok.mp h
      cases h
      trivial
    · exact hexLiteral_valid h
    · exact decimalLiteral_valid h
    · cases h
      exact ⟨b, _, hident, fun x hx => List.mem_takeWhile_imp hx, rfl⟩

theorem tokenizeN_valid {total : Nat} : ∀ {n bs ts}, tokenizeN total n bs = .ok ts →
    ∀ t ∈ ts, t.Valid
  | n, [], ts, h => by
    simp only [tokenizeN] at h
    cases h
    simp
  | 0, _ :: _, ts, h => by
    simp only [tokenizeN] at h
    cases h
    simp
  | n + 1, b :: bs, ts, h => by
    simp only [tokenizeN] at h
    split at h
    · cases h
    split at h
    · exact tokenizeN_valid h
    · obtain ⟨⟨t, rest⟩, ht, h⟩ := Except.bind_eq_ok.mp h
      obtain ⟨ts', hts, h⟩ := Except.bind_eq_ok.mp h
      cases h
      exact List.forall_mem_cons.mpr ⟨lexeme_valid ht, tokenizeN_valid hts⟩

theorem tokenize_valid {src : String} {ts : List Tok} (h : tokenize src = .ok ts) :
    ∀ t ∈ ts, t.Valid :=
  tokenizeN_valid h

/-- A name that calls an operator of its own, not one of the forms written as a
call. -/
def CallWord (name : String) : Prop :=
  Word name ∧ name ∉ reserved ∧ name ∉ ["map", "fold", "merge"] ∧ numericTypeName name = none

/-- The expressions that parsing can give. -/
inductive Parsed : Expr → Prop
  | const (lit) : ReadLiteral lit → Parsed (.const lit)
  | var (name) : Word name → name ∉ reserved → Parsed (.var name)
  | unary (op arg) : Parsed arg → Parsed (.unary op arg)
  | binary (op lhs rhs) : Parsed lhs → Parsed rhs → Parsed (.binary op lhs rhs)
  | ifThenElse (c t e) : Parsed c → Parsed t → Parsed e → Parsed (.ifThenElse c t e)
  | pre (arg) : Parsed arg → Parsed (.pre arg)
  | arrow (init body) : Parsed init → Parsed body → Parsed (.arrow init body)
  | call (node args) : CallWord node → (∀ a ∈ args, Parsed a) → Parsed (.call node args)
  | field (base f) : Word f → Parsed base → Parsed (.field base f)
  | index (base i) : Parsed base → Parsed i → Parsed (.index base i)
  | array (items) : (∀ i ∈ items, Parsed i) → Parsed (.array items)
  | struct (ty fields) : Word ty → ty ∉ reserved → (∀ f ∈ fields, Word f.1) →
    (∀ f ∈ fields, Parsed f.2) → Parsed (.struct ty fields)
  | cast (target arg) : target.isNumeric → Parsed arg → Parsed (.cast target arg)
  | when (arg clock on) : Word clock → (on = true → clock ≠ "not") → Parsed arg →
    Parsed (.when arg clock on)
  | merge (clock t e) : Word clock → clock ∉ reserved → Parsed t → Parsed e →
    Parsed (.merge clock t e)
  | map (node arrays) : Word node → node ∉ reserved → arrays ≠ [] → (∀ a ∈ arrays, Parsed a) →
    Parsed (.iterate .map node none arrays)
  | fold (node init array) : Word node → node ∉ reserved → Parsed init → Parsed array →
    Parsed (.iterate .fold node (some init) [array])

theorem numericTypeName_isNumeric {name : String} {ty : Ty} (h : numericTypeName name = some ty) :
    ty.isNumeric := by
  unfold numericTypeName at h
  split at h <;> cases h <;> rfl

theorem parsed_var {name : String} (h : Parsed (.var name)) : Word name ∧ name ∉ reserved := by
  cases h
  exact ⟨‹_›, ‹_›⟩

theorem finishIterate_parsed {name : String} {args : List Expr} {e : Expr}
    (hargs : ∀ a ∈ args, Parsed a) (h : finishIterate name args = .ok e) : Parsed e := by
  unfold finishIterate at h
  split at h
  · next node rest =>
    obtain ⟨hnode, hrest⟩ := List.forall_mem_cons.mp hargs
    obtain ⟨hword, hnres⟩ := parsed_var hnode
    split at h
    · split at h
      · cases h
      · next hempty =>
        cases h
        exact .map node rest hword hnres (by simpa using hempty) hrest
    · split at h
      · next init array =>
        cases h
        exact .fold node init array hword hnres (hrest init (by simp)) (hrest array (by simp))
      · cases h
  · cases h

theorem finishMerge_parsed {args : List Expr} {e : Expr} (hargs : ∀ a ∈ args, Parsed a)
    (h : finishMerge args = .ok e) : Parsed e := by
  unfold finishMerge at h
  split at h
  · next clock t e =>
    cases h
    obtain ⟨hword, hcres⟩ := parsed_var (hargs (.var clock) (by simp))
    exact .merge clock t e hword hcres (hargs t (by simp)) (hargs e (by simp))
  · cases h
  · cases h

theorem finishCall_parsed {name : String} {args : List Expr} {e : Expr} (hname : Word name)
    (hres : name ∉ reserved) (hargs : ∀ a ∈ args, Parsed a) (h : finishCall name args = .ok e) :
    Parsed e := by
  unfold finishCall at h
  split at h
  · exact finishIterate_parsed hargs h
  split at h
  · exact finishMerge_parsed hargs h
  split at h
  · next ty arg hty =>
    cases h
    exact .cast ty arg (numericTypeName_isNumeric hty) (hargs arg List.mem_cons_self)
  · cases h
  · next hty =>
    cases h
    exact .call name _ ⟨hname, hres, by simp_all, hty⟩ hargs

/-- Every token the parser has not read is valid, and so is what it has made of
the others. -/
def Gives {α : Type} (P : α → Prop) (ts : List Tok) (a : α) (rest : List Tok) : Prop :=
  (∀ t ∈ ts, t.Valid) → P a ∧ ∀ t ∈ rest, t.Valid

theorem infixOps_binary {op : Tok → Option (Expr → Expr → Expr)} (h : op ∈ infixOps) {t : Tok}
    {f : Expr → Expr → Expr} (hf : op t = some f) :
    f = .arrow ∨ ∃ o, f = .binary o := by
  simp only [infixOps, List.mem_cons, List.not_mem_nil, or_false] at h
  rcases h with rfl | rfl | rfl | rfl | rfl | rfl | rfl | rfl | rfl | rfl | rfl <;>
    simp only [arrowOp, impliesOp, orOp, andOp, bitOrOp, bitXorOp, bitAndOp, cmpOp, shiftOp,
      addOp, mulOp] at hf <;>
    grind

theorem closed_parsed : Closed (Gives Parsed) (Gives fun es => ∀ e ∈ es, Parsed e)
    (Gives fun fields => (∀ f ∈ fields, Word f.1) ∧ ∀ f ∈ fields, Parsed f.2) where
  int n ts h := by
    simp only [List.forall_mem_cons] at h
    exact ⟨.const _ h.1, h.2⟩
  float f ts h := by
    simp only [List.forall_mem_cons] at h
    exact ⟨.const _ h.1, h.2⟩
  typedInt n ty ts h := by
    simp only [List.forall_mem_cons] at h
    exact ⟨.cast _ _ h.1.2 (.const _ h.1.1), h.2⟩
  typedFloat f ty ts h := by
    simp only [List.forall_mem_cons] at h
    exact ⟨.cast _ _ h.1.2 (.const _ h.1.1), h.2⟩
  charLit b ts h := ⟨.const _ trivial, (List.forall_mem_cons.mp h).2⟩
  str s ts h := by
    refine ⟨.array _ ?_, (List.forall_mem_cons.mp h).2⟩
    intro i hi
    obtain ⟨b, -, rfl⟩ := List.mem_map.mp hi
    exact .const _ trivial
  bool name b ts h := ⟨.const _ trivial, (List.forall_mem_cons.mp h).2⟩
  var name ts hres h := by
    simp only [List.forall_mem_cons] at h
    exact ⟨.var name h.1 hres, h.2⟩
  paren ts e rest he h := by
    obtain ⟨hp, hrest⟩ := he (List.forall_mem_cons.mp h).2
    exact ⟨hp, (List.forall_mem_cons.mp hrest).2⟩
  array ts es rest hes h := by
    obtain ⟨hp, hrest⟩ := hes (List.forall_mem_cons.mp h).2
    exact ⟨.array es hp, (List.forall_mem_cons.mp hrest).2⟩
  ifThenElse ts c ts₁ t ts₂ e rest hc ht he h := by
    obtain ⟨hpc, hts₁⟩ := hc (List.forall_mem_cons.mp h).2
    obtain ⟨hpt, hts₂⟩ := ht (List.forall_mem_cons.mp hts₁).2
    obtain ⟨hpe, hrest⟩ := he (List.forall_mem_cons.mp hts₂).2
    exact ⟨.ifThenElse c t e hpc hpt hpe, hrest⟩
  call name ts args rest e hres hargs he h := by
    simp only [List.forall_mem_cons] at h
    obtain ⟨hp, hrest⟩ := hargs h.2.2
    exact ⟨finishCall_parsed h.1 hres hp he, (List.forall_mem_cons.mp hrest).2⟩
  struct name ts fields rest hres hfields h := by
    simp only [List.forall_mem_cons] at h
    obtain ⟨hp, hrest⟩ := hfields h.2.2
    exact ⟨.struct name fields h.1 hres hp.1 hp.2, (List.forall_mem_cons.mp hrest).2⟩
  field ts e f rest he h := by
    obtain ⟨hp, hrest⟩ := he h
    simp only [List.forall_mem_cons] at hrest
    exact ⟨.field e f hrest.2.1 hp, hrest.2.2⟩
  index ts e mid i rest he hi h := by
    obtain ⟨hp, hmid⟩ := he h
    obtain ⟨hpi, hrest⟩ := hi (List.forall_mem_cons.mp hmid).2
    exact ⟨.index e i hp hpi, (List.forall_mem_cons.mp hrest).2⟩
  not ts e rest he h := by
    obtain ⟨hp, hrest⟩ := he (List.forall_mem_cons.mp h).2
    exact ⟨.unary .not e hp, hrest⟩
  pre ts e rest he h := by
    obtain ⟨hp, hrest⟩ := he (List.forall_mem_cons.mp h).2
    exact ⟨.pre e hp, hrest⟩
  neg ts e rest he h := by
    obtain ⟨hp, hrest⟩ := he (List.forall_mem_cons.mp h).2
    exact ⟨.unary .neg e hp, hrest⟩
  infixes op hop ts t mid f l r rest hf hl hr h := by
    obtain ⟨hpl, hmid⟩ := hl h
    obtain ⟨hpr, hrest⟩ := hr (List.forall_mem_cons.mp hmid).2
    rcases infixOps_binary hop hf with rfl | ⟨o, rfl⟩
    · exact ⟨.arrow l r hpl hpr, hrest⟩
    · exact ⟨.binary o l r hpl hpr, hrest⟩
  when ts e clock rest hclock he h := by
    obtain ⟨hp, hrest⟩ := he h
    simp only [List.forall_mem_cons] at hrest
    exact ⟨.when e clock true hrest.2.1 (fun _ => hclock) hp, hrest.2.2⟩
  whenNot ts e clock rest he h := by
    obtain ⟨hp, hrest⟩ := he h
    simp only [List.forall_mem_cons] at hrest
    exact ⟨.when e clock false hrest.2.2.1 (fun h => nomatch h) hp, hrest.2.2.2⟩
  none ts h := ⟨by simp, h⟩
  one ts e rest he h := by
    obtain ⟨hp, hrest⟩ := he h
    exact ⟨by simpa using hp, hrest⟩
  more ts e t mid es rest he hes h := by
    obtain ⟨hp, hmid⟩ := he h
    obtain ⟨hps, hrest⟩ := hes (List.forall_mem_cons.mp hmid).2
    exact ⟨List.forall_mem_cons.mpr ⟨hp, hps⟩, hrest⟩
  noField ts h := ⟨by simp, h⟩
  oneField f ts e rest he h := by
    simp only [List.forall_mem_cons] at h
    obtain ⟨hp, hrest⟩ := he h.2.2
    exact ⟨by simpa using ⟨h.1, hp⟩, hrest⟩
  moreFields f ts e t mid fields rest he hfields h := by
    simp only [List.forall_mem_cons] at h
    obtain ⟨hp, hmid⟩ := he h.2.2
    obtain ⟨hps, hrest⟩ := hfields (List.forall_mem_cons.mp hmid).2
    exact ⟨⟨List.forall_mem_cons.mpr ⟨h.1, hps.1⟩, List.forall_mem_cons.mpr ⟨hp, hps.2⟩⟩, hrest⟩

theorem parseExpr_eq_ok {src : String} {e : Expr} :
    parseExpr src = .ok e ↔ ∃ ts, tokenize src = .ok ts ∧ parseTokens ts = .ok (e, []) := by
  unfold parseExpr
  rw [Except.bind_eq_ok]
  apply exists_congr
  intro ts
  rw [Except.bind_eq_ok, and_congr_right_iff]
  intro _
  constructor
  · rintro ⟨⟨e', rest⟩, hp, h⟩
    simp only at h
    split at h
    · next hempty =>
      cases h
      rw [hp, List.isEmpty_iff.mp hempty]
    · cases h
  · exact fun h => ⟨(e, []), h, rfl⟩

theorem parseExpr_parsed {src : String} {e : Expr} (h : parseExpr src = .ok e) : Parsed e := by
  obtain ⟨ts, hts, hp⟩ := parseExpr_eq_ok.mp h
  exact (parseTokens_ensures closed_parsed ts e [] hp (tokenize_valid hts)).1

end OpenLustre.Stdlib
