import OpenLustre.Ir.Types
import OpenLustre.Lib.Ieee

/-! The strict expression IR, its induction principle and its traversals. -/

namespace OpenLustre.Ir

inductive UnaryOp
  | not
  | neg
  deriving DecidableEq, Repr

inductive BinOp
  | and
  | or
  | xor
  | implies
  | eq
  | neq
  | lt
  | le
  | gt
  | ge
  | add
  | sub
  | mul
  | div
  | mod
  | bitAnd
  | bitOr
  | bitXor
  | shl
  | shr
  deriving DecidableEq, Repr

inductive IterKind
  | map
  | fold
  deriving DecidableEq, Repr

abbrev F64 := Ieee.Num Ieee.Format.binary64
abbrev F32 := Ieee.Num Ieee.Format.binary32

inductive Literal
  | bool (value : Bool)
  | int (value : Int)
  | float (value : F64)
  | char (value : UInt8)
  deriving DecidableEq, Repr

/-- Expressions.  A record literal's initialisers pair a field name with its
value; the seed of an iterator is present for a fold. -/
inductive Expr : Type
  | const (lit : Literal)
  | var (name : String)
  | unary (op : UnaryOp) (arg : Expr)
  | binary (op : BinOp) (lhs rhs : Expr)
  | ifThenElse (cond thenBranch elseBranch : Expr)
  | pre (arg : Expr)
  | arrow (init body : Expr)
  | call (node : String) (args : List Expr)
  | field (base : Expr) (field : String)
  | index (base index : Expr)
  | tuple (items : List Expr)
  | array (items : List Expr)
  | struct (ty : String) (fields : List (String × Expr))
  | cast (target : Ty) (arg : Expr)
  | when (arg : Expr) (clock : String) (on : Bool)
  | merge (clock : String) (onTrue onFalse : Expr)
  | iterate (kind : IterKind) (node : String) (init : Option Expr) (arrays : List Expr)
  deriving Repr

namespace Expr

/-- Structural induction in which the hypothesis for a list of subexpressions
ranges over its members. -/
@[induction_eliminator]
theorem induct {P : Expr → Prop}
    (const : ∀ lit, P (.const lit)) (var : ∀ name, P (.var name))
    (unary : ∀ op arg, P arg → P (.unary op arg))
    (binary : ∀ op lhs rhs, P lhs → P rhs → P (.binary op lhs rhs))
    (ifThenElse : ∀ cond thenBranch elseBranch, P cond → P thenBranch → P elseBranch →
      P (.ifThenElse cond thenBranch elseBranch))
    (pre : ∀ arg, P arg → P (.pre arg))
    (arrow : ∀ init body, P init → P body → P (.arrow init body))
    (call : ∀ node args, (∀ a ∈ args, P a) → P (.call node args))
    (field : ∀ base field, P base → P (.field base field))
    (index : ∀ base index, P base → P index → P (.index base index))
    (tuple : ∀ items, (∀ i ∈ items, P i) → P (.tuple items))
    (array : ∀ items, (∀ i ∈ items, P i) → P (.array items))
    (struct : ∀ ty fields, (∀ f ∈ fields, P f.2) → P (.struct ty fields))
    (cast : ∀ target arg, P arg → P (.cast target arg))
    (when : ∀ arg clock on, P arg → P (.when arg clock on))
    (merge : ∀ clock onTrue onFalse, P onTrue → P onFalse → P (.merge clock onTrue onFalse))
    (iterate : ∀ kind node init arrays, (∀ i ∈ init, P i) → (∀ a ∈ arrays, P a) →
      P (.iterate kind node init arrays)) : ∀ e, P e := by
  refine @Expr.rec P (fun items => ∀ i ∈ items, P i) (fun fields => ∀ f ∈ fields, P f.2)
    (fun init => ∀ i ∈ init, P i) (fun f => P f.2) const var unary binary ifThenElse pre arrow
    call field index tuple array struct cast when merge iterate ?_ ?_ ?_ ?_ ?_ ?_ ?_
  · exact fun _ h => nomatch h
  · exact fun _ _ head tail => List.forall_mem_cons.mpr ⟨head, tail⟩
  · exact fun _ h => nomatch h
  · exact fun _ _ head tail => List.forall_mem_cons.mpr ⟨head, tail⟩
  · exact fun _ h => nomatch h
  · intro i ih j hj
    cases hj
    exact ih
  · exact fun _ _ ih => ih

/-- The direct subexpressions, in evaluation order. -/
def children : Expr → List Expr
  | .const _ | .var _ => []
  | .unary _ arg | .pre arg | .cast _ arg | .when arg _ _ | .field arg _ => [arg]
  | .binary _ lhs rhs | .arrow lhs rhs | .index lhs rhs => [lhs, rhs]
  | .ifThenElse cond thenBranch elseBranch => [cond, thenBranch, elseBranch]
  | .merge _ onTrue onFalse => [onTrue, onFalse]
  | .call _ items | .tuple items | .array items => items
  | .struct _ fields => fields.map (·.2)
  | .iterate _ _ init arrays => init.toList ++ arrays

mutual

/-- The subexpressions of an expression, itself first, in the order `visit`
walks them. -/
def subterms : Expr → List Expr
  | .const lit => [.const lit]
  | .var name => [.var name]
  | .unary op arg => .unary op arg :: arg.subterms
  | .binary op lhs rhs => .binary op lhs rhs :: (lhs.subterms ++ rhs.subterms)
  | .ifThenElse c t e => .ifThenElse c t e :: (c.subterms ++ (t.subterms ++ e.subterms))
  | .pre arg => .pre arg :: arg.subterms
  | .arrow init body => .arrow init body :: (init.subterms ++ body.subterms)
  | .call node args => .call node args :: subtermsList args
  | .field base f => .field base f :: base.subterms
  | .index base i => .index base i :: (base.subterms ++ i.subterms)
  | .tuple items => .tuple items :: subtermsList items
  | .array items => .array items :: subtermsList items
  | .struct ty fields => .struct ty fields :: subtermsFields fields
  | .cast target arg => .cast target arg :: arg.subterms
  | .when arg clock on => .when arg clock on :: arg.subterms
  | .merge clock t f => .merge clock t f :: (t.subterms ++ f.subterms)
  | .iterate kind node none arrays => .iterate kind node none arrays :: subtermsList arrays
  | .iterate kind node (some init) arrays =>
    .iterate kind node (some init) arrays :: (init.subterms ++ subtermsList arrays)

def subtermsList : List Expr → List Expr
  | [] => []
  | e :: es => e.subterms ++ subtermsList es

def subtermsFields : List (String × Expr) → List Expr
  | [] => []
  | (_, e) :: fields => e.subterms ++ subtermsFields fields

end

/-- The variable an expression itself reads, apart from its subexpressions. -/
def readName : Expr → Option String
  | .var name | .when _ name _ | .merge name _ _ => some name
  | _ => none

/-- True if the expression syntactically contains any temporal operator. -/
def containsTemporal (e : Expr) : Bool :=
  e.subterms.any fun
    | .pre _ | .arrow _ _ => true
    | _ => false

def hasCall (e : Expr) : Bool :=
  e.subterms.any fun
    | .call _ _ => true
    | _ => false

def usesClocks (e : Expr) : Bool :=
  e.subterms.any fun
    | .when _ _ _ | .merge _ _ _ => true
    | _ => false

/-- Free variable names in the order of their first occurrence.  The clock
conditions of `when` and `merge` are variable reads and count too. -/
def freeVars (e : Expr) : List String :=
  e.subterms.foldl (fun out x =>
    match x.readName with
    | some name => if out.contains name then out else out ++ [name]
    | none => out) []

/-- The nodes an expression applies, by calls and iterators. -/
def applied (e : Expr) : List String :=
  e.subterms.filterMap fun
    | .call node _ => some node
    | .iterate _ node _ _ => some node
    | _ => none

mutual

/-- Rename every occurrence of variable `source` to `target`. -/
def renameVar (source target : String) : Expr → Expr
  | .const lit => .const lit
  | .var name => .var (if name = source then target else name)
  | .unary op arg => .unary op (arg.renameVar source target)
  | .binary op lhs rhs => .binary op (lhs.renameVar source target) (rhs.renameVar source target)
  | .ifThenElse c t e =>
    .ifThenElse (c.renameVar source target) (t.renameVar source target) (e.renameVar source target)
  | .pre arg => .pre (arg.renameVar source target)
  | .arrow init body => .arrow (init.renameVar source target) (body.renameVar source target)
  | .call node args => .call node (renameVarList source target args)
  | .field base f => .field (base.renameVar source target) f
  | .index base i => .index (base.renameVar source target) (i.renameVar source target)
  | .tuple items => .tuple (renameVarList source target items)
  | .array items => .array (renameVarList source target items)
  | .struct ty fields => .struct ty (renameVarFields source target fields)
  | .cast ty arg => .cast ty (arg.renameVar source target)
  | .when arg clock on =>
    .when (arg.renameVar source target) (if clock = source then target else clock) on
  | .merge clock t f =>
    .merge (if clock = source then target else clock) (t.renameVar source target)
      (f.renameVar source target)
  | .iterate kind node none arrays => .iterate kind node none (renameVarList source target arrays)
  | .iterate kind node (some init) arrays =>
    .iterate kind node (some (init.renameVar source target)) (renameVarList source target arrays)

def renameVarList (source target : String) : List Expr → List Expr
  | [] => []
  | e :: es => e.renameVar source target :: renameVarList source target es

def renameVarFields (source target : String) : List (String × Expr) → List (String × Expr)
  | [] => []
  | (f, e) :: fields => (f, e.renameVar source target) :: renameVarFields source target fields

end

theorem subtermsList_eq (es : List Expr) : subtermsList es = es.flatMap subterms := by
  induction es with
  | nil => rfl
  | cons e es ih => simp [subtermsList, ih]

theorem subtermsFields_eq (fields : List (String × Expr)) :
    subtermsFields fields = fields.flatMap fun f => f.2.subterms := by
  induction fields with
  | nil => rfl
  | cons f fields ih => simp [subtermsFields, ih]

theorem subterms_eq (e : Expr) : e.subterms = e :: e.children.flatMap subterms := by
  cases e with
  | iterate kind node init arrays =>
    cases init <;> simp [subterms, children, subtermsList_eq]
  | struct ty fields => simp [subterms, children, subtermsFields_eq, List.flatMap_map]
  | _ => simp [subterms, children, subtermsList_eq]

theorem self_mem_subterms (e : Expr) : e ∈ e.subterms := by
  rw [subterms_eq]
  exact List.mem_cons_self

/-- Structural induction with one hypothesis for all direct subexpressions. -/
theorem children_induct {P : Expr → Prop} (h : ∀ e, (∀ c ∈ e.children, P c) → P e) (e : Expr) :
    P e := by
  induction e with
  | const | var => exact h _ (by simp [children])
  | unary _ _ ih | pre _ ih | cast _ _ ih | when _ _ _ ih | field _ _ ih =>
    exact h _ (by simpa [children] using ih)
  | binary _ _ _ ihl ihr | arrow _ _ ihl ihr | index _ _ ihl ihr | merge _ _ _ ihl ihr =>
    exact h _ (by simpa [children] using ⟨ihl, ihr⟩)
  | ifThenElse _ _ _ ihc iht ihe => exact h _ (by simpa [children] using ⟨ihc, iht, ihe⟩)
  | call _ _ ih | tuple _ ih | array _ ih => exact h _ ih
  | struct _ _ ih =>
    refine h _ fun c hc => ?_
    obtain ⟨f, hf, rfl⟩ := List.mem_map.mp hc
    exact ih f hf
  | iterate _ _ init arrays ihi iha =>
    refine h _ fun c hc => ?_
    rcases List.mem_append.mp hc with hc | hc
    · exact ihi c (by simpa using hc)
    · exact iha c hc

theorem subterms_of_child {c e x : Expr} (h : c ∈ e.children) (hx : x ∈ c.subterms) :
    x ∈ e.subterms := by
  rw [subterms_eq]
  exact List.mem_cons_of_mem _ (List.mem_flatMap.mpr ⟨c, h, hx⟩)

theorem mem_freeVars {e : Expr} {x : String} : x ∈ e.freeVars ↔ ∃ t ∈ e.subterms, t.readName = some x := by
  have hfold (terms : List Expr) (out : List String) :
      x ∈ terms.foldl (fun out t =>
        match t.readName with
        | some name => if out.contains name then out else out ++ [name]
        | none => out) out ↔ x ∈ out ∨ ∃ t ∈ terms, t.readName = some x := by
    induction terms generalizing out with
    | nil => simp
    | cons t terms ih =>
      simp only [List.foldl_cons, ih, List.mem_cons, exists_eq_or_imp, ← or_assoc]
      refine or_congr ?_ Iff.rfl
      cases t.readName with
      | none => simp
      | some name =>
        simp only [List.contains_eq_mem, decide_eq_true_eq, Option.some.injEq]
        split
        · next hmem => exact ⟨.inl, fun h => h.elim id fun heq => heq ▸ hmem⟩
        · rw [List.mem_append, List.mem_singleton, eq_comm]
  exact (hfold e.subterms []).trans (by simp)

end Expr

end OpenLustre.Ir
