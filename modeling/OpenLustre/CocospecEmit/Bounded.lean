import Mathlib.Data.Int.Bitwise
import OpenLustre.CocospecEmit.Interval
import OpenLustre.Sim.Value

/-! The values of expressions against their intervals: what the checks leave to trust. -/

namespace OpenLustre.CocospecEmit

open OpenLustre.Ir Bounds
open OpenLustre.Simulator (Value)

/-- The value of an operation on integers, which no width bounds. -/
def evalInts (op : BinOp) (a b : Int) : Option Value :=
  match op with
  | .add => some (.int (a + b))
  | .sub => some (.int (a - b))
  | .mul => some (.int (a * b))
  | .div => if b = 0 then none else some (.int (a.tdiv b))
  | .mod => if b = 0 then none else some (.int (a.tmod b))
  | .bitAnd => some (.int (a.land b))
  | .bitOr => some (.int (a.lor b))
  | .bitXor => some (.int (a.xor b))
  | .shl => if 0 ≤ b ∧ b < 64 then some (.int (a * 2 ^ b.toNat)) else none
  | .shr => if 0 ≤ b ∧ b < 64 then some (.int (a / 2 ^ b.toNat)) else none
  | .eq => some (.bool (decide (a = b)))
  | .neq => some (.bool (decide (a ≠ b)))
  | .lt => some (.bool (decide (a < b)))
  | .le => some (.bool (decide (a ≤ b)))
  | .gt => some (.bool (decide (a > b)))
  | .ge => some (.bool (decide (a ≥ b)))
  | .and | .or | .xor | .implies => none

/-- On anything but integers an operation is the simulator's. -/
def evalOperands (op : BinOp) (l r : Value) : Option Value :=
  match l, r with
  | .int a, .int b => evalInts op a b
  | l, r => (Simulator.evalBinary ⟨true, 0⟩ op l r).toOption

def evalOperand : UnaryOp → Value → Option Value
  | .not, .bool b => some (.bool !b)
  | .neg, .int i => some (.int (-i))
  | .neg, .float x => some (.float x.negate)
  | .neg, .float32 x => some (.float32 x.negate)
  | _, _ => none

/-- A conversion of an integer to an integer type wraps. -/
def converted (target : Ty) (v : Value) : Option Value :=
  match intRange target, v with
  | some (lo, hi), .int i => some (.int (lo + (i - lo) % (hi - lo + 1)))
  | some (lo, hi), .float x => some (.int (x.toInt lo hi))
  | some (lo, hi), .float32 x => some (.int (x.toInt lo hi))
  | some _, _ => none
  | none, v => (Simulator.castValue target v).toOption

/-- What expressions read in a cycle: whether it is the first one, and the values of variables,
memory, calls, fields and elements. -/
structure Reading where
  first : Bool
  read : Expr → Option Value

/-- Expressions that have no operation of their own. -/
def isRead : Expr → Bool
  | .const _ | .unary _ _ | .binary _ _ _ | .ifThenElse _ _ _ | .arrow _ _ | .cast _ _ => false
  | _ => true

namespace Reading

variable (cx : RteCx) (σ : Reading)

def eval : Expr → Option Value
  | .const (.bool b) => some (.bool b)
  | .const (.int i) => some (.int i)
  | .const (.char c) => some (.int c.toNat)
  | .const (.float x) => some (.float x)
  | .unary op arg => do evalOperand op (← eval arg)
  | .binary op lhs rhs => do evalOperands op (← eval lhs) (← eval rhs)
  | .ifThenElse c t e =>
    match eval c with
    | some (.bool true) => eval t
    | some (.bool false) => eval e
    | _ => none
  | .arrow init body => if σ.first then eval init else eval body
  | .cast target arg => do converted (cx.resolve target) (← eval arg)
  | e => σ.read e

/-- What is read lies in the range the analysis takes for it. -/
def InRange : Prop :=
  ∀ e v r, isRead e → σ.read e = some (.int v) → cx.rawInterval e = some (some r) → Within v r

def Holds (cond : Expr) : Prop := σ.eval cx cond = some (.bool true)

/-- The checks of an expression hold. -/
def Obeyed (e : Expr) : Prop :=
  ∀ o ∈ cx.walk [] e, (∀ g ∈ o.guards, σ.Holds cx g.cond) → σ.Holds cx o.cond

/-- The expressions whose values an expression's value is computed from, itself first. -/
def evaluated (e : Expr) : List Expr :=
  e :: match e with
  | .unary _ arg | .cast _ arg => evaluated arg
  | .binary _ lhs rhs => evaluated lhs ++ evaluated rhs
  | .ifThenElse c t e =>
    evaluated c ++
      match σ.eval cx c with
      | some (.bool true) => evaluated t
      | some (.bool false) => evaluated e
      | _ => []
  | .arrow init body => if σ.first then evaluated init else evaluated body
  | _ => []

end Reading

namespace RteCx

variable (cx : RteCx)

/-- The bounds of an operation, from those of its operands, fit. -/
def StepFits : Expr → Prop
  | .unary .neg arg => ∀ a, cx.bounds arg = some a → limRange i128 (-a.2, -a.1) ≠ none
  | .binary op lhs rhs => isArith op → ∀ a b, cx.bounds lhs = some a → cx.bounds rhs = some b →
    opBounds i128 op a b ≠ none
  | _ => True

/-- The range an operation is taken to be in with no check behind it. -/
def assumed : Expr → Option Range
  | .binary op lhs rhs =>
    if isArith op && (cx.bounds lhs).isSome && (cx.bounds rhs).isSome then
      if op = .mod then cx.promotedRange (.binary op lhs rhs) else none
    else cx.typeRange (.binary op lhs rhs)
  | .ifThenElse c t e =>
    if (cx.bounds t).isSome && (cx.bounds e).isSome then none
    else cx.typeRange (.ifThenElse c t e)
  | .arrow init body =>
    if (cx.bounds init).isSome && (cx.bounds body).isSome then none
    else cx.typeRange (.arrow init body)
  | _ => none

/-- The analysis of an expression: no bound overflows, and where the checks hold, every value
lies in its interval. -/
structure Sound (e : Expr) : Prop where
  fits : ∀ s ∈ e.subterms, cx.rawInterval s ≠ none
  bounded : ∀ σ : Reading, σ.InRange cx → σ.Obeyed cx e → ∀ s ∈ σ.evaluated cx e, ∀ v r,
    σ.eval cx s = some (.int v) → cx.interval s = some (some r) → Within v r

end RteCx

theorem limCorners_eq {lim : Int → Option Int} {f : Int → Int → Int} {a b r : Range}
    (h : limCorners lim f a b = some r) :
    limCorners some f a b = some r := by
  simp only [limCorners, bind, Option.bind_eq_some_iff] at h
  obtain ⟨-, -, -, -, h⟩ := h
  exact h

theorem limAbsMax_eq {lim : Int → Option Int} {a : Range} {m : Int}
    (h : limAbsMax lim a = some m) : limAbsMax some a = some m := by
  simp only [limAbsMax, bind, Option.bind_eq_some_iff] at h
  obtain ⟨-, -, h⟩ := h
  exact h

section Limits

variable {lim : Int → Option Int} (hlim : ∀ x y, lim x = some y → y = x) {a b r : Range}

include hlim

theorem limRange_eq (h : limRange lim a = some r) : limRange some a = some r := by
  simp only [limRange, bind, Option.bind_eq_some_iff, Option.some.injEq] at h
  obtain ⟨x, hx, y, hy, rfl⟩ := h
  rw [hlim _ _ hx, hlim _ _ hy]
  rfl

/-- A bound that is represented is the one over unbounded integers. -/
theorem opBounds_eq {op : BinOp} (h : opBounds lim op a b = some r) :
    opBounds some op a b = some r := by
  unfold opBounds at h ⊢
  split at h
  · exact limRange_eq hlim h
  · exact limRange_eq hlim h
  · exact limCorners_eq h
  · split at h
    next hsign => exact (if_pos hsign).trans (limCorners_eq h)
    next hsign =>
      obtain ⟨m, hm, h⟩ := Option.bind_eq_some_iff.mp h
      rw [if_neg hsign, limAbsMax_eq hm]
      exact h
  · obtain ⟨_, -, h⟩ := Option.bind_eq_some_iff.mp h
    obtain ⟨_, -, h⟩ := Option.bind_eq_some_iff.mp h
    exact h

end Limits

theorem i128_eq {x y : Int} (h : i128 x = some y) : y = x := by
  unfold i128 at h
  split at h
  · cases h
    rfl
  · cases h

/-- The values of an operation lie within the bounds from those of its operands. -/
theorem opBounds_within {op : BinOp} (hop : isArith op) {x y v : Int} {a b r : Range}
    (hx : Within x a) (hy : Within y b) (hv : evalInts op x y = some (.int v))
    (h : opBounds some op a b = some r) : Within v r := by
  cases op with
  | add =>
    cases h
    cases hv
    exact hx.add hy
  | sub =>
    cases h
    cases hv
    exact hx.sub hy
  | mul =>
    cases h
    cases hv
    exact hx.mul hy
  | div =>
    simp only [evalInts, Option.ite_none_left_eq_some, Option.some.injEq, Value.int.injEq] at hv
    obtain ⟨-, rfl⟩ := hv
    by_cases hsign : 0 < b.1 ∨ b.2 < 0
    · rw [opBounds, if_pos hsign] at h
      cases h
      exact hx.tdiv hy hsign
    · rw [opBounds, if_neg hsign] at h
      cases h
      exact hx.tdiv_abs y
  | mod =>
    simp only [evalInts, Option.ite_none_left_eq_some, Option.some.injEq, Value.int.injEq] at hv
    obtain ⟨hne, rfl⟩ := hv
    cases h
    exact hx.tmod hy hne
  | _ => cases hop

theorem evalReal_ne_int {op : BinOp} {a b : F64} {single : Bool} {v : Int} :
    Simulator.evalReal op a b single ≠ some (.int v) := by
  unfold Simulator.evalReal
  cases op <;> cases single <;> simp

theorem evalBinary_int {m : Simulator.Machine} {op : BinOp} (hop : isArith op) {l r : Value}
    {v : Int} (h : Simulator.evalBinary m op l r = .ok (.int v)) : ∃ x y, l = .int x ∧ r = .int y := by
  unfold Simulator.evalBinary at h
  split at h
  iterate 4 cases hop
  split at h
  · split at h
    next hreal =>
      cases h
      exact absurd hreal evalReal_ne_int
    · cases h
  · split at h
    · exact ⟨_, _, rfl, rfl⟩
    all_goals cases h

/-- An operation of integer value has integer operands. -/
theorem evalOperands_int {op : BinOp} (hop : isArith op) {l r : Value} {v : Int}
    (h : evalOperands op l r = some (.int v)) :
    ∃ x y, l = .int x ∧ r = .int y ∧ evalInts op x y = some (.int v) := by
  unfold evalOperands at h
  split at h
  · exact ⟨_, _, rfl, rfl, h⟩
  · next hints =>
    cases hbin : Simulator.evalBinary ⟨true, 0⟩ op l r with
    | error e =>
      rw [hbin] at h
      cases h
    | ok w =>
      rw [hbin] at h
      cases h
      obtain ⟨x, y, rfl, rfl⟩ := evalBinary_int hop hbin
      exact (hints x y rfl rfl).elim

theorem evalOperand_neg {x : Value} {v : Int} (h : evalOperand .neg x = some (.int v)) :
    ∃ i, x = .int i ∧ v = -i := by
  cases x with
  | int i =>
    cases h
    exact ⟨i, rfl, rfl⟩
  | _ => cases h

theorem toInt_within {F : Ieee.Format} (x : Ieee.Num F) {lo hi : Int} (hlo : lo ≤ 0)
    (hhi : 0 ≤ hi) : Within (x.toInt lo hi) (lo, hi) := by
  unfold Ieee.Num.toInt
  split
  · exact ⟨hlo, hhi⟩
  · have hle := hlo.trans hhi
    split
    · split
      · exact ⟨le_rfl, hle⟩
      · exact ⟨hle, le_rfl⟩
    · exact ⟨le_max_left _ _, max_le hle (min_le_left _ _)⟩

theorem intRange_zero {t : Ty} {r : Range} (h : intRange t = some r) : r.1 ≤ 0 ∧ 0 < r.2 := by
  cases t <;> cases h <;> decide

/-- A narrow type's values are values of the type C computes them in. -/
theorem intRange_promoted {t : Ty} {r : Range} (h : intRange t = some r) :
    ∃ k, intRange (promoted t) = some k ∧ k.1 ≤ r.1 ∧ r.2 ≤ k.2 := by
  cases t <;> cases h <;> exact ⟨_, rfl, by decide⟩

theorem converted_within {t : Ty} {x : Value} {v : Int} {r : Range} (hr : intRange t = some r)
    (h : converted t x = some (.int v)) : Within v r := by
  obtain ⟨hlo, hhi⟩ := intRange_zero hr
  unfold converted at h
  rw [hr] at h
  cases x with
  | int i =>
    cases h
    have hpos : 0 < r.2 - r.1 + 1 := by omega
    have hmod := Int.emod_nonneg (i - r.1) hpos.ne'
    have hlt := Int.emod_lt_of_pos (i - r.1) hpos
    exact ⟨by omega, by omega⟩
  | float x =>
    cases h
    exact toInt_within x hlo hhi.le
  | float32 x =>
    cases h
    exact toInt_within x hlo hhi.le
  | _ => cases h

namespace Reading

variable {cx : RteCx} {σ : Reading}

attribute [local simp] eval in
theorem eval_natLit (n : Nat) : σ.eval cx (natLit n) = some (.int n) := by
  induction n using natLit.induct with
  | case1 n h ih =>
    have hsum : (maxLit : Int) + ((n - maxLit : Nat) : Int) = n := by omega
    rw [natLit, if_pos h, eval, ih, eval, ← hsum]
    rfl
  | case2 n h =>
    rw [natLit, if_neg h, eval]

theorem eval_intLit (i : Int) : σ.eval cx (intLit i) = some (.int i) := by
  unfold intLit
  split
  next h =>
    have hneg : -(i.natAbs : Int) = i := by omega
    rw [eval, eval_natLit]
    exact congrArg (fun i => some (Value.int i)) hneg
  next h =>
    have hpos : (i.natAbs : Int) = i := by omega
    rw [eval_natLit, hpos]

theorem within_of_holds {e : Expr} {r : Range} {v : Int} (hv : σ.eval cx e = some (.int v))
    (h : σ.Holds cx (within e r)) : Within v r := by
  have hbounds : r.1 ≤ v ∧ v ≤ r.2 := by
    simpa [Holds, within, eval, hv, eval_intLit, evalOperands, evalInts, Simulator.evalBinary,
      Except.toOption] using h
  exact hbounds

theorem holds_firstCycle : σ.Holds cx firstCycle ↔ σ.first := by
  cases h : σ.first <;> simp [Holds, firstCycle, eval, h]

theorem holds_not {e : Expr} : σ.Holds cx (.unary .not e) ↔ σ.eval cx e = some (.bool false) := by
  unfold Holds
  rw [eval]
  cases σ.eval cx e with
  | none => simp
  | some x => cases x <;> simp [evalOperand]

/-- The checks hold wherever their guards do. -/
def AllHold (cx : RteCx) (σ : Reading) (checks : List Obligation) : Prop :=
  ∀ o ∈ checks, (∀ g ∈ o.guards, σ.Holds cx g.cond) → σ.Holds cx o.cond

/-- A check of an expression that is evaluated: its guards hold. -/
def Checked (cx : RteCx) (σ : Reading) (e : Expr) : Prop :=
  ∃ guards : List Guard, (∀ g ∈ guards, σ.Holds cx g.cond) ∧
    AllHold cx σ (cx.ownChecks e guards)

theorem ownChecks_subset_walk {e : Expr} (h : isRead e = false) (guards : List Guard) :
    cx.ownChecks e guards ⊆ cx.walk guards e := by
  cases e with
  | unary op arg => exact List.subset_append_left _ _
  | binary op lhs rhs =>
    exact List.Subset.trans (List.subset_append_left _ _) (List.subset_append_left _ _)
  | cast target arg => exact List.subset_append_left _ _
  | const | ifThenElse | arrow => exact List.nil_subset _
  | _ => cases h

theorem holds_behind {guards : List Guard} {g : Guard}
    (hguards : ∀ g ∈ guards, σ.Holds cx g.cond) (hg : σ.Holds cx g.cond) :
    ∀ g' ∈ guards ++ [g], σ.Holds cx g'.cond := by
  simpa [or_imp, forall_and] using ⟨hguards, hg⟩

/-- Where the checks of an expression hold, so do those of all it evaluates. -/
theorem checked_of_obeyed {e : Expr} {guards : List Guard}
    (hguards : ∀ g ∈ guards, σ.Holds cx g.cond) (h : AllHold cx σ (cx.walk guards e)) :
    ∀ s ∈ σ.evaluated cx e, isRead s = false → Checked cx σ s := by
  have hself {e : Expr} {guards : List Guard} (hguards : ∀ g ∈ guards, σ.Holds cx g.cond)
      (h : AllHold cx σ (cx.walk guards e)) (hread : isRead e = false) : Checked cx σ e :=
    ⟨guards, hguards, fun o ho => h o (ownChecks_subset_walk hread _ ho)⟩
  induction e generalizing guards with
  | unary op arg ih | cast target arg ih =>
    rw [evaluated, List.forall_mem_cons]
    exact ⟨hself hguards h, ih hguards fun o ho => h o (List.mem_append_right _ ho)⟩
  | binary op lhs rhs ihl ihr =>
    rw [evaluated, List.forall_mem_cons, List.forall_mem_append]
    exact ⟨hself hguards h,
      ihl hguards fun o ho => h o (List.mem_append_left _ (List.mem_append_right _ ho)),
      ihr hguards fun o ho => h o (List.mem_append_right _ ho)⟩
  | ifThenElse c t e ihc iht ihe =>
    rw [evaluated, List.forall_mem_cons, List.forall_mem_append]
    refine ⟨hself hguards h,
      ihc hguards fun o ho => h o (List.mem_append_left _ (List.mem_append_left _ ho)), ?_⟩
    split
    next hc =>
      exact iht (holds_behind (g := ⟨c, isClock c⟩) hguards hc)
        fun o ho => h o (List.mem_append_left _ (List.mem_append_right _ ho))
    next hc =>
      exact ihe (holds_behind hguards (holds_not.mpr hc))
        fun o ho => h o (List.mem_append_right _ ho)
    next => simp
  | arrow init body ihi ihb =>
    rw [evaluated, List.forall_mem_cons]
    refine ⟨hself hguards h, ?_⟩
    split
    next hfirst =>
      exact ihi (holds_behind hguards (holds_firstCycle.mpr hfirst))
        fun o ho => h o (List.mem_append_left _ ho)
    next hfirst =>
      refine ihb (holds_behind hguards (holds_not.mpr ?_))
        fun o ho => h o (List.mem_append_right _ ho)
      simp [firstCycle, eval, hfirst]
  | _ => exact List.forall_mem_singleton.mpr (hself hguards h)

end Reading

namespace RteCx

variable {cx : RteCx} {lim : Int → Option Int}

attribute [local simp] rawIntervalIn in
theorem rawIntervalIn_neg (arg : Expr) : cx.rawIntervalIn lim (.unary .neg arg) =
    ((cx.rawIntervalIn lim arg).map (cx.clip arg)).bind fun b =>
      b.elim (some none) fun r => (limRange lim (-r.2, -r.1)).map some := by
  rw [rawIntervalIn]
  cases cx.rawIntervalIn lim arg with
  | none => rfl
  | some raw =>
    simp only [bind, Option.bind_some, Option.map_some]
    cases cx.clip arg raw <;> rfl

theorem rawIntervalIn_binary {op : BinOp} (hop : isArith op) (lhs rhs : Expr) :
    cx.rawIntervalIn lim (.binary op lhs rhs) =
      ((cx.rawIntervalIn lim lhs).map (cx.clip lhs)).bind fun a =>
        ((cx.rawIntervalIn lim rhs).map (cx.clip rhs)).bind fun b =>
          a.elim (some (cx.typeRange (.binary op lhs rhs))) fun a =>
            b.elim (some (cx.typeRange (.binary op lhs rhs))) fun b =>
              (opBounds lim op a b).map some := by
  rw [rawIntervalIn, if_pos hop]
  cases cx.rawIntervalIn lim lhs with
  | none => rfl
  | some a =>
    cases cx.rawIntervalIn lim rhs with
    | none => rfl
    | some b =>
      simp only [bind, Option.bind_some, Option.map_some]
      cases cx.clip lhs a <;> cases cx.clip rhs b <;> rfl

/-- The bounds of what takes the value of one of two branches. -/
def branches (cx : RteCx) (lim : Int → Option Int) (e x y : Expr) : Option (Option Range) :=
  ((cx.rawIntervalIn lim x).map (cx.clip x)).bind fun a =>
    ((cx.rawIntervalIn lim y).map (cx.clip y)).bind fun b =>
      some (a.elim (cx.typeRange e) fun a => b.elim (cx.typeRange e) fun b => some (hull a b))

theorem rawIntervalIn_ifThenElse (c t e : Expr) :
    cx.rawIntervalIn lim (.ifThenElse c t e) = cx.branches lim (.ifThenElse c t e) t e := by
  rw [rawIntervalIn, branches]
  cases cx.rawIntervalIn lim t with
  | none => rfl
  | some a =>
    cases cx.rawIntervalIn lim e with
    | none => rfl
    | some b =>
      simp only [bind, Option.bind_some, Option.map_some]
      cases cx.clip t a <;> cases cx.clip e b <;> rfl

theorem rawIntervalIn_arrow (x y : Expr) :
    cx.rawIntervalIn lim (.arrow x y) = cx.branches lim (.arrow x y) x y := by
  rw [rawIntervalIn, branches]
  cases cx.rawIntervalIn lim x with
  | none => rfl
  | some a =>
    cases cx.rawIntervalIn lim y with
    | none => rfl
    | some b =>
      simp only [bind, Option.bind_some, Option.map_some]
      cases cx.clip x a <;> cases cx.clip y b <;> rfl

theorem branches_some {e x y : Expr}
    (hx : ∀ raw, cx.rawIntervalIn i128 x = some raw → cx.rawIntervalIn some x = some raw)
    (hy : ∀ raw, cx.rawIntervalIn i128 y = some raw → cx.rawIntervalIn some y = some raw)
    {raw : Option Range} (h : cx.branches i128 e x y = some raw) :
    cx.branches some e x y = some raw := by
  simp only [branches, Option.bind_eq_some_iff, Option.map_eq_some_iff] at h
  obtain ⟨_, ⟨a, ha, rfl⟩, _, ⟨b, hb, rfl⟩, h⟩ := h
  rw [branches, hx _ ha, hy _ hb]
  exact h

/-- Bounds that fit are those over unbounded integers. -/
theorem rawIntervalIn_some {e : Expr} {raw : Option Range} (h : cx.rawInterval e = some raw) :
    cx.rawIntervalIn some e = some raw := by
  unfold rawInterval at h
  induction e generalizing raw with
  | unary op arg ih =>
    cases op with
    | not => exact h
    | neg =>
      rw [rawIntervalIn_neg] at h ⊢
      simp only [Option.bind_eq_some_iff, Option.map_eq_some_iff] at h
      obtain ⟨_, ⟨a, ha, rfl⟩, h⟩ := h
      rw [ih ha]
      cases hclip : cx.clip arg a with
      | none => simpa [hclip] using h
      | some r =>
        rw [hclip] at h
        obtain ⟨c, hc, rfl⟩ := Option.map_eq_some_iff.mp h
        simp [hclip, limRange_eq (fun _ _ => i128_eq) hc]
  | binary op lhs rhs ihl ihr =>
    by_cases hop : isArith op
    · rw [rawIntervalIn_binary hop] at h ⊢
      simp only [Option.bind_eq_some_iff, Option.map_eq_some_iff] at h
      obtain ⟨_, ⟨a, ha, rfl⟩, _, ⟨b, hb, rfl⟩, h⟩ := h
      rw [ihl ha, ihr hb]
      cases hl : cx.clip lhs a with
      | none => simpa [hl] using h
      | some ra =>
        cases hr : cx.clip rhs b with
        | none => simpa [hl, hr] using h
        | some rb =>
          rw [hl, hr] at h
          obtain ⟨c, hc, rfl⟩ := Option.map_eq_some_iff.mp h
          simp [hl, hr, opBounds_eq (fun _ _ => i128_eq) hc]
    · rw [rawIntervalIn, if_neg hop] at h ⊢
      exact h
  | ifThenElse c t e _ iht ihe =>
    rw [rawIntervalIn_ifThenElse] at h ⊢
    exact branches_some (fun _ => iht) (fun _ => ihe) h
  | arrow init body ihi ihb =>
    rw [rawIntervalIn_arrow] at h ⊢
    exact branches_some (fun _ => ihi) (fun _ => ihb) h
  | const lit => cases lit <;> exact h
  | _ => exact h

theorem bounds_of_interval {e : Expr} {b : Option Range} (h : cx.interval e = some b) :
    cx.bounds e = b := by
  obtain ⟨raw, hraw, rfl⟩ := Option.map_eq_some_iff.mp h
  rw [bounds, rawIntervalIn_some hraw]
  rfl

theorem interval_of_ne_none {e : Expr} (h : cx.rawInterval e ≠ none) :
    cx.interval e = some (cx.bounds e) := by
  obtain ⟨raw, hraw⟩ := Option.ne_none_iff_exists'.mp h
  have hinterval : cx.interval e = some (cx.clip e raw) := by rw [interval, hraw]; rfl
  rw [bounds_of_interval hinterval, hinterval]

theorem interval_of_rawIntervalIn {e : Expr} {raw : Option Range}
    (h : cx.rawIntervalIn i128 e = some raw) : cx.clip e raw = cx.bounds e :=
  (bounds_of_interval (congrArg (Option.map (cx.clip e)) h)).symm

/-- The step of an expression whose bounds are computed fits. -/
theorem stepFits_of_ne_none {e : Expr} (h : cx.rawInterval e ≠ none) : cx.StepFits e := by
  obtain ⟨raw, hraw⟩ := Option.ne_none_iff_exists'.mp h
  unfold rawInterval at hraw
  cases e with
  | unary op arg =>
    cases op with
    | not => trivial
    | neg =>
      intro r hr hnone
      rw [rawIntervalIn_neg] at hraw
      simp only [Option.bind_eq_some_iff, Option.map_eq_some_iff] at hraw
      obtain ⟨_, ⟨a, ha, rfl⟩, hraw⟩ := hraw
      rw [interval_of_rawIntervalIn ha, hr] at hraw
      simp [hnone] at hraw
  | binary op lhs rhs =>
    intro hop ra rb hl hr hnone
    rw [rawIntervalIn_binary hop] at hraw
    simp only [Option.bind_eq_some_iff, Option.map_eq_some_iff] at hraw
    obtain ⟨_, ⟨a, ha, rfl⟩, _, ⟨b, hb, rfl⟩, hraw⟩ := hraw
    rw [interval_of_rawIntervalIn ha, interval_of_rawIntervalIn hb, hl, hr] at hraw
    simp [hnone] at hraw
  | _ => trivial

/-- The bounds of an expression are computed where those of its parts are and its step fits. -/
theorem rawInterval_ne_none {e : Expr} (hchildren : ∀ c ∈ e.children, cx.rawInterval c ≠ none)
    (hstep : cx.StepFits e) : cx.rawInterval e ≠ none := by
  have hinterval {c : Expr} (hc : c ∈ e.children) :
      (cx.rawIntervalIn i128 c).map (cx.clip c) = some (cx.bounds c) :=
    interval_of_ne_none (hchildren c hc)
  unfold rawInterval
  cases e with
  | unary op arg =>
    cases op with
    | not => exact Option.some_ne_none _
    | neg =>
      rw [rawIntervalIn_neg, hinterval (by simp [Expr.children])]
      cases hb : cx.bounds arg with
      | none => simp
      | some r => simpa using hstep r hb
  | binary op lhs rhs =>
    by_cases hop : isArith op
    · rw [rawIntervalIn_binary hop, hinterval (c := lhs) (by simp [Expr.children]),
        hinterval (c := rhs) (by simp [Expr.children])]
      cases hl : cx.bounds lhs with
      | none => simp
      | some a =>
        cases hr : cx.bounds rhs with
        | none => simp
        | some b => simpa using hstep hop a b hl hr
    · rw [rawIntervalIn, if_neg hop]
      exact Option.some_ne_none _
  | ifThenElse c t e =>
    rw [rawIntervalIn_ifThenElse, branches, hinterval (c := t) (by simp [Expr.children]),
      hinterval (c := e) (by simp [Expr.children])]
    exact Option.some_ne_none _
  | arrow init body =>
    rw [rawIntervalIn_arrow, branches, hinterval (c := init) (by simp [Expr.children]),
      hinterval (c := body) (by simp [Expr.children])]
    exact Option.some_ne_none _
  | const lit => cases lit <;> exact Option.some_ne_none _
  | var name =>
    rw [rawIntervalIn]
    split
    · exact Option.some_ne_none _
    · split <;> exact Option.some_ne_none _
  | _ => exact Option.some_ne_none _

/-- No bound overflows if and only if every step fits. -/
theorem fits_iff (e : Expr) :
    (∀ s ∈ e.subterms, cx.rawInterval s ≠ none) ↔ ∀ s ∈ e.subterms, cx.StepFits s := by
  refine ⟨fun h s hs => stepFits_of_ne_none (h s hs), fun h => ?_⟩
  induction e using Expr.children_induct with
  | h e ih =>
    rw [Expr.subterms_eq, List.forall_mem_cons]
    have hchildren : ∀ c ∈ e.children, ∀ s ∈ c.subterms, cx.rawInterval s ≠ none :=
      fun c hc => ih c hc fun s hs => h s (Expr.subterms_of_child hc hs)
    refine ⟨rawInterval_ne_none (fun c hc => hchildren c hc c c.self_mem_subterms)
      (h e e.self_mem_subterms), fun s hs => ?_⟩
    obtain ⟨c, hc, hs⟩ := List.mem_flatMap.mp hs
    exact hchildren c hc s hs

/-- Where the bounds of an operation come from: those of both operands, or its type with no check
behind it. -/
theorem rawInterval_binary_cases {op : BinOp} (hop : isArith op) {lhs rhs : Expr}
    {raw : Option Range} (h : cx.rawInterval (.binary op lhs rhs) = some raw) :
    (∃ a b c, cx.interval lhs = some (some a) ∧ cx.interval rhs = some (some b) ∧
      opBounds some op a b = some c ∧ raw = some c ∧
      cx.assumed (.binary op lhs rhs) =
        if op = .mod then cx.promotedRange (.binary op lhs rhs) else none) ∨
    (raw = cx.typeRange (.binary op lhs rhs) ∧
      cx.assumed (.binary op lhs rhs) = cx.typeRange (.binary op lhs rhs)) := by
  unfold rawInterval at h
  rw [rawIntervalIn_binary hop] at h
  obtain ⟨bl, hbl, h⟩ := Option.bind_eq_some_iff.mp h
  obtain ⟨br, hbr, h⟩ := Option.bind_eq_some_iff.mp h
  rw [assumed, hop, bounds_of_interval hbl, bounds_of_interval hbr]
  cases bl with
  | none =>
    cases h
    exact .inr ⟨rfl, rfl⟩
  | some a =>
    cases br with
    | none =>
      cases h
      exact .inr ⟨rfl, rfl⟩
    | some b =>
      obtain ⟨c, hc, rfl⟩ := Option.map_eq_some_iff.mp h
      exact .inl ⟨a, b, c, hbl, hbr, opBounds_eq (fun _ _ => i128_eq) hc, rfl, rfl⟩

/-- The conditions under which an expression has the bounds of its two branches. -/
structure Branching (cx : RteCx) (e x y : Expr) : Prop where
  isOp : isOp e = false
  raw : cx.rawInterval e = cx.branches i128 e x y
  assumed : cx.assumed e = if (cx.bounds x).isSome && (cx.bounds y).isSome then none
    else cx.typeRange e

theorem branching_ifThenElse (c t e : Expr) : Branching cx (.ifThenElse c t e) t e :=
  ⟨rfl, rawIntervalIn_ifThenElse c t e, rfl⟩

theorem branching_arrow (init body : Expr) : Branching cx (.arrow init body) init body :=
  ⟨rfl, rawIntervalIn_arrow init body, rfl⟩

theorem clip_of_not_isOp {e : Expr} (h : CocospecEmit.isOp e = false) (raw : Option Range) :
    cx.clip e raw = raw := by
  unfold clip
  rw [h]
  rfl

/-- The bounds of two branches are their hull, or those of the type with no check behind them. -/
theorem Branching.interval_cases {e x y : Expr} (h : Branching cx e x y) {b : Option Range}
    (hb : cx.interval e = some b) :
    (∃ r s, cx.interval x = some (some r) ∧ cx.interval y = some (some s) ∧ b = some (hull r s) ∧
      cx.assumed e = none) ∨
    (b = cx.typeRange e ∧ cx.assumed e = cx.typeRange e) := by
  obtain ⟨raw, hraw, hclip⟩ := Option.map_eq_some_iff.mp hb
  rw [clip_of_not_isOp h.isOp] at hclip
  rw [hclip, h.raw, branches] at hraw
  obtain ⟨bx, hbx, hraw⟩ := Option.bind_eq_some_iff.mp hraw
  obtain ⟨bb, hby, hraw⟩ := Option.bind_eq_some_iff.mp hraw
  rw [Option.some_inj] at hraw
  rw [h.assumed, bounds_of_interval hbx, bounds_of_interval hby]
  cases bx with
  | none => exact .inr ⟨hraw.symm, rfl⟩
  | some r =>
    cases bb with
    | none => exact .inr ⟨hraw.symm, rfl⟩
    | some s => exact .inl ⟨r, s, hbx, hby, hraw.symm, rfl⟩

end RteCx

namespace Reading

variable {cx : RteCx} {σ : Reading}

/-- The value of an expression lies in the range it is taken to be in without a check. -/
def Trusted (cx : RteCx) (σ : Reading) (e : Expr) : Prop :=
  ∀ v r, σ.eval cx e = some (.int v) → cx.assumed e = some r → Within v r

/-- The value of an expression lies in its interval. -/
def Bounded (cx : RteCx) (σ : Reading) (e : Expr) : Prop :=
  ∀ v r, σ.eval cx e = some (.int v) → cx.interval e = some (some r) → Within v r

/-- The check of an operation bounds its value in the type C computes it in. -/
theorem within_of_overflow {e : Expr} {t : Ty} {k : Range} {raw : Option Range}
    {guards : List Guard} {v : Int} (hk : intRange (promoted t) = some k)
    (hraw : cx.rawInterval e = some raw) (hguards : ∀ g ∈ guards, σ.Holds cx g.cond)
    (h : AllHold cx σ (cx.overflow e e t guards)) (hv : σ.eval cx e = some (.int v))
    (hc : ∀ c, raw = some c → Within v c) : Within v k := by
  have hcheck (h : AllHold cx σ [⟨guards, within e k, .overflow,
      shown e ++ " fits " ++ typeName (promoted t)⟩]) : Within v k :=
    within_of_holds hv (h _ List.mem_cons_self hguards)
  unfold RteCx.overflow at h
  rw [hk, hraw] at h
  cases raw with
  | none => exact hcheck h
  | some c =>
    simp only [Option.join_some, Option.any_some, Bool.and_eq_true, decide_eq_true_eq] at h
    split at h
    next hle => exact (hc c rfl).mono hle
    next => exact hcheck h

theorem promotedRange_eq_some {e : Expr} {k : Range} (h : cx.promotedRange e = some k) :
    ∃ t, cx.intType e = some t ∧ intRange (promoted t) = some k :=
  Option.bind_eq_some_iff.mp h

/-- The range of an expression's type lies within that of the type C computes it in. -/
theorem within_promotedRange {e : Expr} {r k : Range} {v : Int} (hr : cx.typeRange e = some r)
    (hk : cx.promotedRange e = some k) (hv : Within v r) : Within v k := by
  obtain ⟨t, ht, hr⟩ := Option.bind_eq_some_iff.mp hr
  rw [RteCx.promotedRange, ht, Option.bind_some] at hk
  obtain ⟨k', hk', hle⟩ := intRange_promoted hr
  cases hk.symm.trans hk'
  exact hv.mono hle

/-- Where an operation's type has no range, neither has the type C computes it in. -/
theorem promotedRange_eq_none {e : Expr} (h : cx.typeRange e = none) :
    cx.promotedRange e = none := by
  unfold RteCx.typeRange at h
  unfold RteCx.promotedRange
  cases ht : cx.intType e with
  | none => rfl
  | some t =>
    rw [ht, Option.bind_some] at h
    simp [RteCx.intType, Option.filter_eq_some_iff, h] at ht

/-- The bounds of an operation behind its check: those of its values, and those of the type C
computes it in. -/
theorem within_clip {e : Expr} (hop : isOp e) {raw : Option Range} {r : Range} {v : Int}
    (hclip : cx.clip e raw = some r) (hraw : ∀ c, raw = some c → Within v c)
    (hpromoted : ∀ k, cx.promotedRange e = some k → Within v k) : Within v r := by
  unfold RteCx.clip at hclip
  rw [if_pos hop] at hclip
  split at hclip
  next c k hk =>
    cases hclip
    exact within_meet.mpr ⟨hraw c rfl, hpromoted k hk⟩
  next c hk =>
    cases hclip
    exact hraw r rfl
  next => exact hpromoted r hclip

theorem bounded_neg {arg : Expr} (harg : Bounded cx σ arg)
    (hchecked : Checked cx σ (.unary .neg arg)) : Bounded cx σ (.unary .neg arg) := by
  intro v r hv hr
  obtain ⟨x, hx, hneg⟩ := Option.bind_eq_some_iff.mp hv
  obtain ⟨i, rfl, rfl⟩ := evalOperand_neg hneg
  obtain ⟨raw, hraw, hclip⟩ := Option.map_eq_some_iff.mp hr
  have hwithin : ∀ c, raw = some c → Within (-i) c := by
    rintro c rfl
    unfold RteCx.rawInterval at hraw
    rw [RteCx.rawIntervalIn_neg] at hraw
    obtain ⟨b, hb, hraw⟩ := Option.bind_eq_some_iff.mp hraw
    cases b with
    | none => cases hraw
    | some a =>
      obtain ⟨c', hc, hcc⟩ := Option.map_eq_some_iff.mp hraw
      cases hcc
      cases limRange_eq (fun _ _ => i128_eq) hc
      exact (harg i a hx hb).neg
  refine within_clip rfl hclip hwithin fun k hk => ?_
  obtain ⟨t, ht, hk⟩ := promotedRange_eq_some hk
  obtain ⟨guards, hguards, hall⟩ := hchecked
  simp only [RteCx.ownChecks, ht, Option.map_some, Option.getD_some] at hall
  exact within_of_overflow hk hraw hguards hall hv hwithin

/-- Behind the check of its divisor, a quotient's guards hold. -/
theorem holds_behindDivisor {op : BinOp} {e rhs : Expr} {guards : List Guard} {y : Int}
    (hguards : ∀ g ∈ guards, σ.Holds cx g.cond) (hy : σ.eval cx rhs = some (.int y))
    (hne : op = .div ∨ op = .mod → y ≠ 0) :
    ∀ g ∈ cx.behindDivisor op e rhs guards, σ.Holds cx g.cond := by
  unfold RteCx.behindDivisor
  split
  next hdiv =>
    rw [List.forall_mem_append]
    refine ⟨hguards, ?_⟩
    intro g hg
    obtain ⟨o, ho, rfl⟩ := List.mem_map.mp hg
    unfold RteCx.divisor at ho
    split at ho
    · cases List.mem_singleton.mp ho
      simp [Holds, eval, hy, evalOperands, evalInts, hne hdiv]
    · cases ho
  next => exact hguards

theorem ne_zero_of_evalInts {op : BinOp} {x y v : Int} (h : evalInts op x y = some (.int v))
    (hdiv : op = .div ∨ op = .mod) : y ≠ 0 := by
  rintro rfl
  rcases hdiv with rfl | rfl <;> cases h

theorem bounded_binary {op : BinOp} (hop : isArith op) {lhs rhs : Expr} (hl : Bounded cx σ lhs)
    (hr : Bounded cx σ rhs) (hchecked : Checked cx σ (.binary op lhs rhs))
    (htrusted : Trusted cx σ (.binary op lhs rhs)) : Bounded cx σ (.binary op lhs rhs) := by
  intro v r hv hr'
  obtain ⟨_, hxl, hxr⟩ := Option.bind_eq_some_iff.mp hv
  obtain ⟨_, hxr, hval⟩ := Option.bind_eq_some_iff.mp hxr
  obtain ⟨x, y, rfl, rfl, hval⟩ := evalOperands_int hop hval
  obtain ⟨raw, hraw, hclip⟩ := Option.map_eq_some_iff.mp hr'
  obtain ⟨a, b, c, ha, hb, hc, rfl, hassumed⟩ | ⟨rfl, hassumed⟩ :=
    RteCx.rawInterval_binary_cases hop hraw
  · have hwithin : ∀ c', some c = some c' → Within v c' := by
      rintro _ ⟨⟩
      exact opBounds_within hop (hl x a hxl ha) (hr y b hxr hb) hval hc
    refine within_clip (e := .binary op lhs rhs) hop hclip hwithin fun k hk => ?_
    by_cases hmod : op = .mod
    · exact htrusted v k hv ((hassumed.trans (if_pos hmod)).trans hk)
    · obtain ⟨t, ht, hk⟩ := promotedRange_eq_some hk
      obtain ⟨guards, hguards, hall⟩ := hchecked
      simp only [RteCx.ownChecks, if_pos hop, if_neg hmod, ht] at hall
      exact within_of_overflow hk hraw
        (holds_behindDivisor hguards hxr (ne_zero_of_evalInts hval))
        (fun o ho => hall o (List.mem_append_right _ ho)) hv hwithin
  · have hwithin : ∀ c, cx.typeRange (.binary op lhs rhs) = some c → Within v c :=
      fun c hc => htrusted v c hv (hassumed.trans hc)
    refine within_clip (e := .binary op lhs rhs) hop hclip hwithin fun k hk => ?_
    cases hc : cx.typeRange (.binary op lhs rhs) with
    | none => cases (promotedRange_eq_none hc).symm.trans hk
    | some c => exact within_promotedRange hc hk (hwithin c hc)

/-- What takes the value of one of two branches lies in the hull of their intervals. -/
theorem bounded_branches {e x y : Expr} (h : RteCx.Branching cx e x y)
    (hvalue : (Bounded cx σ x ∧ σ.eval cx e = σ.eval cx x) ∨
      (Bounded cx σ y ∧ σ.eval cx e = σ.eval cx y) ∨ σ.eval cx e = none)
    (htrusted : Trusted cx σ e) : Bounded cx σ e := by
  intro v r hv hr
  obtain ⟨a, b, ha, hb, heq, -⟩ | ⟨hraw, hassumed⟩ := h.interval_cases hr
  · cases heq
    rcases hvalue with ⟨hx, heval⟩ | ⟨hy, heval⟩ | heval
    · exact (hx v a (heval.symm.trans hv) ha).hull_left b
    · exact (hy v b (heval.symm.trans hv) hb).hull_right a
    · cases heval.symm.trans hv
  · exact htrusted v r hv (hassumed.trans hraw.symm)

theorem bounded_const (lit : Literal) : Bounded cx σ (.const lit) := by
  intro v r hv hr
  cases lit with
  | bool b => cases hv
  | float x => cases hv
  | int i =>
    cases hv
    cases hr
    exact ⟨le_rfl, le_rfl⟩
  | char c =>
    cases hv
    cases hr
    exact ⟨le_rfl, le_rfl⟩

theorem bounded_cast (target : Ty) (arg : Expr) : Bounded cx σ (.cast target arg) := by
  intro v r hv hr
  obtain ⟨x, -, hx⟩ := Option.bind_eq_some_iff.mp hv
  obtain ⟨raw, hraw, hclip⟩ := Option.map_eq_some_iff.mp hr
  cases hraw
  obtain ⟨t, ht, hrange⟩ := Option.bind_eq_some_iff.mp hclip
  cases cx.typeOf_cast target arg t (Option.filter_eq_some_iff.mp ht).1
  exact converted_within hrange hx

theorem self_mem_evaluated (e : Expr) : e ∈ σ.evaluated cx e := by
  unfold evaluated
  exact List.mem_cons_self

/-- Neither a comparison nor an operation on bits is checked. -/
theorem bounded_unchecked {op : BinOp} (hop : ¬ isArith op) {lhs rhs : Expr}
    (htrusted : Trusted cx σ (.binary op lhs rhs)) : Bounded cx σ (.binary op lhs rhs) := by
  intro v r hv hr
  have harith : isArith op = false := by simpa using hop
  obtain ⟨raw, hraw, hclip⟩ := Option.map_eq_some_iff.mp hr
  rw [RteCx.clip_of_not_isOp (e := .binary op lhs rhs) harith] at hclip
  rw [RteCx.rawInterval, RteCx.rawIntervalIn, if_neg hop, hclip, Option.some_inj] at hraw
  refine htrusted v r hv ?_
  rw [RteCx.assumed, harith]
  exact hraw

variable (cx σ) in
theorem evaluated_ifThenElse (c t e : Expr) :
    (σ.eval cx (.ifThenElse c t e) = σ.eval cx t ∧
      σ.evaluated cx (.ifThenElse c t e) =
        .ifThenElse c t e :: (σ.evaluated cx c ++ σ.evaluated cx t)) ∨
    (σ.eval cx (.ifThenElse c t e) = σ.eval cx e ∧
      σ.evaluated cx (.ifThenElse c t e) =
        .ifThenElse c t e :: (σ.evaluated cx c ++ σ.evaluated cx e)) ∨
    (σ.eval cx (.ifThenElse c t e) = none ∧
      σ.evaluated cx (.ifThenElse c t e) = .ifThenElse c t e :: (σ.evaluated cx c ++ [])) := by
  rw [eval, evaluated]
  split
  · exact .inl ⟨rfl, rfl⟩
  · exact .inr (.inl ⟨rfl, rfl⟩)
  · exact .inr (.inr ⟨rfl, rfl⟩)

variable (cx σ) in
theorem evaluated_arrow (init body : Expr) :
    (σ.eval cx (.arrow init body) = σ.eval cx init ∧
      σ.evaluated cx (.arrow init body) = .arrow init body :: σ.evaluated cx init) ∨
    (σ.eval cx (.arrow init body) = σ.eval cx body ∧
      σ.evaluated cx (.arrow init body) = .arrow init body :: σ.evaluated cx body) := by
  rw [eval, evaluated]
  split
  · exact .inl ⟨rfl, rfl⟩
  · exact .inr ⟨rfl, rfl⟩

/-- Where the checks hold and what is not checked can be trusted, every value that an
expression evaluates lies in its interval. -/
theorem bounded_of_trusted (hσ : σ.InRange cx) {e : Expr}
    (hchecked : ∀ s ∈ σ.evaluated cx e, isRead s = false → Checked cx σ s)
    (htrusted : ∀ s ∈ σ.evaluated cx e, Trusted cx σ s) :
    ∀ s ∈ σ.evaluated cx e, Bounded cx σ s := by
  have hread {e : Expr} (h : isRead e) (heval : σ.eval cx e = σ.read e) (hop : isOp e = false) :
      ∀ s ∈ [e], Bounded cx σ s := by
    rw [List.forall_mem_singleton]
    intro v r hv hr
    obtain ⟨raw, hraw, hclip⟩ := Option.map_eq_some_iff.mp hr
    rw [RteCx.clip_of_not_isOp hop] at hclip
    exact hσ e v r h (heval.symm.trans hv) (hraw.trans (congrArg some hclip))
  induction e with
  | const lit => exact List.forall_mem_singleton.mpr (bounded_const lit)
  | unary op arg ih =>
    rw [evaluated, List.forall_mem_cons] at hchecked htrusted ⊢
    have harg := ih hchecked.2 htrusted.2
    refine ⟨?_, harg⟩
    cases op with
    | not =>
      intro v r hv _
      obtain ⟨x, -, hx⟩ := Option.bind_eq_some_iff.mp hv
      cases x <;> cases hx
    | neg => exact bounded_neg (harg arg (self_mem_evaluated arg)) (hchecked.1 rfl)
  | binary op lhs rhs ihl ihr =>
    rw [evaluated, List.forall_mem_cons, List.forall_mem_append] at hchecked htrusted ⊢
    have hl := ihl hchecked.2.1 htrusted.2.1
    have hr := ihr hchecked.2.2 htrusted.2.2
    refine ⟨?_, hl, hr⟩
    by_cases hop : isArith op
    · exact bounded_binary hop (hl lhs (self_mem_evaluated lhs)) (hr rhs (self_mem_evaluated rhs))
        (hchecked.1 rfl) htrusted.1
    · exact bounded_unchecked hop htrusted.1
  | ifThenElse c t e ihc iht ihe =>
    have hbranching : RteCx.Branching cx (.ifThenElse c t e) t e := RteCx.branching_ifThenElse c t e
    obtain ⟨hvalue, hlist⟩ | ⟨hvalue, hlist⟩ | ⟨hvalue, hlist⟩ :=
      evaluated_ifThenElse cx σ c t e
    all_goals
      rw [hlist, List.forall_mem_cons, List.forall_mem_append] at hchecked htrusted ⊢
      have hc := ihc hchecked.2.1 htrusted.2.1
    · have ht := iht hchecked.2.2 htrusted.2.2
      exact ⟨bounded_branches hbranching (.inl ⟨ht t (self_mem_evaluated t), hvalue⟩) htrusted.1,
        hc, ht⟩
    · have he := ihe hchecked.2.2 htrusted.2.2
      exact ⟨bounded_branches hbranching (.inr (.inl ⟨he e (self_mem_evaluated e), hvalue⟩))
        htrusted.1, hc, he⟩
    · exact ⟨bounded_branches hbranching (.inr (.inr hvalue)) htrusted.1, hc, by simp⟩
  | arrow init body ihi ihb =>
    have hbranching : RteCx.Branching cx (.arrow init body) init body := RteCx.branching_arrow init body
    obtain ⟨hvalue, hlist⟩ | ⟨hvalue, hlist⟩ := evaluated_arrow cx σ init body
    all_goals rw [hlist, List.forall_mem_cons] at hchecked htrusted ⊢
    · have hi := ihi hchecked.2 htrusted.2
      exact ⟨bounded_branches hbranching (.inl ⟨hi init (self_mem_evaluated init), hvalue⟩)
        htrusted.1, hi⟩
    · have hb := ihb hchecked.2 htrusted.2
      exact ⟨bounded_branches hbranching (.inr (.inl ⟨hb body (self_mem_evaluated body), hvalue⟩))
        htrusted.1, hb⟩
  | cast target arg ih =>
    rw [evaluated, List.forall_mem_cons] at hchecked htrusted ⊢
    exact ⟨bounded_cast target arg, ih hchecked.2 htrusted.2⟩
  | _ => exact hread rfl rfl rfl

theorem evaluated_subset (e : Expr) : σ.evaluated cx e ⊆ e.subterms := by
  induction e with
  | unary op arg ih | cast target arg ih => exact List.cons_subset_cons _ ih
  | binary op lhs rhs ihl ihr =>
    exact List.cons_subset_cons _ (List.append_subset.mpr
      ⟨List.subset_append_of_subset_left _ ihl, List.subset_append_of_subset_right _ ihr⟩)
  | ifThenElse c t e ihc iht ihe =>
    have hbranch {l : List Expr} (hl : l ⊆ t.subterms ++ e.subterms) :
        .ifThenElse c t e :: (σ.evaluated cx c ++ l) ⊆ (Expr.ifThenElse c t e).subterms :=
      List.cons_subset_cons _ (List.append_subset.mpr
        ⟨List.subset_append_of_subset_left _ ihc, List.subset_append_of_subset_right _ hl⟩)
    obtain ⟨-, hlist⟩ | ⟨-, hlist⟩ | ⟨-, hlist⟩ := evaluated_ifThenElse cx σ c t e
    all_goals rw [hlist]
    · exact hbranch (List.subset_append_of_subset_left _ iht)
    · exact hbranch (List.subset_append_of_subset_right _ ihe)
    · exact hbranch (List.nil_subset _)
  | arrow init body ihi ihb =>
    obtain ⟨-, hlist⟩ | ⟨-, hlist⟩ := evaluated_arrow cx σ init body
    all_goals rw [hlist]
    · exact List.cons_subset_cons _ (List.subset_append_of_subset_left _ ihi)
    · exact List.cons_subset_cons _ (List.subset_append_of_subset_right _ ihb)
  | _ => exact List.cons_subset.mpr ⟨Expr.self_mem_subterms _, List.nil_subset _⟩

theorem clip_some {e : Expr} (hop : isOp e) (c : Range) :
    cx.clip e (some c) = some ((cx.promotedRange e).elim c (meet c)) := by
  unfold RteCx.clip
  rw [if_pos hop]
  cases cx.promotedRange e <;> rfl

/-- Conversely a value in the interval is in the range an operation is taken to be in. -/
theorem trusted_of_bounded {e : Expr} (hfits : cx.rawInterval e ≠ none) (h : Bounded cx σ e) :
    Trusted cx σ e := by
  intro v r hv hassumed
  obtain ⟨raw, hraw⟩ := Option.ne_none_iff_exists'.mp hfits
  have hinterval : cx.interval e = some (cx.clip e raw) := congrArg (Option.map (cx.clip e)) hraw
  have hbranches {x y : Expr} (hbranching : RteCx.Branching cx e x y) : Within v r := by
    obtain ⟨-, -, -, -, -, hnone⟩ | ⟨htype, heq⟩ := hbranching.interval_cases hinterval
    · cases hnone.symm.trans hassumed
    · exact h v r hv (hinterval.trans (congrArg some ((htype.trans heq.symm).trans hassumed)))
  cases e with
  | binary op lhs rhs =>
    by_cases hop : isArith op
    · obtain ⟨-, -, c, -, -, -, rfl, heq⟩ | ⟨rfl, heq⟩ := RteCx.rawInterval_binary_cases hop hraw
      · obtain ⟨hmod, hr⟩ : op = .mod ∧ cx.promotedRange (.binary op lhs rhs) = some r := by
          simpa [heq] using hassumed
        rw [clip_some (e := .binary op lhs rhs) hop, hr] at hinterval
        exact (within_meet.mp (h v _ hv hinterval)).2
      · rw [heq.symm.trans hassumed, clip_some (e := .binary op lhs rhs) hop] at hinterval
        have hwithin := h v _ hv hinterval
        cases hk : cx.promotedRange (.binary op lhs rhs) with
        | none => simpa [hk] using hwithin
        | some k => exact (within_meet.mp (by simpa [hk] using hwithin)).1
    · have harith : isArith op = false := by simpa using hop
      rw [RteCx.assumed, harith] at hassumed
      refine h v r hv (hinterval.trans ?_)
      rw [RteCx.rawInterval, RteCx.rawIntervalIn, if_neg hop, Option.some_inj] at hraw
      rw [RteCx.clip_of_not_isOp (e := .binary op lhs rhs) harith, ← hraw]
      exact congrArg some hassumed
  | ifThenElse c t e => exact hbranches (RteCx.branching_ifThenElse c t e)
  | arrow init body => exact hbranches (RteCx.branching_arrow init body)
  | _ => cases hassumed

end Reading

namespace RteCx

/-- The analysis is sound for an expression, and none of its bounds overflows, if and only if the
bounds of each of its operations fit, and the value of each operation with no check behind it lies
in the range it is taken to be in. -/
theorem sound_iff (cx : RteCx) (e : Expr) :
    cx.Sound e ↔ (∀ s ∈ e.subterms, cx.StepFits s) ∧
      ∀ σ : Reading, σ.InRange cx → σ.Obeyed cx e → ∀ s ∈ σ.evaluated cx e, ∀ v r,
        σ.eval cx s = some (.int v) → cx.assumed s = some r → Within v r := by
  constructor
  · intro h
    refine ⟨(fits_iff e).mp h.fits, fun σ hσ hobeyed s hs => ?_⟩
    exact Reading.trusted_of_bounded (h.fits s (Reading.evaluated_subset e hs))
      (h.bounded σ hσ hobeyed s hs)
  · rintro ⟨hfits, htrusted⟩
    refine ⟨(fits_iff e).mpr hfits, fun σ hσ hobeyed => ?_⟩
    exact Reading.bounded_of_trusted hσ
      (Reading.checked_of_obeyed (by simp) hobeyed) (htrusted σ hσ hobeyed)

end RteCx

/-- An operator over unsigned integers. -/
def unsignedNode : NodeDef where
  name := "N"
  kind := .operator
  inputs := [⟨"x", .uint64⟩, ⟨"y", .uint64⟩, ⟨"u", .uint8⟩]
  outputs := [⟨"z", .uint64⟩, ⟨"w", .uint8⟩]
  locals := []
  equations := [⟨["z"], .binary .mul (.var "x") (.var "y")⟩,
    ⟨["w"], .binary .shl (.var "u") (.const (.int 1))⟩]

def unsignedProject : Project where
  packages := [{ name := "p", nodes := [unsignedNode] }]

def unsignedCx : RteCx := RteCx.new unsignedProject unsignedNode

/-- A cycle in which `u` is 200. -/
def unsignedReading : Reading where
  first := true
  read
    | .var name => if name = "u" then some (.int 200) else none
    | _ => none

theorem inRange_unsignedReading : unsignedReading.InRange unsignedCx := by
  intro e v r _ hread hraw
  cases e with
  | var name =>
    obtain ⟨rfl, hv⟩ : name = "u" ∧ (200 : Int) = v := by simpa [unsignedReading] using hread
    have hu : unsignedCx.rawInterval (.var "u") = some (some (0, 255)) := by decide
    cases hu.symm.trans hraw
    subst hv
    decide
  | _ => cases hread

end OpenLustre.CocospecEmit
