import Mathlib.Algebra.Order.Group.Int
import Mathlib.Algebra.Order.Ring.Int
import Mathlib.Order.Interval.Set.Defs
import Mathlib.Tactic.Linarith

/-! Bounds of integer values under the operations of a machine: sums, differences, products,
quotients and remainders that truncate towards zero. -/

namespace Bounds

/-- A lower and an upper bound. -/
abbrev Range : Type := Int × Int

/-- A value between its bounds. -/
def Within (v : Int) (r : Range) : Prop := r.1 ≤ v ∧ v ≤ r.2

instance (v : Int) (r : Range) : Decidable (Within v r) := inferInstanceAs (Decidable (_ ∧ _))

def hull (a b : Range) : Range := (min a.1 b.1, max a.2 b.2)

def meet (a b : Range) : Range := (max a.1 b.1, min a.2 b.2)

/-- The bounds of an operation's values where both operands are at a bound. -/
def corners (f : Int → Int → Int) (a b : Range) : Range :=
  (min (min (f a.1 b.1) (f a.1 b.2)) (min (f a.2 b.1) (f a.2 b.2)),
    max (max (f a.1 b.1) (f a.1 b.2)) (max (f a.2 b.1) (f a.2 b.2)))

/-- The greatest absolute value between two bounds. -/
def absMax (r : Range) : Int := max |r.1| |r.2|

variable {a b r s : Range} {x y v : Int}

theorem Within.hull_left (h : Within v r) (s : Range) : Within v (hull r s) :=
  ⟨(min_le_left _ _).trans h.1, h.2.trans (le_max_left _ _)⟩

theorem Within.hull_right (h : Within v s) (r : Range) : Within v (hull r s) :=
  ⟨(min_le_right _ _).trans h.1, h.2.trans (le_max_right _ _)⟩

theorem within_meet : Within v (meet r s) ↔ Within v r ∧ Within v s := by
  simp only [Within, meet, max_le_iff, le_min_iff]
  tauto

theorem Within.mono (h : Within v r) (hrs : s.1 ≤ r.1 ∧ r.2 ≤ s.2) : Within v s :=
  ⟨hrs.1.trans h.1, h.2.trans hrs.2⟩

theorem Within.add (hx : Within x a) (hy : Within y b) :
    Within (x + y) (a.1 + b.1, a.2 + b.2) :=
  ⟨add_le_add hx.1 hy.1, add_le_add hx.2 hy.2⟩

theorem Within.sub (hx : Within x a) (hy : Within y b) :
    Within (x - y) (a.1 - b.2, a.2 - b.1) :=
  ⟨sub_le_sub hx.1 hy.2, sub_le_sub hx.2 hy.1⟩

theorem Within.neg (hx : Within x a) : Within (-x) (-a.2, -a.1) :=
  ⟨neg_le_neg hx.2, neg_le_neg hx.1⟩

/-- A value between those of an operation at two arguments. -/
def Between (v u w : Int) : Prop := Within v (min u w, max u w)

theorem Between.mono {u w l h : Int} (hv : Between v u w) (hu : l ≤ u ∧ u ≤ h)
    (hw : l ≤ w ∧ w ≤ h) : l ≤ v ∧ v ≤ h :=
  ⟨(le_min hu.1 hw.1).trans hv.1, hv.2.trans (max_le hu.2 hw.2)⟩

theorem between_of_le {f : Int → Int} (hf : ∀ u w, a.1 ≤ u → u ≤ w → w ≤ a.2 → f u ≤ f w)
    (hx : Within x a) : Between (f x) (f a.1) (f a.2) :=
  ⟨(min_le_left _ _).trans (hf _ _ le_rfl hx.1 hx.2), (hf _ _ hx.1 hx.2 le_rfl).trans (le_max_right _ _)⟩

theorem between_of_ge {f : Int → Int} (hf : ∀ u w, a.1 ≤ u → u ≤ w → w ≤ a.2 → f w ≤ f u)
    (hx : Within x a) : Between (f x) (f a.1) (f a.2) :=
  ⟨(min_le_right _ _).trans (hf _ _ hx.1 hx.2 le_rfl), (hf _ _ le_rfl hx.1 hx.2).trans (le_max_left _ _)⟩

/-- An operation that is monotone or antitone in each argument is bounded by its corners. -/
theorem within_corners {f : Int → Int → Int}
    (hleft : ∀ y, Within y b → Between (f x y) (f a.1 y) (f a.2 y))
    (hright : ∀ x, x = a.1 ∨ x = a.2 → Between (f x y) (f x b.1) (f x b.2)) (hy : Within y b) :
    Within (f x y) (corners f a b) := by
  have h₁ := hright a.1 (.inl rfl)
  have h₂ := hright a.2 (.inr rfl)
  refine (hleft y hy).mono (h₁.mono ?_ ?_) (h₂.mono ?_ ?_)
  all_goals simp [corners]

theorem Within.mul (hx : Within x a) (hy : Within y b) : Within (x * y) (corners (· * ·) a b) := by
  refine within_corners (fun y _ => ?_) (fun x _ => ?_) hy
  · rcases le_total 0 y with h | h
    · exact between_of_le (fun u w _ huw _ => mul_le_mul_of_nonneg_right huw h) hx
    · exact between_of_ge (fun u w _ huw _ => mul_le_mul_of_nonpos_right huw h) hx
  · rcases le_total 0 x with h | h
    · exact between_of_le (fun u w _ huw _ => mul_le_mul_of_nonneg_left huw h) hy
    · exact between_of_ge (fun u w _ huw _ => mul_le_mul_of_nonpos_left huw h) hy

theorem tdiv_antitone_pos {x u w : Int} (hx : 0 ≤ x) (hu : 0 < u) (huw : u ≤ w) :
    x.tdiv w ≤ x.tdiv u := by
  rw [Int.tdiv_eq_ediv_of_nonneg hx, Int.tdiv_eq_ediv_of_nonneg hx, Int.le_ediv_iff_mul_le hu]
  have hw : 0 < w := hu.trans_le huw
  calc x / w * u ≤ x / w * w := mul_le_mul_of_nonneg_left huw (Int.ediv_nonneg hx hw.le)
    _ ≤ x := Int.ediv_mul_le x hw.ne'

/-- On divisors of one sign the quotient of a dividend that is not negative is antitone. -/
theorem tdiv_antitone {x u w : Int} (hx : 0 ≤ x) (huw : u ≤ w) (hsign : 0 < u ∨ w < 0) :
    x.tdiv w ≤ x.tdiv u := by
  rcases hsign with hu | hw
  · exact tdiv_antitone_pos hx hu huw
  · have h : x.tdiv (-u) ≤ x.tdiv (-w) := tdiv_antitone_pos hx (by omega) (by omega)
    simpa using h

theorem tdiv_monotone {x u w : Int} (hx : x ≤ 0) (huw : u ≤ w) (hsign : 0 < u ∨ w < 0) :
    x.tdiv u ≤ x.tdiv w := by
  have h : (-x).tdiv w ≤ (-x).tdiv u := tdiv_antitone (by omega) huw hsign
  simpa using h

theorem tdiv_le_tdiv_neg {u w c : Int} (hc : c < 0) (huw : u ≤ w) : w.tdiv c ≤ u.tdiv c := by
  have h : u.tdiv (-c) ≤ w.tdiv (-c) := Int.tdiv_le_tdiv (by omega) huw
  simpa using h

/-- Truncating division on divisors of one sign. -/
theorem Within.tdiv (hx : Within x a) (hy : Within y b) (hb : 0 < b.1 ∨ b.2 < 0) :
    Within (x.tdiv y) (corners Int.tdiv a b) := by
  refine within_corners (fun y hy => ?_) (fun x _ => ?_) hy
  · rcases hb with h | h
    · exact between_of_le (fun u w _ huw _ => Int.tdiv_le_tdiv (h.trans_le hy.1) huw) hx
    · exact between_of_ge (fun u w _ huw _ => tdiv_le_tdiv_neg (hy.2.trans_lt h) huw) hx
  · have hsign {u w : Int} (hu : b.1 ≤ u) (hw : w ≤ b.2) : 0 < u ∨ w < 0 :=
      hb.imp (fun h => h.trans_le hu) fun h => hw.trans_lt h
    rcases le_total 0 x with h | h
    · exact between_of_ge (fun u w hu huw hw => tdiv_antitone h huw (hsign hu hw)) hy
    · exact between_of_le (fun u w hu huw hw => tdiv_monotone h huw (hsign hu hw)) hy

theorem Within.abs_le_absMax (hx : Within x a) : |x| ≤ absMax a := abs_le_max_abs_abs hx.1 hx.2

theorem abs_tdiv_le (x y : Int) : |x.tdiv y| ≤ |x| := by
  rw [Int.abs_eq_natAbs, Int.abs_eq_natAbs]
  exact_mod_cast Int.natAbs_tdiv_le_natAbs x y

/-- A quotient is no greater than its dividend. -/
theorem Within.tdiv_abs (hx : Within x a) (y : Int) : Within (x.tdiv y) (-absMax a, absMax a) :=
  abs_le.mp ((abs_tdiv_le x y).trans hx.abs_le_absMax)

/-- The bounds of a remainder: it takes the sign of the dividend and is less than the divisor. -/
def remainder (a b : Range) : Range :=
  let m := min (absMax a) (max (absMax b - 1) 0)
  (if a.1 < 0 then -m else 0, if a.2 > 0 then m else 0)

theorem Within.tmod (hx : Within x a) (hy : Within y b) (hne : y ≠ 0) :
    Within (x.tmod y) (remainder a b) := by
  have hpos : 0 < y.natAbs := Int.natAbs_pos.mpr hne
  have hnat : (x.tmod y).natAbs ≤ x.natAbs ∧ (x.tmod y).natAbs < y.natAbs := by
    rw [Int.natAbs_tmod]
    exact ⟨Nat.mod_le _ _, Nat.mod_lt _ hpos⟩
  have hlt : |x.tmod y| ≤ |y| - 1 := by
    rw [Int.abs_eq_natAbs, Int.abs_eq_natAbs]
    omega
  have hle : |x.tmod y| ≤ |x| := by
    rw [Int.abs_eq_natAbs, Int.abs_eq_natAbs]
    omega
  have hm : |x.tmod y| ≤ min (absMax a) (max (absMax b - 1) 0) :=
    le_min (hle.trans hx.abs_le_absMax) (le_max_of_le_left (hlt.trans (by have := hy.abs_le_absMax; omega)))
  obtain ⟨hlo, hhi⟩ := abs_le.mp hm
  have hsign : (0 ≤ x → 0 ≤ x.tmod y) ∧ (x ≤ 0 → x.tmod y ≤ 0) := by
    refine ⟨fun h => Int.tmod_nonneg y h, fun h => ?_⟩
    have hneg : 0 ≤ (-x).tmod y := Int.tmod_nonneg y (by omega)
    rw [Int.neg_tmod] at hneg
    omega
  unfold Within remainder at *
  constructor
  · dsimp only
    split
    · exact hlo
    · exact hsign.1 (by omega)
  · dsimp only
    split
    · exact hhi
    · exact hsign.2 (by omega)

end Bounds
