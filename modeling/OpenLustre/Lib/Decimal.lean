import Mathlib.Algebra.Order.Field.Power
import Mathlib.Data.Int.Log
import Mathlib.Data.Rat.Floor
import Mathlib.Tactic.FieldSimp
import Mathlib.Tactic.Linarith
import Mathlib.Tactic.NormNum
import Mathlib.Tactic.Positivity
import OpenLustre.Lib.Ieee

/-! Rounding in a binary format, and the shortest decimal that reads back as a
given number. -/

namespace Ieee

namespace Num

/-- Scaling both sides of a comparison by a power of two of either sign. -/
theorem mul_pow_lt_iff (n d : Nat) (e : Int) (hd : 0 < d) :
    n * 2 ^ (-e).toNat < d * 2 ^ e.toNat ↔ (n : ℚ) / d < 2 ^ e := by
  have hd' : (0 : ℚ) < d := by exact_mod_cast hd
  rw [div_lt_iff₀ hd', ← @Nat.cast_lt ℚ]
  push_cast
  obtain ⟨k, rfl | rfl⟩ := e.eq_nat_or_neg
  · simp [mul_comm]
  · have hk : (0 : ℚ) < 2 ^ k := by positivity
    rw [zpow_neg, zpow_natCast, inv_mul_eq_div, lt_div_iff₀ hk]
    simp

theorem log_eq_iff {r : ℚ} (hr : 0 < r) (e : Int) :
    Int.log 2 r = e ↔ (2 : ℚ) ^ e ≤ r ∧ r < 2 ^ (e + 1) := by
  have hle := Int.zpow_le_iff_le_log (b := 2) (R := ℚ) one_lt_two (x := e) hr
  have hlt := Int.lt_zpow_iff_log_lt (b := 2) (R := ℚ) one_lt_two (x := e + 1) hr
  push_cast at hle hlt
  rw [hle, hlt]
  omega

theorem log2Ratio_eq {n d : Nat} (hn : 0 < n) (hd : 0 < d) :
    log2Ratio n d = Int.log 2 ((n : ℚ) / d) := by
  have hd' : (0 : ℚ) < d := by exact_mod_cast hd
  have hn' : (0 : ℚ) < n := by exact_mod_cast hn
  have hr : (0 : ℚ) < n / d := div_pos hn' hd'
  have hnl : (2 : ℚ) ^ Nat.log 2 n ≤ n := by exact_mod_cast Nat.pow_log_le_self 2 hn.ne'
  have hnu : (n : ℚ) < 2 ^ (Nat.log 2 n + 1) := by exact_mod_cast Nat.lt_pow_succ_log_self one_lt_two n
  have hdl : (2 : ℚ) ^ Nat.log 2 d ≤ d := by exact_mod_cast Nat.pow_log_le_self 2 hd.ne'
  have hdu : (d : ℚ) < 2 ^ (Nat.log 2 d + 1) := by exact_mod_cast Nat.lt_pow_succ_log_self one_lt_two d
  symm
  rw [log_eq_iff hr]
  unfold log2Ratio
  simp only [mul_pow_lt_iff n d _ hd]
  set e : Int := (Nat.log 2 n : Int) - Nat.log 2 d with he
  have upper : (n : ℚ) / d < 2 ^ (e + 1) := by
    rw [div_lt_iff₀ hd']
    calc (n : ℚ) < 2 ^ (Nat.log 2 n + 1) := hnu
      _ = 2 ^ (e + 1) * 2 ^ Nat.log 2 d := by
        rw [← zpow_natCast, ← zpow_natCast, ← zpow_add₀ two_ne_zero]
        congr 1
        push_cast
        omega
      _ ≤ 2 ^ (e + 1) * d := by gcongr
  have lower : (2 : ℚ) ^ (e - 1) ≤ n / d := by
    rw [le_div_iff₀ hd']
    calc (2 : ℚ) ^ (e - 1) * d ≤ 2 ^ (e - 1) * 2 ^ (Nat.log 2 d + 1) := by gcongr
      _ = 2 ^ Nat.log 2 n := by
        rw [← zpow_natCast, ← zpow_natCast, ← zpow_add₀ two_ne_zero]
        congr 1
        push_cast
        omega
      _ ≤ n := hnl
  split
  · next h => exact ⟨lower, by rwa [sub_add_cancel]⟩
  · next h => exact ⟨not_lt.mp h, upper⟩

theorem divRound_scale {c : Nat} (hc : 0 < c) (n d : Nat) :
    divRound (c * n) (c * d) = divRound n d := by
  unfold divRound
  rw [Nat.mul_div_mul_left n d hc, Nat.mul_mod_mul_left, Nat.mul_left_comm 2 c]
  simp only [Nat.mul_lt_mul_left hc, Nat.mul_right_inj hc.ne']

@[simp] theorem divRound_mul {d : Nat} (hd : 0 < d) (q : Nat) : divRound (q * d) d = q := by
  simp [divRound, Nat.mul_div_cancel q hd, hd.ne]

/-- The rounded encoding depends on the value of the fraction alone. -/
theorem roundBits_scale {F : Format} {c : Nat} (hc : 0 < c) (n : Nat) {d : Nat} (hd : 0 < d) :
    roundBits F (c * n) (c * d) = roundBits F n d := by
  unfold roundBits
  rcases Nat.eq_zero_or_pos n with rfl | hn
  · simp
  · have hlog : log2Ratio (c * n) (c * d) = log2Ratio n d := by
      rw [log2Ratio_eq (Nat.mul_pos hc hn) (Nat.mul_pos hc hd), log2Ratio_eq hn hd]
      push_cast
      rw [mul_div_mul_left _ _ (by exact_mod_cast hc.ne')]
    simp only [hlog, Nat.mul_assoc, divRound_scale hc, Nat.mul_eq_zero, hn.ne', hc.ne', or_self]

variable {F : Format}

theorem roundBits_le (n d : Nat) : roundBits F n d ≤ F.maxExpo * 2 ^ F.frac := by
  unfold roundBits
  split
  · exact Nat.zero_le _
  · exact Nat.min_le_right _ _

theorem bits_eq (x : Num F) : x.bits = x.expoField * 2 ^ F.frac + x.fracField :=
  (Nat.div_add_mod' x.bits (2 ^ F.frac)).symm

theorem fracField_lt (x : Num F) : x.fracField < 2 ^ F.frac :=
  Nat.mod_lt _ (by positivity)

/-- The magnitude of a finite number, as a fraction. -/
def numerator (x : Num F) : Nat := x.significand * 2 ^ x.exponent.toNat
def denominator (x : Num F) : Nat := 2 ^ (-x.exponent).toNat

/-- Rounding loses nothing of a number the format has. -/
theorem roundBits_exact {x : Num F} (hx : x.isFinite) :
    roundBits F x.numerator x.denominator = x.bits := by
  have hfin : x.bits < F.maxExpo * 2 ^ F.frac := by simpa [isFinite] using hx
  have hden : 0 < x.denominator := by unfold denominator; positivity
  unfold roundBits
  split
  · next h0 =>
    -- only a zero has a zero significand
    have hs : x.significand = 0 := by
      rcases Nat.mul_eq_zero.mp h0 with h | h
      · exact h
      · exact absurd h (by positivity)
    have hpow : 0 < 2 ^ F.frac := by positivity
    rw [bits_eq]
    unfold significand at hs
    split at hs <;> simp_all
  · next h0 =>
    have hnum : 0 < x.numerator := Nat.pos_of_ne_zero h0
    have hsig : 0 < x.significand := Nat.pos_of_ne_zero fun h => h0 (by simp [numerator, h])
    have hval : (x.numerator : ℚ) / x.denominator = x.significand * 2 ^ x.exponent := by
      unfold numerator denominator
      push_cast
      obtain ⟨k, hk | hk⟩ := x.exponent.eq_nat_or_neg <;> simp [hk, div_eq_mul_inv]
    have hlog : log2Ratio x.numerator x.denominator = Nat.log 2 x.significand + x.exponent := by
      rw [log2Ratio_eq hnum hden, hval, log_eq_iff (by positivity)]
      have hl : (2 : ℚ) ^ Nat.log 2 x.significand ≤ x.significand := by
        exact_mod_cast Nat.pow_log_le_self 2 hsig.ne'
      have hu : (x.significand : ℚ) < 2 ^ (Nat.log 2 x.significand + 1) := by
        exact_mod_cast Nat.lt_pow_succ_log_self one_lt_two _
      rw [add_right_comm, zpow_add₀ two_ne_zero, zpow_add₀ two_ne_zero _ x.exponent]
      constructor
      · gcongr
        exact_mod_cast hl
      · gcongr
        exact_mod_cast hu
    have hexp : max (log2Ratio x.numerator x.denominator) (1 - (F.bias : Int))
        = x.exponent + F.frac := by
      rw [hlog]
      unfold exponent significand
      split
      · next h =>
        have : Nat.log 2 x.fracField < F.frac + 1 := by
          apply Nat.lt_succ_of_le
          calc Nat.log 2 x.fracField ≤ Nat.log 2 (2 ^ F.frac) := Nat.log_mono_right x.fracField_lt.le
            _ = F.frac := Nat.log_pow one_lt_two _
        omega
      · next h =>
        have : Nat.log 2 (x.fracField + 2 ^ F.frac) = F.frac := by
          apply Nat.log_eq_of_pow_le_of_lt_pow (Nat.le_add_left _ _)
          rw [pow_succ]
          have := x.fracField_lt
          omega
        omega
    have hquot : divRound (x.numerator * 2 ^ (-x.exponent).toNat)
        (x.denominator * 2 ^ x.exponent.toNat) = x.significand := by
      have : x.numerator * 2 ^ (-x.exponent).toNat
          = x.significand * (x.denominator * 2 ^ x.exponent.toNat) := by
        unfold numerator denominator
        ring
      rw [this, divRound_mul (by positivity)]
    have hbits : (x.exponent + F.frac + F.bias - 1).toNat * 2 ^ F.frac + x.significand = x.bits := by
      rw [x.bits_eq]
      unfold exponent significand
      split
      · next h => simp [h]
      · next h =>
        obtain ⟨k, hk⟩ := Nat.exists_eq_succ_of_ne_zero h
        have : ((max x.expoField 1 : Nat) - (F.bias : Int) - F.frac + F.frac + F.bias - 1).toNat
            = k := by omega
        rw [this, hk, Nat.succ_mul]
        omega
    simp only [hexp, add_sub_cancel_right, hquot, hbits]
    exact Nat.min_eq_left hfin.le

end Num

/-- The decimal `digits / 10 ^ scale`. -/
structure Decimal where
  digits : Nat
  scale : Nat
  deriving DecidableEq, Repr

namespace Decimal

/-- The number of the format nearest to a decimal. -/
def read (F : Format) (c : Decimal) : Num F := Num.round F false c.digits (10 ^ c.scale)

/-- The same decimal with one more, zero, fraction digit. -/
def pad (c : Decimal) : Decimal := ⟨c.digits * 10, c.scale + 1⟩

theorem read_pad (F : Format) (c : Decimal) : c.pad.read F = c.read F := by
  unfold read pad Num.round
  simp only [Nat.pow_succ, Nat.mul_comm _ 10]
  rw [Num.roundBits_scale (by norm_num) _ (by positivity)]

/-- The two multiples of `10 ^ (-k)` around the magnitude of `x`, the nearer one
first. -/
def around {F : Format} (x : Num F) (k : Int) : List Decimal :=
  let n := x.numerator * 10 ^ k.toNat
  let d := x.denominator * 10 ^ (-k).toNat
  let multiple (m : Nat) : Decimal := ⟨m * 10 ^ (-k).toNat, k.toNat⟩
  if d ≤ 2 * (n % d) then [multiple (n / d + 1), multiple (n / d)]
  else [multiple (n / d), multiple (n / d + 1)]

/-- The decimal with the fewest digits that reads back as the magnitude of `x`,
the nearer one of two. -/
def shortest {F : Format} (x : Num F) : Option Decimal :=
  let whole := Nat.log 10 (x.numerator / x.denominator) + 1
  let fraction := (-x.exponent).toNat
  (List.range (whole + fraction + 1)).findSome? fun (i : Nat) =>
    (around x ((i : Int) - whole)).find? fun c => c.read F = ⟨false, x.bits⟩

/-- The decimal equal to the magnitude of `x`. -/
def expansion {F : Format} (x : Num F) : Decimal :=
  ⟨x.significand * 2 ^ x.exponent.toNat * 5 ^ (-x.exponent).toNat, (-x.exponent).toNat⟩

theorem expansion_mem_around {F : Format} (x : Num F) :
    expansion x ∈ around x ((-x.exponent).toNat : Nat) := by
  have hn : x.numerator * 10 ^ (-x.exponent).toNat
      = x.significand * 2 ^ x.exponent.toNat * 5 ^ (-x.exponent).toNat * x.denominator := by
    rw [show 10 = 5 * 2 from rfl, Nat.mul_pow, Num.numerator, Num.denominator]
    ring
  have hd : 0 < x.denominator := by unfold Num.denominator; positivity
  unfold around expansion
  generalize (-x.exponent).toNat = k at hn ⊢
  simp only [Int.toNat_natCast, Int.toNat_neg_natCast, pow_zero, mul_one, hn,
    Nat.mul_div_cancel _ hd, Nat.mul_mod_left, mul_zero, Nat.not_le.mpr hd, if_false]
  exact List.mem_cons_self

theorem expansion_reads {F : Format} {x : Num F} (hx : x.isFinite) :
    (expansion x).read F = ⟨false, x.bits⟩ := by
  unfold read Num.round expansion
  congr 1
  rw [← Num.roundBits_exact hx, show 10 = 5 * 2 from rfl, Nat.mul_pow, Nat.mul_comm _ (5 ^ _),
    Num.roundBits_scale (by positivity) _ (by positivity)]
  rfl

theorem shortest_reads {F : Format} {x : Num F} (hx : x.isFinite) :
    ∃ c, shortest x = some c ∧ c.read F = ⟨false, x.bits⟩ := by
  have hsome : (shortest x).isSome := by
    unfold shortest
    rw [List.findSome?_isSome_iff]
    refine ⟨Nat.log 10 (x.numerator / x.denominator) + 1 + (-x.exponent).toNat,
      List.mem_range.mpr (Nat.lt_succ_self _), List.find?_isSome.mpr ⟨expansion x, ?_, ?_⟩⟩
    · convert expansion_mem_around x using 2
      push_cast
      ring
    · exact decide_eq_true (expansion_reads hx)
  obtain ⟨c, hc⟩ := Option.isSome_iff_exists.mp hsome
  refine ⟨c, hc, ?_⟩
  obtain ⟨i, -, hi⟩ := List.exists_of_findSome?_eq_some hc
  simpa using List.find?_some hi

/-- The digits of a fraction below one, with their leading zeros. -/
def fractionDigits (scale n : Nat) : List Char :=
  List.replicate (scale - (Nat.toDigits 10 n).length) '0' ++ Nat.toDigits 10 n

/-- The digits before and after the point. -/
def whole (c : Decimal) : List Char := Nat.toDigits 10 (c.digits / 10 ^ c.scale)
def fraction (c : Decimal) : List Char :=
  if c.scale = 0 then [] else fractionDigits c.scale (c.digits % 10 ^ c.scale)

theorem length_fraction (c : Decimal) : c.fraction.length = c.scale := by
  unfold fraction
  split
  · next h => simp [h]
  · next h =>
    have hlt : c.digits % 10 ^ c.scale < 10 ^ c.scale := Nat.mod_lt _ (by positivity)
    have := (Nat.length_toDigits_le_iff (by norm_num) (Nat.pos_of_ne_zero h)).mpr hlt
    simp [fractionDigits]
    omega

/-- The digits spell the decimal. -/
theorem ofDigitChars_digits (c : Decimal) :
    Nat.ofDigitChars 10 (c.whole ++ c.fraction) 0 = c.digits := by
  rw [Nat.ofDigitChars_append, Nat.ofDigitChars_eq_ofDigitChars_zero, length_fraction, whole,
    Nat.ofDigitChars_ten_toDigits, fraction]
  split
  · next h => simp [h]
  · simp [fractionDigits, Nat.ofDigitChars_append, Nat.ofDigitChars_replicate_zero,
      Nat.ofDigitChars_ten_toDigits, Nat.div_add_mod]

theorem isDigit_of_mem_whole {c : Decimal} {d : Char} (h : d ∈ c.whole) : d.isDigit :=
  Nat.isDigit_of_mem_toDigits (by norm_num) le_rfl h

theorem isDigit_of_mem_fraction {c : Decimal} {d : Char} (h : d ∈ c.fraction) : d.isDigit := by
  unfold fraction at h
  split at h
  · simp at h
  · rcases List.mem_append.mp h with h | h
    · rw [List.eq_of_mem_replicate h]
      rfl
    · exact Nat.isDigit_of_mem_toDigits (by norm_num) le_rfl h

/-- Positional notation; an integer has no point. -/
def text (c : Decimal) : String :=
  String.ofList (c.whole ++ if c.scale = 0 then [] else '.' :: c.fraction)

example : shortest (Num.ofInt .binary64 5) = some ⟨5, 0⟩ := by decide
example : shortest (read .binary64 ⟨1, 1⟩) = some ⟨1, 1⟩ := by decide

end Decimal

/-- The shortest positional notation that reads back as `x`. -/
def Num.display {F : Format} (x : Num F) : String :=
  if x.isNaN then "NaN"
  else
    (if x.neg then "-" else "")
      ++ if x.isInf then "inf" else ((Decimal.shortest x).map Decimal.text).getD ""

end Ieee
