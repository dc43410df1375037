import Mathlib.Data.Nat.Log
import Mathlib.Data.Int.Log

/-! Binary interchange formats with round-to-nearest-even arithmetic, computed
exactly on the integers behind the encodings.  A number of a format is its bit
pattern, so that equality of numbers is equality of encodings; `Num.eq` is the
arithmetic comparison, under which the zeros agree and a NaN differs from
everything. -/

namespace Ieee

structure Format where
  /-- Stored fraction bits. -/
  frac : Nat
  /-- Exponent bits. -/
  expo : Nat
  deriving DecidableEq, Repr

namespace Format

def binary32 : Format := ⟨23, 8⟩
def binary64 : Format := ⟨52, 11⟩

def bias (F : Format) : Nat := 2 ^ (F.expo - 1) - 1
def maxExpo (F : Format) : Nat := 2 ^ F.expo - 1

end Format

/-- A number of format `F`: its sign and the fields below the sign, read as one
natural number. -/
structure Num (F : Format) where
  neg : Bool
  bits : Nat
  deriving DecidableEq, Repr

namespace Num

variable {F : Format}

def expoField (x : Num F) : Nat := x.bits / 2 ^ F.frac
def fracField (x : Num F) : Nat := x.bits % 2 ^ F.frac

def zero (neg : Bool) : Num F := ⟨neg, 0⟩
def inf (neg : Bool) : Num F := ⟨neg, F.maxExpo * 2 ^ F.frac⟩
def nan : Num F := ⟨false, F.maxExpo * 2 ^ F.frac + 2 ^ (F.frac - 1)⟩

def isFinite (x : Num F) : Bool := decide (x.bits < F.maxExpo * 2 ^ F.frac)
def isInf (x : Num F) : Bool := decide (x.bits = F.maxExpo * 2 ^ F.frac)
def isNaN (x : Num F) : Bool := decide (F.maxExpo * 2 ^ F.frac < x.bits)

/-- A finite number is `significand * 2 ^ exponent`. -/
def significand (x : Num F) : Nat :=
  if x.expoField = 0 then x.fracField else x.fracField + 2 ^ F.frac

def exponent (x : Num F) : Int := (max x.expoField 1 : Nat) - (F.bias : Int) - F.frac

/-- Divide, rounding halves to even. -/
def divRound (n d : Nat) : Nat :=
  if d < 2 * (n % d) ∨ (2 * (n % d) = d ∧ n / d % 2 = 1) then n / d + 1 else n / d

/-- `⌊log₂ (n / d)⌋` for positive `n`, `d`. -/
def log2Ratio (n d : Nat) : Int :=
  let e : Int := (Nat.log 2 n : Int) - Nat.log 2 d
  if n * 2 ^ (-e).toNat < d * 2 ^ e.toNat then e - 1 else e

/-- The encoding below the sign of the number nearest to `n / d`.  A carry out
of the significand moves into the exponent field by itself. -/
def roundBits (F : Format) (n d : Nat) : Nat :=
  if n = 0 then 0 else
    let e := max (log2Ratio n d) (1 - (F.bias : Int))
    let shift : Int := e - F.frac
    let q := divRound (n * 2 ^ (-shift).toNat) (d * 2 ^ shift.toNat)
    min ((e + F.bias - 1).toNat * 2 ^ F.frac + q) (F.maxExpo * 2 ^ F.frac)

/-- The number nearest to `± n / d`. -/
def round (F : Format) (neg : Bool) (n d : Nat) : Num F := ⟨neg, roundBits F n d⟩

/-- The number nearest to `± m * 2 ^ e`. -/
def roundScaled (F : Format) (neg : Bool) (m : Nat) (e : Int) : Num F :=
  round F neg (m * 2 ^ e.toNat) (2 ^ (-e).toNat)

/-- `x` as an integer multiple of `2 ^ e`, for `e` at most its exponent. -/
def scaledTo (x : Num F) (e : Int) : Int :=
  let m : Int := (x.significand * 2 ^ (x.exponent - e).toNat : Nat)
  if x.neg then -m else m

def negate (x : Num F) : Num F := ⟨!x.neg, x.bits⟩

def add (x y : Num F) : Num F :=
  if x.isNaN || y.isNaN then nan
  else if x.isInf then (if y.isInf && x.neg != y.neg then nan else x)
  else if y.isInf then y
  else
    let e := min x.exponent y.exponent
    let s := x.scaledTo e + y.scaledTo e
    if s = 0 then zero (x.neg && y.neg) else roundScaled F (s < 0) s.natAbs e

def sub (x y : Num F) : Num F := add x y.negate

def mul (x y : Num F) : Num F :=
  let neg := x.neg != y.neg
  if x.isNaN || y.isNaN then nan
  else if x.isInf then (if y.bits = 0 then nan else inf neg)
  else if y.isInf then (if x.bits = 0 then nan else inf neg)
  else roundScaled F neg (x.significand * y.significand) (x.exponent + y.exponent)

def div (x y : Num F) : Num F :=
  let neg := x.neg != y.neg
  if x.isNaN || y.isNaN then nan
  else if x.isInf then (if y.isInf then nan else inf neg)
  else if y.isInf then zero neg
  else if y.bits = 0 then (if x.bits = 0 then nan else inf neg)
  else
    let e := x.exponent - y.exponent
    round F neg (x.significand * 2 ^ e.toNat) (y.significand * 2 ^ (-e).toNat)

def eq (x y : Num F) : Bool :=
  !x.isNaN && !y.isNaN && (decide (x = y) || (decide (x.bits = 0) && decide (y.bits = 0)))

/-- The order key of a number that is not a NaN. -/
def key (x : Num F) : Int := if x.neg then -(x.bits : Int) else x.bits

def lt (x y : Num F) : Bool := !x.isNaN && !y.isNaN && decide (x.key < y.key)
def le (x y : Num F) : Bool := !x.isNaN && !y.isNaN && decide (x.key ≤ y.key)

def ofInt (F : Format) (i : Int) : Num F := round F (i < 0) i.natAbs 1

/-- Convert between formats, rounding where the target is narrower. -/
def convert (G : Format) (x : Num F) : Num G :=
  if x.isNaN then nan
  else if x.isInf then inf x.neg
  else roundScaled G x.neg x.significand x.exponent

/-- Truncate toward zero, saturating at `lo` and `hi`; a NaN gives zero. -/
def toInt (lo hi : Int) (x : Num F) : Int :=
  if x.isNaN then 0
  else if x.isInf then (if x.neg then lo else hi)
  else
    let m : Int := (x.significand * 2 ^ x.exponent.toNat / 2 ^ (-x.exponent).toNat : Nat)
    max lo (min hi (if x.neg then -m else m))

end Num

end Ieee
