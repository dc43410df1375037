import Mathlib.Data.List.DropRight
import Mathlib.Data.List.Infix

/-! Text as the source language's standard library cuts it up. -/

namespace Text

/-- The characters with the Unicode property `White_Space`. -/
def isWhitespace (c : Char) : Bool :=
  (0x9 ≤ c.toNat && c.toNat ≤ 0xD) || c.toNat = 0x20 || c.toNat = 0x85 || c.toNat = 0xA0 ||
    c.toNat = 0x1680 || (0x2000 ≤ c.toNat && c.toNat ≤ 0x200A) || c.toNat = 0x2028 ||
    c.toNat = 0x2029 || c.toNat = 0x202F || c.toNat = 0x205F || c.toNat = 0x3000

def trimChars (cs : List Char) : List Char := (cs.dropWhile isWhitespace).rdropWhile isWhitespace

def trim (s : String) : String := String.ofList (trimChars s.toList)

/-- Whether the first text ends the second one. -/
def isSuffix (suffix s : String) : Bool := suffix.toList.isSuffixOf s.toList

/-- Whether the first text occurs in the second one. -/
def isInfix (part s : String) : Bool := s.toList.tails.any fun tail => part.toList.isPrefixOf tail

/-- Drop a suffix as often as it is there. -/
def dropSuffixes (suffix : List Char) : Nat → List Char → List Char
  | 0, cs => cs
  | fuel + 1, cs =>
    if suffix.isSuffixOf cs then dropSuffixes suffix fuel (cs.take (cs.length - suffix.length)) else cs

def trimEndMatches (suffix s : String) : String :=
  String.ofList (dropSuffixes suffix.toList s.length s.toList)

def dropReturn (line : List Char) : List Char :=
  if line.getLast? = some '\r' then line.dropLast else line

/-- The lines of a text; an end of line may have a carriage return before it, and the last
line needs no end. -/
def lines (s : String) : List String :=
  let pieces := s.toList.splitOn '\n'
  let last := pieces.getLast?.getD []
  (pieces.dropLast.map dropReturn ++ if last.isEmpty then [] else [last]).map String.ofList

def fields (line : String) : List String := (line.toList.splitOn ',').map String.ofList

section Trim

variable {before core after cs : List Char}

/-- A text that neither starts nor ends with white space. -/
def Tight (cs : List Char) : Prop :=
  (∀ c ∈ cs.head?, isWhitespace c = false) ∧ ∀ c ∈ cs.getLast?, isWhitespace c = false

theorem dropWhile_append_eq (hbefore : ∀ c ∈ before, isWhitespace c = true)
    (hhead : ∀ c ∈ cs.head?, isWhitespace c = false) :
    (before ++ cs).dropWhile isWhitespace = cs := by
  rw [List.dropWhile_append_of_pos hbefore]
  cases cs with
  | nil => rfl
  | cons c cs => exact List.dropWhile_cons_of_neg (by simpa using hhead c)

theorem rdropWhile_append_eq (hafter : ∀ c ∈ after, isWhitespace c = true)
    (hlast : ∀ c ∈ cs.getLast?, isWhitespace c = false) :
    (cs ++ after).rdropWhile isWhitespace = cs := by
  rw [List.rdropWhile, List.reverse_append, dropWhile_append_eq, List.reverse_reverse]
  · simpa using hafter
  · simpa [List.head?_reverse] using hlast

theorem trimChars_eq (before core after : List Char) (hbefore : ∀ c ∈ before, isWhitespace c = true)
    (hafter : ∀ c ∈ after, isWhitespace c = true) (h : Tight core) :
    trimChars (before ++ core ++ after) = core := by
  cases core with
  | nil =>
    have hall : ∀ c ∈ before ++ [] ++ after, isWhitespace c = true := by
      simpa [or_imp, forall_and] using ⟨hbefore, hafter⟩
    rw [trimChars, List.dropWhile_eq_nil_iff.mpr hall]
    rfl
  | cons c core =>
    rw [trimChars, List.append_assoc, dropWhile_append_eq hbefore (by simpa using h.1 c),
      rdropWhile_append_eq hafter h.2]

theorem Tight.trimChars (h : Tight cs) : trimChars cs = cs := by
  simpa using trimChars_eq [] cs [] (by simp) (by simp) h

/-- What trimming takes away is white space, and what it leaves is tight. -/
theorem trimChars_spec (cs : List Char) :
    ∃ before after, (∀ c ∈ before, isWhitespace c = true) ∧ (∀ c ∈ after, isWhitespace c = true) ∧
      cs = before ++ Text.trimChars cs ++ after ∧ Tight (Text.trimChars cs) := by
  refine ⟨cs.takeWhile isWhitespace, (cs.dropWhile isWhitespace).rtakeWhile isWhitespace,
    fun c => List.mem_takeWhile_imp, fun c => List.mem_rtakeWhile_imp, ?_, ?_, ?_⟩
  · rw [Text.trimChars, List.append_assoc, List.rdropWhile_append_rtakeWhile,
      List.takeWhile_append_dropWhile]
  · intro c hc
    obtain ⟨rest, hrest⟩ : Text.trimChars cs <+: cs.dropWhile isWhitespace :=
      List.rdropWhile_prefix _ _
    have hhead : (cs.dropWhile isWhitespace).head? = some c := by
      rw [← hrest, List.head?_append, hc]
      rfl
    have := List.head?_dropWhile_not isWhitespace cs
    rw [hhead] at this
    simpa using this
  · intro c hc
    have hne : Text.trimChars cs ≠ [] := by
      rintro h
      rw [h] at hc
      cases hc
    have := List.rdropWhile_last_not isWhitespace (cs.dropWhile isWhitespace) hne
    rw [List.getLast?_eq_some_getLast hne] at hc
    cases hc
    exact Bool.eq_false_iff.mpr this

theorem trimChars_trimChars (cs : List Char) :
    Text.trimChars (Text.trimChars cs) = Text.trimChars cs := by
  obtain ⟨before, after, -, -, -, htight⟩ := trimChars_spec cs
  exact htight.trimChars

end Trim

/-- An integer in decimal notation. -/
def decimal (i : Int) : List Char :=
  if i < 0 then '-' :: Nat.toDigits 10 i.natAbs else Nat.toDigits 10 i.natAbs

/-- A natural number in decimal notation, leading zeros allowed. -/
def readNat (cs : List Char) : Option Nat :=
  if cs ≠ [] ∧ cs.all Char.isDigit then some (Nat.ofDigitChars 10 cs 0) else none

/-- An integer in decimal notation, a leading plus allowed. -/
def readInt (cs : List Char) : Option Int :=
  if cs.head? = some '-' then (readNat cs.tail).map Int.negOfNat
  else if cs.head? = some '+' then (readNat cs.tail).map Int.ofNat
  else (readNat cs).map Int.ofNat

/-- A natural number in decimal notation, a leading plus allowed. -/
def readUnsigned (cs : List Char) : Option Nat :=
  if cs.head? = some '+' then readNat cs.tail else readNat cs

theorem isDigit_of_mem_digits {n : Nat} {c : Char} (h : c ∈ Nat.toDigits 10 n) : c.isDigit :=
  Nat.isDigit_of_mem_toDigits (by decide) (by decide) h

theorem readNat_digits (n : Nat) : readNat (Nat.toDigits 10 n) = some n := by
  have hall : (Nat.toDigits 10 n).all Char.isDigit = true :=
    List.all_eq_true.mpr fun _ => isDigit_of_mem_digits
  simp [readNat, Nat.toDigits_ne_nil, hall, Nat.ofDigitChars_ten_toDigits]

theorem head_digits_ne {n : Nat} {c : Char} (hc : c.isDigit = false) :
    (Nat.toDigits 10 n).head? ≠ some c := by
  intro h
  rw [isDigit_of_mem_digits (List.mem_of_mem_head? h)] at hc
  cases hc

theorem readInt_decimal (i : Int) : readInt (decimal i) = some i := by
  have hminus : (Nat.toDigits 10 i.natAbs).head? ≠ some '-' := head_digits_ne (by decide)
  have hplus : (Nat.toDigits 10 i.natAbs).head? ≠ some '+' := head_digits_ne (by decide)
  unfold decimal
  split
  case isTrue hneg =>
    have habs : Int.negOfNat i.natAbs = i := by
      rw [Int.negOfNat_eq, Int.ofNat_eq_natCast, Int.ofNat_natAbs_of_nonpos (Int.le_of_lt hneg),
        Int.neg_neg]
    simp only [readInt, List.head?_cons, List.tail_cons, if_true, readNat_digits, Option.map_some,
      habs]
  case isFalse hneg =>
    simp only [readInt, if_neg hminus, if_neg hplus, readNat_digits, Option.map_some,
      Int.ofNat_eq_natCast, Int.natAbs_of_nonneg (Int.not_lt.mp hneg)]

theorem readUnsigned_decimal {i : Int} (h : 0 ≤ i) : readUnsigned (decimal i) = some i.toNat := by
  have hplus : (Nat.toDigits 10 i.natAbs).head? ≠ some '+' := head_digits_ne (by decide)
  have habs : i.natAbs = i.toNat := by omega
  rw [decimal, if_neg (by omega), readUnsigned, if_neg hplus, readNat_digits, habs]

end Text
