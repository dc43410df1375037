import OpenLustre.Stdlib.Parser
import Mathlib.Data.List.TakeWhile

/-! The tokenizer by its positions in the bytes, with the slices it takes of the text. -/

namespace OpenLustre.Stdlib

open OpenLustre.Ir

/-- How reading a text ends without a result. -/
inductive Fault
  | outOfFuel
  | panic
  | error (e : ParseError)
  deriving DecidableEq, Repr

abbrev Scan (α : Type) := Except Fault α

def fail {α : Type} (e : ParseError) : Scan α := .error (.error e)

/-- Where the characters of a text start in its bytes, and where the last one ends. -/
def boundaries : List Char → List Nat
  | [] => [0]
  | c :: cs => 0 :: (boundaries cs).map (· + c.utf8Size)

/-- A slice of a text, which panics inside a character and past the end. -/
def slice (src : String) (start stop : Nat) : Scan (List UInt8) :=
  if start ≤ stop ∧ start ∈ boundaries src.toList ∧ stop ∈ boundaries src.toList then
    .ok (((asBytes src).drop start).take (stop - start))
  else .error .panic

/-- The position after the bytes from a position on that meet a test. -/
def scanWhile (test : UInt8 → Bool) (bytes : List UInt8) (i : Nat) : Nat :=
  i + ((bytes.drop i).takeWhile test).length

section Literals

variable (bytes : List UInt8)

def readEscapedAt (i : Nat) : Scan (UInt8 × Nat) :=
  match bytes[i]? with
  | none => fail .unexpectedEof
  | some b =>
    if asChar b = '\\' then
      match bytes[i + 1]? with
      | none => fail .unexpectedEof
      | some e => .ok (unescape e, i + 2)
    else .ok (b, i + 1)

def readStringAt : Nat → Nat → Scan (List UInt8 × Nat)
  | 0, _ => .error .outOfFuel
  | fuel + 1, i =>
    match bytes[i]? with
    | none => fail .unexpectedEof
    | some b =>
      if asChar b = '"' then .ok ([], i + 1)
      else do
        let (value, i) ← readEscapedAt bytes i
        let (s, i) ← readStringAt fuel i
        .ok (value :: s, i)

def charLiteralAt (i : Nat) : Scan (Tok × Nat) := do
  let (value, i) ← readEscapedAt bytes i
  match bytes[i]? with
  | none => fail (.expected "closing ' for a character literal" "<eof>")
  | some q =>
    if asChar q = '\'' then .ok (.charLit value, i + 1)
    else fail (.expected "closing ' for a character literal" (toString (asChar q)))

end Literals

section Numbers

variable (src : String)

def hexLiteralAt (start : Nat) (c : Char) : Scan (Tok × Nat) := do
  let hexStart := start + 2
  let i := scanWhile (fun b => (hexValue b).isSome) (asBytes src) hexStart
  let digits ← slice src hexStart i
  let n := (digits.filterMap hexValue).foldl (fun n d => 16 * n + d) 0
  if digits.isEmpty || i64Max < n then fail (.badChar c start)
  else .ok (.int n, i)

/-- The end of the digits of a number, its point if it has one and the digits after it. -/
def numberEnd (bytes : List UInt8) (start : Nat) : Bool × Nat :=
  let i := scanWhile isDigit bytes start
  if bytes[i]?.any fun b => asChar b = '.' then (true, scanWhile isDigit bytes (i + 1))
  else (false, i)

def suffixAt (i : Nat) : Scan (Option Ty × Nat) :=
  if (asBytes src)[i]?.any fun b => asChar b = '_' then do
    let j := scanWhile isAlphanumeric (asBytes src) (i + 1)
    let word ← slice src (i + 1) j
    match numericSuffixType (ofBytes word) with
    | some ty => .ok (some ty, j)
    | none => .ok (none, i)
  else .ok (none, i)

/-- The digits of a literal before and after its point. -/
def splitPoint (text : List UInt8) : List Char × List Char :=
  let chars := text.map asChar
  (chars.takeWhile (· ≠ '.'), (chars.dropWhile (· ≠ '.')).drop 1)

def decimalLiteralAt (start : Nat) (c : Char) : Scan (Tok × Nat) := do
  let (isFloat, i) := numberEnd (asBytes src) start
  let text ← slice src start i
  let (whole, fraction) := splitPoint text
  let (suffixTy, i) ← suffixAt src i
  let int := (intLiteral start c whole).mapError Fault.error
  match isFloat, suffixTy with
  | true, some ty => .ok (.typedFloat (floatLiteral whole fraction) ty, i)
  | false, some ty => int.map fun n => (.typedInt n ty, i)
  | true, none => .ok (.float (floatLiteral whole fraction), i)
  | false, none => int.map fun n => (.int n, i)

/-- The token that starts with byte `b`, at a position. -/
def lexemeAt (i : Nat) (b : UInt8) : Scan (Tok × Nat) :=
  let bytes := asBytes src
  let c := asChar b
  match symbol c (bytes[i + 1]?.map asChar) with
  | some (t, size) => .ok (t, i + size)
  | none =>
    if c = '\'' then charLiteralAt bytes (i + 1)
    else if c = '"' then
      (readStringAt bytes (bytes.length + 1) (i + 1)).map fun x => (.str x.1, x.2)
    else if isDigit b then
      if c = '0' ∧ (bytes[i + 1]? = some 120 ∨ bytes[i + 1]? = some 88) then hexLiteralAt src i c
      else decimalLiteralAt src i c
    else if isIdentStart b then do
      let stop := scanWhile isIdentPart bytes i
      let name ← slice src i stop
      .ok (.ident (ofBytes name), stop)
    else fail (.badChar c i)

/-- A token with the bytes that it takes. -/
structure Spanned where
  tok : Tok
  start : Nat
  stop : Nat
  deriving DecidableEq, Repr

/-- The tokens from a position on. -/
def tokenizeAt : Nat → Nat → Scan (List Spanned)
  | fuel, i =>
    match (asBytes src)[i]? with
    | none => .ok []
    | some b =>
      match fuel with
      | 0 => .error .outOfFuel
      | fuel + 1 =>
        if !isAscii b then do
          let rest ← slice src i (asBytes src).length
          fail (.badChar (firstChar rest) i)
        else if isWhitespace b then tokenizeAt fuel (i + 1)
        else do
          let (tok, stop) ← lexemeAt src i b
          let toks ← tokenizeAt fuel stop
          .ok (⟨tok, i, stop⟩ :: toks)

def scan : Scan (List Spanned) := tokenizeAt src (asBytes src).length 0

end Numbers

section Boundaries

theorem asChar_toNat (b : UInt8) : (asChar b).toNat = b.toNat := by
  have hvalid : b.toNat.isValidChar := .inl (by have := b.toNat_lt; omega)
  rw [asChar, Char.ofNat, dif_pos hvalid]
  rfl

theorem isAscii_of_asChar {b : UInt8} {c : Char} (h : asChar b = c) (hc : c.toNat < 128) :
    isAscii b := by
  rw [← h, asChar_toNat] at hc
  simpa [isAscii, UInt8.lt_iff_toNat_lt] using hc

/-- An ASCII byte is a character of its own. -/
theorem utf8Size_of_ascii {c : Char} {b : UInt8} (h : b ∈ String.utf8EncodeChar c)
    (hb : isAscii b) : c.utf8Size = 1 := by
  have hlow : b.toNat < 128 := by simpa [isAscii, UInt8.lt_iff_toNat_lt] using hb
  have hmax : c.val.toNat < 1114112 := by
    rcases c.valid with hc | hc <;> omega
  simp only [String.utf8EncodeChar] at h
  split at h
  · next hsmall => exact Char.utf8Size_eq_one_iff.mpr (UInt32.le_iff_toNat_le.mpr hsmall)
  -- every other byte has its highest bit set
  · split at h
    · simp only [List.mem_cons, List.not_mem_nil, or_false] at h
      rcases h with rfl | rfl <;> simp only [UInt8.toNat_ofNat'] at hlow <;> omega
    · split at h
      · simp only [List.mem_cons, List.not_mem_nil, or_false] at h
        rcases h with rfl | rfl | rfl <;> simp only [UInt8.toNat_ofNat'] at hlow <;> omega
      · simp only [List.mem_cons, List.not_mem_nil, or_false] at h
        rcases h with rfl | rfl | rfl | rfl <;> simp only [UInt8.toNat_ofNat'] at hlow <;> omega

theorem boundary_of_ascii {cs : List Char} {i : Nat} {b : UInt8}
    (h : (cs.flatMap String.utf8EncodeChar)[i]? = some b) (hb : isAscii b) :
    i ∈ boundaries cs ∧ i + 1 ∈ boundaries cs := by
  induction cs generalizing i with
  | nil => simp at h
  | cons c cs ih =>
    rw [List.flatMap_cons] at h
    simp only [boundaries, List.mem_cons, List.mem_map]
    by_cases hi : i < c.utf8Size
    · rw [List.getElem?_append_left (by simpa using hi)] at h
      have hsize := utf8Size_of_ascii (List.mem_of_getElem? h) hb
      obtain rfl : i = 0 := by omega
      exact ⟨.inl rfl, .inr ⟨0, by cases cs <;> simp [boundaries], by omega⟩⟩
    · rw [List.getElem?_append_right (by simpa using hi), String.length_utf8EncodeChar] at h
      obtain ⟨hstart, hstop⟩ := ih h
      exact ⟨.inr ⟨_, hstart, by omega⟩, .inr ⟨_, hstop, by omega⟩⟩

theorem zero_boundary (cs : List Char) : 0 ∈ boundaries cs := by
  cases cs <;> simp [boundaries]

theorem length_boundary (cs : List Char) :
    (cs.flatMap String.utf8EncodeChar).length ∈ boundaries cs := by
  induction cs with
  | nil => simp [boundaries]
  | cons c cs ih =>
    simp only [boundaries, List.mem_cons, List.mem_map, List.flatMap_cons, List.length_append,
      String.length_utf8EncodeChar]
    exact .inr ⟨_, ih, Nat.add_comm _ _⟩

end Boundaries

section Positions

variable {bytes bs : List UInt8} {i : Nat} {b : UInt8}

theorem getElem?_of_drop (h : bytes.drop i = b :: bs) :
    bytes[i]? = some b ∧ bytes.drop (i + 1) = bs ∧ i < bytes.length := by
  have hhead := congrArg List.head? h
  have htail := congrArg List.tail h
  rw [List.head?_drop, List.head?_cons] at hhead
  rw [List.tail_drop, List.tail_cons] at htail
  exact ⟨hhead, htail, (List.getElem?_eq_some_iff.mp hhead).1⟩

theorem getElem?_of_drop_nil (h : bytes.drop i = []) : bytes[i]? = none :=
  List.getElem?_eq_none (List.drop_eq_nil_iff.mp h)

theorem scanWhile_nil {test : UInt8 → Bool} (h : bytes.drop i = []) : scanWhile test bytes i = i := by
  simp [scanWhile, h]

theorem scanWhile_pos {test : UInt8 → Bool} (h : bytes.drop i = b :: bs) (hb : test b) :
    scanWhile test bytes i = scanWhile test bytes (i + 1) := by
  obtain ⟨-, htail, -⟩ := getElem?_of_drop h
  simp only [scanWhile, h, htail, List.takeWhile_cons_of_pos hb, List.length_cons]
  omega

theorem scanWhile_neg {test : UInt8 → Bool} (h : bytes.drop i = b :: bs) (hb : ¬ test b) :
    scanWhile test bytes i = i := by
  simp [scanWhile, h, hb]

theorem drop_scanWhile (test : UInt8 → Bool) (bytes : List UInt8) (i : Nat) :
    bytes.drop (scanWhile test bytes i) = (bytes.drop i).dropWhile test := by
  have hsplit : (bytes.drop i).takeWhile test ++ (bytes.drop i).dropWhile test = bytes.drop i :=
    List.takeWhile_append_dropWhile
  have hdrop : ((bytes.drop i).takeWhile test ++ (bytes.drop i).dropWhile test).drop
      ((bytes.drop i).takeWhile test).length = (bytes.drop i).dropWhile test := List.drop_left
  rw [scanWhile, ← List.drop_drop]
  rwa [hsplit] at hdrop

theorem scanWhile_le {test : UInt8 → Bool} (h : i ≤ bytes.length) :
    i ≤ scanWhile test bytes i ∧ scanWhile test bytes i ≤ bytes.length := by
  have hle := (List.takeWhile_sublist test (l := bytes.drop i)).length_le
  rw [List.length_drop] at hle
  unfold scanWhile
  omega

end Positions

section Slices

variable {src : String} {i j : Nat}

theorem boundary_of_byte {b : UInt8} (h : (asBytes src)[i]? = some b) (hb : isAscii b) :
    i ∈ boundaries src.toList ∧ i + 1 ∈ boundaries src.toList :=
  boundary_of_ascii h hb

/-- The bytes from a boundary on that meet a test of ASCII end at a boundary. -/
theorem scanWhile_boundary {test : UInt8 → Bool} (htest : ∀ b, test b → isAscii b)
    (h : i ∈ boundaries src.toList) : scanWhile test (asBytes src) i ∈ boundaries src.toList := by
  generalize hbs : (asBytes src).drop i = bs
  induction bs generalizing i with
  | nil => rwa [scanWhile_nil hbs]
  | cons b bs ih =>
    obtain ⟨hbyte, htail, -⟩ := getElem?_of_drop hbs
    by_cases hb : test b
    · rw [scanWhile_pos hbs hb]
      exact ih (boundary_of_byte hbyte (htest b hb)).2 htail
    · rwa [scanWhile_neg hbs hb]

theorem slice_scanWhile {test : UInt8 → Bool} (htest : ∀ b, test b → isAscii b)
    (h : i ∈ boundaries src.toList) :
    slice src i (scanWhile test (asBytes src) i) = .ok (((asBytes src).drop i).takeWhile test) := by
  have hle : i ≤ scanWhile test (asBytes src) i := Nat.le_add_right _ _
  rw [slice, if_pos ⟨hle, h, scanWhile_boundary htest h⟩]
  have htake := List.prefix_iff_eq_take.mp (List.takeWhile_prefix test (l := (asBytes src).drop i))
  rw [htake]
  simp [scanWhile]

end Slices

section Agreement

/-- Scanning from a position on does what reading the bytes from there on does, and ends at a
position with a property. -/
inductive Agrees {α : Type} (bytes : List UInt8) (P : Nat → Prop) :
    Scan (α × Nat) → Except ParseError (α × List UInt8) → Prop
  | ok {a : α} {i : Nat} : i ≤ bytes.length → P i → Agrees bytes P (.ok (a, i)) (.ok (a, bytes.drop i))
  | error {e : ParseError} : Agrees bytes P (.error (.error e)) (.error e)

variable {bytes : List UInt8} {i : Nat}

theorem readEscapedAt_agrees :
    Agrees bytes (i < ·) (readEscapedAt bytes i) (readEscaped (bytes.drop i)) := by
  cases hbs : bytes.drop i with
  | nil =>
    rw [readEscapedAt, getElem?_of_drop_nil hbs]
    exact .error
  | cons b bs =>
    obtain ⟨hbyte, htail, hlt⟩ := getElem?_of_drop hbs
    simp only [readEscapedAt, hbyte, readEscaped]
    split
    · cases hbs' : bs with
      | nil =>
        rw [getElem?_of_drop_nil (htail.trans hbs')]
        exact .error
      | cons e bs' =>
        obtain ⟨hbyte', htail', hlt'⟩ := getElem?_of_drop (htail.trans hbs')
        rw [hbyte', ← htail']
        exact .ok (by omega) (by omega)
    · rw [← htail]
      exact .ok (by omega) (by omega)

/-- A position behind an ASCII byte. -/
def Behind (bytes : List UInt8) (start i : Nat) : Prop :=
  ∃ j b, start ≤ j ∧ i = j + 1 ∧ bytes[j]? = some b ∧ isAscii b

theorem readStringAt_agrees {fuel n : Nat} (hfuel : bytes.length - i < fuel)
    (hn : bytes.length - i < n) :
    Agrees bytes (Behind bytes i) (readStringAt bytes fuel i) (readString n (bytes.drop i)) := by
  induction fuel generalizing n i with
  | zero => exact absurd hfuel (Nat.not_lt_zero _)
  | succ fuel ih =>
    cases n with
    | zero => exact absurd hn (Nat.not_lt_zero _)
    | succ n =>
      cases hbs : bytes.drop i with
      | nil =>
        rw [readStringAt, getElem?_of_drop_nil hbs]
        exact .error
      | cons b bs =>
        obtain ⟨hbyte, htail, hlt⟩ := getElem?_of_drop hbs
        simp only [readStringAt, hbyte, readString]
        split
        · next hquote =>
          rw [← htail]
          exact .ok (by omega) ⟨i, b, le_rfl, rfl, hbyte, isAscii_of_asChar hquote (by decide)⟩
        · have hescaped := @readEscapedAt_agrees bytes i
          rw [hbs] at hescaped
          generalize readEscapedAt bytes i = x at hescaped
          generalize readEscaped (b :: bs) = y at hescaped
          cases hescaped with
          | error => exact .error
          | @ok value j hj hless =>
            have hrest := @ih j n (by omega) (by omega)
            simp only [bind, Except.bind]
            generalize readStringAt bytes fuel j = x at hrest
            generalize readString n (bytes.drop j) = y at hrest
            cases hrest with
            | error => exact .error
            | ok hk hbehind =>
              obtain ⟨k, b, hle, heq, hb⟩ := hbehind
              exact .ok hk ⟨k, b, by omega, heq, hb⟩

theorem charLiteralAt_agrees :
    Agrees bytes (Behind bytes i) (charLiteralAt bytes i) (charLiteral (bytes.drop i)) := by
  have hescaped := @readEscapedAt_agrees bytes i
  unfold charLiteralAt charLiteral
  generalize readEscapedAt bytes i = x at hescaped
  generalize readEscaped (bytes.drop i) = y at hescaped
  cases hescaped with
  | error => exact .error
  | @ok value j hj hless =>
    simp only [bind, Except.bind]
    cases hbs : bytes.drop j with
    | nil =>
      rw [getElem?_of_drop_nil hbs]
      exact .error
    | cons q bs =>
      obtain ⟨hbyte, htail, hlt⟩ := getElem?_of_drop hbs
      simp only [hbyte]
      split
      · next hquote =>
        rw [← htail]
        exact .ok (by omega) ⟨j, q, by omega, rfl, hbyte, isAscii_of_asChar hquote (by decide)⟩
      · exact .error

end Agreement

section Digits

variable {b : UInt8}

theorem isAscii_of_isIdentPart (h : isIdentPart b) : isAscii b := by
  simp only [isIdentPart, isAlphanumeric, isAlphabetic, isDigit, Bool.or_eq_true,
    Bool.and_eq_true, decide_eq_true_eq, beq_iff_eq, UInt8.le_iff_toNat_le] at h
  simp only [isAscii, decide_eq_true_eq, UInt8.lt_iff_toNat_lt]
  rcases h with h | rfl
  · grind
  · decide

theorem isAscii_of_isAlphanumeric (h : isAlphanumeric b) : isAscii b :=
  isAscii_of_isIdentPart (by simp [isIdentPart, h])

theorem isAscii_of_isDigit (h : isDigit b) : isAscii b :=
  isAscii_of_isAlphanumeric (by simp [isAlphanumeric, h])

theorem isAscii_of_hexValue (h : (hexValue b).isSome) : isAscii b := by
  unfold hexValue at h
  split at h
  · next hdigit => exact isAscii_of_isDigit hdigit
  · split at h
    · next hupper =>
      refine isAscii_of_isAlphanumeric ?_
      simp only [Bool.and_eq_true, decide_eq_true_eq, UInt8.le_iff_toNat_le] at hupper
      simp only [isAlphanumeric, isAlphabetic, Bool.or_eq_true, Bool.and_eq_true, decide_eq_true_eq,
        UInt8.le_iff_toNat_le]
      grind
    · split at h
      · next hlower =>
        refine isAscii_of_isAlphanumeric ?_
        simp only [Bool.and_eq_true, decide_eq_true_eq, UInt8.le_iff_toNat_le] at hlower
        simp only [isAlphanumeric, isAlphabetic, Bool.or_eq_true, Bool.and_eq_true,
          decide_eq_true_eq, UInt8.le_iff_toNat_le]
        grind
      · cases h

theorem asChar_ne_point (h : isDigit b) : asChar b ≠ '.' := by
  intro hpoint
  have hnat := congrArg Char.toNat hpoint
  rw [asChar_toNat] at hnat
  simp only [isDigit, Bool.and_eq_true, decide_eq_true_eq, UInt8.le_iff_toNat_le] at h
  have hnat : b.toNat = 46 := hnat
  have hlow : 48 ≤ b.toNat := h.1
  omega

theorem splitPoint_digits {ds : List UInt8} (h : ∀ d ∈ ds, isDigit d) :
    splitPoint ds = (ds.map asChar, []) := by
  have hall : ∀ c ∈ ds.map asChar, (decide (c ≠ '.')) = true := by
    intro c hc
    obtain ⟨d, hd, rfl⟩ := List.mem_map.mp hc
    exact decide_eq_true (asChar_ne_point (h d hd))
  simp only [splitPoint]
  rw [List.takeWhile_eq_self_iff.mpr hall, List.dropWhile_eq_nil_iff.mpr hall]
  rfl

theorem splitPoint_point {ds es : List UInt8} (h : ∀ d ∈ ds, isDigit d) (hb : asChar b = '.') :
    splitPoint (ds ++ b :: es) = (ds.map asChar, es.map asChar) := by
  have hall : ∀ c ∈ ds.map asChar, (decide (c ≠ '.')) = true := by
    intro c hc
    obtain ⟨d, hd, rfl⟩ := List.mem_map.mp hc
    exact decide_eq_true (asChar_ne_point (h d hd))
  simp only [splitPoint, List.map_append, List.map_cons]
  rw [List.takeWhile_append_of_pos hall, List.dropWhile_append_of_pos hall]
  simp [hb]

end Digits

section Literals

variable {src : String} {start i : Nat} {c : Char}

/-- The end of a token. -/
def TokenEnd (src : String) (start i : Nat) : Prop := start < i ∧ i ∈ boundaries src.toList

theorem hexLiteralAt_agrees (h : start + 2 ∈ boundaries src.toList)
    (hle : start + 2 ≤ (asBytes src).length) :
    Agrees (asBytes src) (TokenEnd src start) (hexLiteralAt src start c)
      (hexLiteral start c ((asBytes src).drop (start + 2))) := by
  have htest : ∀ b : UInt8, (hexValue b).isSome → isAscii b := fun _ => isAscii_of_hexValue
  simp only [hexLiteralAt, hexLiteral, slice_scanWhile htest h, bind, Except.bind]
  split
  · exact .error
  · rw [List.drop_drop]
    obtain ⟨hstart, hstop⟩ := @scanWhile_le (asBytes src) _ (fun b => (hexValue b).isSome) hle
    exact .ok hstop ⟨by omega, scanWhile_boundary htest h⟩

theorem suffixAt_agrees (h : i ∈ boundaries src.toList) (hle : i ≤ (asBytes src).length) :
    Agrees (asBytes src) (fun j => i ≤ j ∧ j ∈ boundaries src.toList) (suffixAt src i)
      (.ok (scanSuffix ((asBytes src).drop i))) := by
  have htest : ∀ b, isAlphanumeric b → isAscii b := fun _ => isAscii_of_isAlphanumeric
  cases hbs : (asBytes src).drop i with
  | nil =>
    simp only [suffixAt, getElem?_of_drop_nil hbs, scanSuffix]
    rw [← hbs]
    exact .ok hle ⟨le_rfl, h⟩
  | cons b bs =>
    obtain ⟨hbyte, htail, hlt⟩ := getElem?_of_drop hbs
    simp only [suffixAt, hbyte, Option.any_some, scanSuffix, decide_eq_true_eq]
    split
    · next hunderscore =>
      have hnext := (boundary_of_byte hbyte (isAscii_of_asChar hunderscore (by decide))).2
      simp only [slice_scanWhile htest hnext, htail, bind, Except.bind]
      cases hty : numericSuffixType (ofBytes (bs.takeWhile isAlphanumeric)) with
      | some ty =>
        simp only
        rw [← htail, ← drop_scanWhile]
        obtain ⟨hstart, hstop⟩ := @scanWhile_le (asBytes src) (i + 1) isAlphanumeric hlt
        exact .ok hstop ⟨by omega, scanWhile_boundary htest hnext⟩
      | none =>
        simp only
        rw [← hbs]
        exact .ok hle ⟨le_rfl, h⟩
    · rw [← hbs]
      exact .ok hle ⟨le_rfl, h⟩

/-- A number ends at a boundary, and its text is what the reading of the number takes. -/
theorem numberEnd_spec (h : start ∈ boundaries src.toList) (hle : start ≤ (asBytes src).length) :
    ∃ isFloat stop text whole fraction, numberEnd (asBytes src) start = (isFloat, stop) ∧
      slice src start stop = .ok text ∧ splitPoint text = (whole, fraction) ∧
      scanNumber ((asBytes src).drop start) =
        (whole, if isFloat then some fraction else none, (asBytes src).drop stop) ∧
      start ≤ stop ∧ stop ≤ (asBytes src).length ∧ stop ∈ boundaries src.toList := by
  have htest : ∀ b, isDigit b → isAscii b := fun _ => isAscii_of_isDigit
  obtain ⟨hk, hklen⟩ := @scanWhile_le (asBytes src) _ isDigit hle
  have hkboundary := scanWhile_boundary htest h
  have hdigits : ∀ d ∈ ((asBytes src).drop start).takeWhile isDigit, isDigit d :=
    fun d hd => List.mem_takeWhile_imp hd
  have hdrop := drop_scanWhile isDigit (asBytes src) start
  generalize hk' : scanWhile isDigit (asBytes src) start = k at hk hklen hkboundary hdrop
  have hslice := slice_scanWhile htest h
  rw [hk'] at hslice
  cases hbs : ((asBytes src).drop start).dropWhile isDigit with
  | nil =>
    have hend : (asBytes src)[k]? = none := getElem?_of_drop_nil (hdrop.trans hbs)
    refine ⟨false, k, _, _, _, ?_, hslice, splitPoint_digits hdigits, ?_, hk, hklen, hkboundary⟩
    · simp [numberEnd, hk', hend]
    · simp [scanNumber, hbs, decimalDigits, hdrop]
  | cons b bs =>
    obtain ⟨hbyte, htail, hlt⟩ := getElem?_of_drop (hdrop.trans hbs)
    by_cases hpoint : asChar b = '.'
    · have hnext := (boundary_of_byte hbyte (isAscii_of_asChar hpoint (by decide))).2
      obtain ⟨hm, hmlen⟩ := @scanWhile_le (asBytes src) (k + 1) isDigit hlt
      refine ⟨true, scanWhile isDigit (asBytes src) (k + 1),
        ((asBytes src).drop start).takeWhile isDigit ++ b :: bs.takeWhile isDigit, _, _, ?_, ?_,
        splitPoint_point hdigits hpoint, ?_, by omega, hmlen, scanWhile_boundary htest hnext⟩
      · simp [numberEnd, hk', hbyte, hpoint]
      · have hwhole : ((asBytes src).drop start).takeWhile isDigit ++ b :: bs =
            (asBytes src).drop start := by
          rw [← hbs, List.takeWhile_append_dropWhile]
        have hlength : scanWhile isDigit (asBytes src) (k + 1) - start =
            (((asBytes src).drop start).takeWhile isDigit ++ b :: bs.takeWhile isDigit).length := by
          rw [List.length_append, List.length_cons, scanWhile, htail, ← hk', scanWhile]
          omega
        rw [slice, if_pos ⟨by omega, h, scanWhile_boundary htest hnext⟩, hlength]
        have hrun : ((asBytes src).drop start).takeWhile isDigit ++ b :: bs.takeWhile isDigit <+:
            ((asBytes src).drop start).takeWhile isDigit ++ b :: bs :=
          (List.prefix_append_right_inj _).mpr
            (List.cons_prefix_cons.mpr ⟨rfl, List.takeWhile_prefix _⟩)
        rw [hwhole] at hrun
        rw [← List.prefix_iff_eq_take.mp hrun]
      · simp [scanNumber, hbs, hpoint, decimalDigits, drop_scanWhile, htail]
    · refine ⟨false, k, _, _, _, ?_, hslice, splitPoint_digits hdigits, ?_, hk, hklen, hkboundary⟩
      · simp [numberEnd, hk', hbyte, hpoint]
      · simp [scanNumber, hbs, hpoint, decimalDigits, hdrop]

theorem decimalLiteralAt_agrees {b : UInt8} (hbyte : (asBytes src)[start]? = some b)
    (hb : isDigit b) :
    Agrees (asBytes src) (TokenEnd src start) (decimalLiteralAt src start c)
      (decimalLiteral start c ((asBytes src).drop start)) := by
  have hlt : start < (asBytes src).length := (List.getElem?_eq_some_iff.mp hbyte).1
  have hstart := (boundary_of_byte hbyte (isAscii_of_isDigit hb)).1
  obtain ⟨isFloat, stop, text, whole, fraction, hend, hslice, hsplit, hnumber, hle, hstop,
    hboundary⟩ := numberEnd_spec hstart hlt.le
  have hless : start < stop := by
    cases hbs : (asBytes src).drop start with
    | nil => rw [getElem?_of_drop_nil hbs] at hbyte; cases hbyte
    | cons d bs =>
      rw [(getElem?_of_drop hbs).1] at hbyte
      obtain rfl := Option.some.inj hbyte
      have hshorter := scanNumber_length hb bs
      have hlength := congrArg List.length hbs
      rw [← hbs, hnumber] at hshorter
      simp only [List.length_drop, List.length_cons] at hshorter hlength
      omega
  have hsuffix := suffixAt_agrees hboundary hstop
  simp only [decimalLiteralAt, decimalLiteral, hend, hslice, hsplit, hnumber, bind, Except.bind]
  generalize scanSuffix ((asBytes src).drop stop) = y at hsuffix
  generalize suffixAt src stop = x at hsuffix
  cases hsuffix with
  | @ok ty i hi hends =>
    have hends : TokenEnd src start i := ⟨hless.trans_le hends.1, hends.2⟩
    cases isFloat <;> cases ty <;> simp only [if_true, Bool.false_eq_true, if_false]
    · cases intLiteral start c whole with
      | error e => exact .error
      | ok n => exact .ok hi hends
    · cases intLiteral start c whole with
      | error e => exact .error
      | ok n => exact .ok hi hends
    · exact .ok hi hends
    · exact .ok hi hends

/-- A token of a symbol takes one byte, or two of them in ASCII. -/
theorem symbol_size {next : Option Char} {t : Tok} {size : Nat} (h : symbol c next = some (t, size)) :
    size = 1 ∨ size = 2 ∧ ∃ d, next = some d ∧ d.toNat < 128 := by
  unfold symbol at h
  split at h <;> cases h <;> simp

theorem tokenEnd_of_behind (h : Behind (asBytes src) (start + 1) i) : TokenEnd src start i := by
  obtain ⟨j, b, hle, rfl, hbyte, hb⟩ := h
  exact ⟨by omega, (boundary_of_byte hbyte hb).2⟩

theorem Agrees.mono {α : Type} {bytes : List UInt8} {P Q : Nat → Prop} {x : Scan (α × Nat)}
    {y : Except ParseError (α × List UInt8)} (hPQ : ∀ i, P i → Q i) (h : Agrees bytes P x y) :
    Agrees bytes Q x y := by
  cases h with
  | ok hi hP => exact .ok hi (hPQ _ hP)
  | error => exact .error

/-- A token is scanned as it is read, and ends at a boundary. -/
theorem lexemeAt_agrees {b : UInt8} {bs : List UInt8} (hbs : (asBytes src).drop i = b :: bs)
    (hascii : isAscii b) :
    Agrees (asBytes src) (TokenEnd src i) (lexemeAt src i b) (lexeme i b bs) := by
  obtain ⟨hbyte, htail, hlt⟩ := getElem?_of_drop hbs
  obtain ⟨hstart, hnext⟩ := boundary_of_byte hbyte hascii
  have hhead : bs.head? = (asBytes src)[i + 1]? := by rw [← htail, List.head?_drop]
  unfold lexemeAt lexeme
  simp only [hhead]
  cases hsymbol : symbol (asChar b) ((asBytes src)[i + 1]?.map asChar) with
  | some found =>
    obtain ⟨t, size⟩ := found
    rcases symbol_size hsymbol with rfl | ⟨rfl, d, hd, hlow⟩
    · simp only [Nat.sub_self, List.drop_zero, ← htail]
      exact .ok hlt ⟨Nat.lt_succ_self i, hnext⟩
    · obtain ⟨b', hbyte', hd⟩ := Option.map_eq_some_iff.mp hd
      have hlt' : i + 1 < (asBytes src).length := (List.getElem?_eq_some_iff.mp hbyte').1
      have hstop := (boundary_of_byte hbyte' (isAscii_of_asChar hd hlow)).2
      simp only [← htail, List.drop_drop]
      exact .ok hlt' ⟨by omega, hstop⟩
  | none =>
    simp only
    split
    · rw [← htail]
      exact charLiteralAt_agrees.mono fun _ => tokenEnd_of_behind
    split
    · have hlength := congrArg List.length htail
      rw [List.length_drop] at hlength
      have hstring := @readStringAt_agrees (asBytes src) (i + 1) ((asBytes src).length + 1)
        (bs.length + 1) (by omega) (by omega)
      rw [htail] at hstring
      generalize readStringAt (asBytes src) ((asBytes src).length + 1) (i + 1) = x at hstring
      generalize readString (bs.length + 1) bs = y at hstring
      cases hstring with
      | error => exact .error
      | ok hj hbehind => exact .ok hj (tokenEnd_of_behind hbehind)
    split
    · next hdigit =>
      split
      · next hhex =>
        obtain ⟨x, hbyte', hx⟩ : ∃ x, (asBytes src)[i + 1]? = some x ∧ isAscii x := by
          rcases hhex.2 with hx | hx
          · exact ⟨_, hx, by decide⟩
          · exact ⟨_, hx, by decide⟩
        have hlt' : i + 1 < (asBytes src).length := (List.getElem?_eq_some_iff.mp hbyte').1
        have htail' : bs.tail = (asBytes src).drop (i + 2) := by rw [← htail, List.tail_drop]
        rw [htail']
        exact hexLiteralAt_agrees (boundary_of_byte hbyte' hx).2 hlt'
      · rw [← hbs]
        exact decimalLiteralAt_agrees hbyte hdigit
    split
    · next hident =>
      have htest : ∀ b, isIdentPart b → isAscii b := fun _ => isAscii_of_isIdentPart
      have hpart : isIdentPart b := by
        rw [isIdentStart, Bool.or_eq_true] at hident
        rw [isIdentPart, isAlphanumeric, Bool.or_eq_true, Bool.or_eq_true]
        exact hident.imp_left .inl
      have hname := slice_scanWhile htest hstart
      rw [hbs, List.takeWhile_cons_of_pos hpart] at hname
      obtain ⟨hmore, hstop⟩ := @scanWhile_le (asBytes src) (i + 1) isIdentPart hlt
      simp only [hname, bind, Except.bind]
      rw [← htail, ← drop_scanWhile, scanWhile_pos hbs hpart]
      exact .ok hstop ⟨hmore, scanWhile_boundary htest hnext⟩
    · exact .error

end Literals

section Spans

variable (src : String)

/-- Tokens from a position on take bytes in order, one behind the other, and each of them whole
characters. -/
def InOrder : Nat → List Spanned → Prop
  | _, [] => True
  | i, t :: ts => i ≤ t.start ∧ t.start < t.stop ∧ t.start ∈ boundaries src.toList ∧
    t.stop ∈ boundaries src.toList ∧ t.stop ≤ (asBytes src).length ∧ InOrder t.stop ts

/-- The scan of a text comes to the tokens or to the error of reading it. -/
inductive Scanned (i : Nat) : Scan (List Spanned) → Except ParseError (List Tok) → Prop
  | ok {spans : List Spanned} : InOrder src i spans →
    Scanned i (.ok spans) (.ok (spans.map (·.tok)))
  | error {e : ParseError} : Scanned i (.error (.error e)) (.error e)

variable {src} {i : Nat}

theorem InOrder.mono {j : Nat} {ts : List Spanned} (h : InOrder src j ts) (hij : i ≤ j) :
    InOrder src i ts := by
  cases ts with
  | nil => trivial
  | cons t ts => exact ⟨hij.trans h.1, h.2⟩

theorem Scanned.mono {j : Nat} {x : Scan (List Spanned)} {y : Except ParseError (List Tok)}
    (h : Scanned src j x y) (hij : i ≤ j) : Scanned src i x y := by
  cases h with
  | ok h => exact .ok (h.mono hij)
  | error => exact .error

theorem tokenizeAt_scanned {fuel : Nat} (hfuel : (asBytes src).length - i ≤ fuel)
    (hle : i ≤ (asBytes src).length) (h : i ∈ boundaries src.toList) :
    Scanned src i (tokenizeAt src fuel i)
      (lex (asBytes src).length ((asBytes src).drop i)) := by
  induction fuel generalizing i with
  | zero =>
    have hnil : (asBytes src).drop i = [] := List.drop_eq_nil_iff.mpr (by omega)
    rw [tokenizeAt, getElem?_of_drop_nil hnil, hnil, lex_nil]
    exact .ok trivial
  | succ fuel ih =>
    cases hbs : (asBytes src).drop i with
    | nil =>
      rw [tokenizeAt, getElem?_of_drop_nil hbs, lex_nil]
      exact .ok trivial
    | cons b bs =>
      obtain ⟨hbyte, htail, hlt⟩ := getElem?_of_drop hbs
      have hlength := congrArg List.length htail
      rw [List.length_drop] at hlength
      have hpos : (asBytes src).length - (bs.length + 1) = i := by omega
      rw [tokenizeAt, hbyte, lex, List.length_cons, tokenizeN, hpos]
      simp only
      split
      · have hend : (asBytes src).length ∈ boundaries src.toList := length_boundary _
        have hslice : slice src i (asBytes src).length = .ok (b :: bs) := by
          rw [slice, if_pos ⟨hle, h, hend⟩, List.take_of_length_le (by simp), hbs]
        rw [hslice]
        exact .error
      · next hascii =>
        have hascii : isAscii b := by simpa using hascii
        obtain ⟨-, hnext⟩ := boundary_of_byte hbyte hascii
        split
        · have hrest := @ih (i + 1) (by omega) hlt hnext
          rw [htail, lex] at hrest
          exact hrest.mono (Nat.le_succ i)
        · have hlexeme := lexemeAt_agrees hbs hascii
          generalize lexemeAt src i b = x at hlexeme
          generalize lexeme i b bs = y at hlexeme
          cases hlexeme with
          | error => exact .error
          | @ok t j hj hends =>
            have hrest := @ih j (by have := hends.1; omega) hj hends.2
            have hbound : tokenizeN (asBytes src).length bs.length ((asBytes src).drop j) =
                lex (asBytes src).length ((asBytes src).drop j) := by
              refine tokenizeN_bound _ _ _ _ ?_ le_rfl
              have := hends.1
              rw [List.length_drop]
              omega
            simp only [bind, Except.bind, hbound]
            generalize tokenizeAt src fuel j = x at hrest
            generalize lex (asBytes src).length ((asBytes src).drop j) = y at hrest
            cases hrest with
            | error => exact .error
            | @ok spans horder =>
              exact @Scanned.ok src i (⟨t, i, j⟩ :: spans) ⟨le_rfl, hends.1, h, hends.2, hj, horder⟩

/-- Scanning a text never panics and never runs out of fuel. -/
theorem scan_scanned (src : String) : Scanned src 0 (scan src) (tokenize src) := by
  have hscanned := @tokenizeAt_scanned src 0 (asBytes src).length (by omega) (Nat.zero_le _)
    (zero_boundary _)
  rwa [List.drop_zero] at hscanned

end Spans

end OpenLustre.Stdlib
