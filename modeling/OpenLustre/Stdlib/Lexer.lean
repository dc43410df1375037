import OpenLustre.Ir.Expr
import OpenLustre.Lib.Decimal
import OpenLustre.Lib.Stateful

/-! The tokenizer of the textual surface syntax. -/

namespace OpenLustre.Stdlib

open OpenLustre.Ir

inductive ParseError
  | badChar (c : Char) (byte : Nat)
  | unexpectedEof
  | expected (expected found : String)
  | trailing (rest : String)
  deriving DecidableEq, Repr

/-- Tokens.  A string literal keeps its payload bytes: those of a valid text
decode without a loss. -/
inductive Tok
  | ident (name : String)
  | int (n : Int)
  | float (f : F64)
  | arrow
  | fatArrow
  | le
  | ge
  | ne
  | lt
  | gt
  | eq
  | plus
  | minus
  | star
  | slash
  | amp
  | pipe
  | caret
  | shl
  | shr
  | lParen
  | rParen
  | lBracket
  | rBracket
  | lBrace
  | rBrace
  | comma
  | semi
  | colon
  | dot
  | charLit (b : UInt8)
  | str (s : List UInt8)
  | typedInt (n : Int) (ty : Ty)
  | typedFloat (f : F64) (ty : Ty)
  deriving DecidableEq, Repr

def asBytes (s : String) : List UInt8 := s.toList.flatMap String.utf8EncodeChar

def asChar (b : UInt8) : Char := Char.ofNat b.toNat

/-- The text of ASCII bytes. -/
def ofBytes (bs : List UInt8) : String := String.ofList (bs.map asChar)

/-- The character a valid text has at the front of its bytes. -/
def firstChar (bs : List UInt8) : Char :=
  (ByteArray.utf8DecodeChar? ⟨bs.toArray⟩ 0).getD '\uFFFD'

/-- Decode a text, with a replacement for each byte that starts no character. -/
def fromUtf8Lossy : Nat → List UInt8 → List Char
  | 0, _ | _, [] => []
  | n + 1, b :: bs =>
    let c := firstChar (b :: bs)
    let size := if (ByteArray.utf8DecodeChar? ⟨(b :: bs).toArray⟩ 0).isSome then c.utf8Size else 1
    c :: fromUtf8Lossy n ((b :: bs).drop size)

/-- The name of a type in a Lustre text, which has one type for all integers. -/
def lustreName : Ty → String
  | .bool => "bool"
  | .int8 | .int16 | .int32 | .int64 | .uint8 | .uint16 | .uint32 | .uint64 => "int"
  | .float32 | .float64 => "real"
  | .char => "int"
  | .array elem len => lustreName elem ++ "^" ++ toString len
  | .named name => name

namespace Tok

def describe : Tok → String
  | .ident s => s
  | .int n => toString n
  | .float f => f.display
  | .arrow => "->"
  | .fatArrow => "=>"
  | .le => "<="
  | .ge => ">="
  | .ne => "<>"
  | .lt => "<"
  | .gt => ">"
  | .eq => "="
  | .plus => "+"
  | .minus => "-"
  | .star => "*"
  | .slash => "/"
  | .amp => "&"
  | .pipe => "|"
  | .caret => "^"
  | .shl => "<<"
  | .shr => ">>"
  | .lParen => "("
  | .rParen => ")"
  | .lBracket => "["
  | .rBracket => "]"
  | .lBrace => "\x7b"
  | .rBrace => "\x7d"
  | .comma => ","
  | .semi => ";"
  | .colon => ":"
  | .dot => "."
  | .charLit b => "'" ++ toString (asChar b) ++ "'"
  | .str s => "\"" ++ String.ofList (fromUtf8Lossy s.length s) ++ "\""
  | .typedInt n ty => toString n ++ "_" ++ lustreName ty
  | .typedFloat f ty => f.display ++ "_" ++ lustreName ty

end Tok

/-- A numeric type suffix on a literal. -/
def numericSuffixType : String → Option Ty
  | "i8" => some .int8
  | "i16" => some .int16
  | "i32" => some .int32
  | "i64" => some .int64
  | "u8" => some .uint8
  | "u16" => some .uint16
  | "u32" => some .uint32
  | "u64" => some .uint64
  | "f32" => some .float32
  | "f64" => some .float64
  | _ => none

def isAscii (b : UInt8) : Bool := b < 128
def isWhitespace (b : UInt8) : Bool := b == 32 || (9 ≤ b && b ≤ 13)
def isDigit (b : UInt8) : Bool := 48 ≤ b && b ≤ 57
def isAlphabetic (b : UInt8) : Bool := (65 ≤ b && b ≤ 90) || (97 ≤ b && b ≤ 122)
def isAlphanumeric (b : UInt8) : Bool := isAlphabetic b || isDigit b
def isIdentStart (b : UInt8) : Bool := isAlphabetic b || b == 95
def isIdentPart (b : UInt8) : Bool := isAlphanumeric b || b == 95

/-- The byte that an escaped byte stands for. -/
def unescape (e : UInt8) : UInt8 :=
  match asChar e with
  | 'n' => 10
  | 't' => 9
  | 'r' => 13
  | '0' => 0
  | _ => e

/-- Read one, possibly backslash-escaped, byte inside a quoted literal. -/
def readEscaped : List UInt8 → Except ParseError (UInt8 × List UInt8)
  | [] => .error .unexpectedEof
  | b :: bs =>
    if asChar b = '\\' then
      match bs with
      | [] => .error .unexpectedEof
      | e :: bs => .ok (unescape e, bs)
    else .ok (b, bs)

/-- The payload of a string literal, whose opening quote is behind. -/
def readString : Nat → List UInt8 → Except ParseError (List UInt8 × List UInt8)
  | _, [] | 0, _ => .error .unexpectedEof
  | n + 1, b :: bs =>
    if asChar b = '"' then .ok ([], bs)
    else do
      let (value, bs) ← readEscaped (b :: bs)
      let (s, bs) ← readString n bs
      .ok (value :: s, bs)

/-- Punctuation and operators, with the number of bytes they take. -/
def symbol (c : Char) (next : Option Char) : Option (Tok × Nat) :=
  match c, next with
  | '(', _ => some (.lParen, 1)
  | ')', _ => some (.rParen, 1)
  | '[', _ => some (.lBracket, 1)
  | ']', _ => some (.rBracket, 1)
  | '\x7b', _ => some (.lBrace, 1)
  | '\x7d', _ => some (.rBrace, 1)
  | ';', _ => some (.semi, 1)
  | ':', _ => some (.colon, 1)
  | ',', _ => some (.comma, 1)
  | '.', _ => some (.dot, 1)
  | '+', _ => some (.plus, 1)
  | '*', _ => some (.star, 1)
  | '/', _ => some (.slash, 1)
  | '-', some '>' => some (.arrow, 2)
  | '-', _ => some (.minus, 1)
  | '=', some '>' => some (.fatArrow, 2)
  | '=', _ => some (.eq, 1)
  | '<', some '=' => some (.le, 2)
  | '<', some '>' => some (.ne, 2)
  | '<', some '<' => some (.shl, 2)
  | '<', _ => some (.lt, 1)
  | '>', some '=' => some (.ge, 2)
  | '>', some '>' => some (.shr, 2)
  | '>', _ => some (.gt, 1)
  | '&', _ => some (.amp, 1)
  | '|', _ => some (.pipe, 1)
  | '^', _ => some (.caret, 1)
  | _, _ => none

def hexValue (b : UInt8) : Option Nat :=
  if isDigit b then some (b.toNat - 48)
  else if 65 ≤ b && b ≤ 70 then some (b.toNat - 55)
  else if 97 ≤ b && b ≤ 102 then some (b.toNat - 87)
  else none

def i64Max : Nat := 2 ^ 63 - 1

/-- `0x…`, after the prefix. -/
def hexLiteral (start : Nat) (c : Char) (bs : List UInt8) :
    Except ParseError (Tok × List UInt8) :=
  let digits := bs.takeWhile fun b => (hexValue b).isSome
  let n := (digits.filterMap hexValue).foldl (fun n d => 16 * n + d) 0
  if digits.isEmpty || i64Max < n then .error (.badChar c start)
  else .ok (.int n, bs.drop digits.length)

def decimalDigits (bs : List UInt8) : List Char := (bs.takeWhile isDigit).map asChar

/-- The digits of a number, those after its point if it has one, and what follows. -/
def scanNumber (bs : List UInt8) : List Char × Option (List Char) × List UInt8 :=
  match bs.dropWhile isDigit with
  | [] => (decimalDigits bs, none, [])
  | b :: rest =>
    if asChar b = '.' then
      (decimalDigits bs, some (decimalDigits rest), rest.dropWhile isDigit)
    else (decimalDigits bs, none, b :: rest)

/-- The type suffix of a literal.  A word that is no suffix is left in place. -/
def scanSuffix : List UInt8 → Option Ty × List UInt8
  | [] => (none, [])
  | b :: bs =>
    if asChar b = '_' then
      match numericSuffixType (ofBytes (bs.takeWhile isAlphanumeric)) with
      | some ty => (some ty, bs.dropWhile isAlphanumeric)
      | none => (none, b :: bs)
    else (none, b :: bs)

/-- An integer literal, if it fits. -/
def intLiteral (start : Nat) (c : Char) (digits : List Char) : Except ParseError Int :=
  let n := Nat.ofDigitChars 10 digits 0
  if n ≤ i64Max then .ok n else .error (.badChar c start)

def floatLiteral (whole fraction : List Char) : F64 :=
  Ieee.Decimal.read .binary64 ⟨Nat.ofDigitChars 10 (whole ++ fraction) 0, fraction.length⟩

/-- An integer or floating-point literal and its type suffix. -/
def decimalLiteral (start : Nat) (c : Char) (bs : List UInt8) :
    Except ParseError (Tok × List UInt8) :=
  let (whole, fraction, rest) := scanNumber bs
  let (suffixTy, rest) := scanSuffix rest
  match fraction, suffixTy with
  | some fraction, some ty => .ok (.typedFloat (floatLiteral whole fraction) ty, rest)
  | none, some ty => (intLiteral start c whole).map fun n => (.typedInt n ty, rest)
  | some fraction, none => .ok (.float (floatLiteral whole fraction), rest)
  | none, none => (intLiteral start c whole).map fun n => (.int n, rest)

/-- A character literal, whose opening quote is behind. -/
def charLiteral (bs : List UInt8) : Except ParseError (Tok × List UInt8) := do
  let (value, bs) ← readEscaped bs
  match bs with
  | [] => .error (.expected "closing ' for a character literal" "<eof>")
  | q :: bs =>
    if asChar q = '\'' then .ok (.charLit value, bs)
    else .error (.expected "closing ' for a character literal" (toString (asChar q)))

/-- The token that starts with byte `b`, at offset `start`. -/
def lexeme (start : Nat) (b : UInt8) (bs : List UInt8) : Except ParseError (Tok × List UInt8) :=
  let c := asChar b
  match symbol c (bs.head?.map asChar) with
  | some (t, size) => .ok (t, bs.drop (size - 1))
  | none =>
    if c = '\'' then charLiteral bs
    else if c = '"' then (readString (bs.length + 1) bs).map fun x => (.str x.1, x.2)
    else if isDigit b then
      if c = '0' ∧ (bs.head? = some 120 ∨ bs.head? = some 88) then hexLiteral start c bs.tail
      else decimalLiteral start c (b :: bs)
    else if isIdentStart b then
      .ok (.ident (ofBytes (b :: bs.takeWhile isIdentPart)), bs.dropWhile isIdentPart)
    else .error (.badChar c start)

/-- The tokens of the last `bs` of `total` bytes.  Every round takes a byte. -/
def tokenizeN (total : Nat) : Nat → List UInt8 → Except ParseError (List Tok)
  | _, [] | 0, _ => .ok []
  | n + 1, b :: bs =>
    let start := total - (bs.length + 1)
    if !isAscii b then .error (.badChar (firstChar (b :: bs)) start)
    else if isWhitespace b then tokenizeN total n bs
    else do
      let (t, rest) ← lexeme start b bs
      let ts ← tokenizeN total n rest
      .ok (t :: ts)

def tokenize (src : String) : Except ParseError (List Tok) :=
  let bytes := asBytes src
  tokenizeN bytes.length bytes.length bytes

theorem readEscaped_length {bs rest : List UInt8} {value : UInt8}
    (h : readEscaped bs = .ok (value, rest)) : rest.length < bs.length := by
  unfold readEscaped at h
  grind

theorem readString_length : ∀ {n bs s rest},
    readString n bs = .ok (s, rest) → rest.length < bs.length
  | 0, bs, s, rest, h => by cases bs <;> cases h
  | n + 1, [], s, rest, h => nomatch h
  | n + 1, b :: bs, s, rest, h => by
    unfold readString at h
    split at h
    · cases h
      simp
    · obtain ⟨⟨value, mid⟩, hvalue, h⟩ := Except.bind_eq_ok.mp h
      obtain ⟨⟨s', rest'⟩, hs, h⟩ := Except.bind_eq_ok.mp h
      cases h
      exact (readString_length hs).trans (readEscaped_length hvalue)

theorem length_dropWhile_le (p : UInt8 → Bool) (bs : List UInt8) :
    (bs.dropWhile p).length ≤ bs.length :=
  (List.dropWhile_sublist p).length_le

theorem scanNumber_length {b : UInt8} (hb : isDigit b) (bs : List UInt8) :
    (scanNumber (b :: bs)).2.2.length ≤ bs.length := by
  have hdrop := length_dropWhile_le isDigit bs
  rw [← List.dropWhile_cons_of_pos (l := bs) hb] at hdrop
  unfold scanNumber
  split
  · simp
  · next b' rest heq =>
    rw [heq, List.length_cons] at hdrop
    split
    · exact (length_dropWhile_le _ _).trans (by omega)
    · simpa using hdrop

theorem scanSuffix_length (bs : List UInt8) : (scanSuffix bs).2.length ≤ bs.length := by
  unfold scanSuffix
  split
  · simp
  · next b bs =>
    split
    · split
      · exact (length_dropWhile_le _ _).trans (by simp)
      · exact le_rfl
    · exact le_rfl

theorem decimalLiteral_length {start : Nat} {c : Char} {bs rest : List UInt8} {t : Tok}
    (h : decimalLiteral start c bs = .ok (t, rest)) :
    rest = (scanSuffix (scanNumber bs).2.2).2 := by
  unfold decimalLiteral at h
  simp only at h
  split at h
  · cases h
    rfl
  · obtain ⟨n, -, h⟩ := Except.map_eq_ok.mp h
    cases h
    rfl
  · cases h
    rfl
  · obtain ⟨n, -, h⟩ := Except.map_eq_ok.mp h
    cases h
    rfl

theorem charLiteral_length {bs rest : List UInt8} {t : Tok} (h : charLiteral bs = .ok (t, rest)) :
    rest.length ≤ bs.length := by
  obtain ⟨⟨value, mid⟩, hvalue, h⟩ := Except.bind_eq_ok.mp h
  have hlt := readEscaped_length hvalue
  cases mid with
  | nil => cases h
  | cons q mid =>
    simp only [List.length_cons] at h hlt
    split at h
    · cases h
      omega
    · cases h

theorem hexLiteral_length {start : Nat} {c : Char} {bs rest : List UInt8} {t : Tok}
    (h : hexLiteral start c bs = .ok (t, rest)) : rest.length ≤ bs.length := by
  unfold hexLiteral at h
  simp only at h
  split at h
  · cases h
  · cases h
    simp

theorem lexeme_length {start : Nat} {b : UInt8} {bs rest : List UInt8} {t : Tok}
    (h : lexeme start b bs = .ok (t, rest)) : rest.length ≤ bs.length := by
  unfold lexeme at h
  cases hs : symbol (asChar b) (bs.head?.map asChar) with
  | some x =>
    simp only [hs] at h
    cases h
    simp
  | none =>
    simp only [hs] at h
    split_ifs at h with hc hstr hdigit hhex hident
    · exact charLiteral_length h
    · obtain ⟨x, hx, h⟩ := Except.map_eq_ok.mp h
      cases h
      exact (readString_length hx).le
    · exact (hexLiteral_length h).trans (by simp)
    · rw [decimalLiteral_length h]
      exact (scanSuffix_length _).trans (scanNumber_length hdigit bs)
    · cases h
      exact length_dropWhile_le _ _

theorem tokenizeN_bound (total : Nat) : ∀ n m bs, bs.length ≤ n → bs.length ≤ m →
    tokenizeN total n bs = tokenizeN total m bs
  | n, m, [], _, _ => by simp [tokenizeN]
  | 0, _, _ :: _, hn, _ => absurd hn (Nat.not_succ_le_zero _)
  | _, 0, _ :: _, _, hm => absurd hm (Nat.not_succ_le_zero _)
  | n + 1, m + 1, b :: bs, hn, hm => by
    simp only [List.length_cons] at hn hm
    simp only [tokenizeN]
    split
    · rfl
    split
    · exact tokenizeN_bound total n m bs (by omega) (by omega)
    · cases hlex : lexeme (total - (bs.length + 1)) b bs with
      | error e => rfl
      | ok x =>
        have hle := lexeme_length hlex
        simp only [bind, Except.bind, tokenizeN_bound total n m x.2 (by omega) (by omega)]

/-- The tokens of the last bytes of a text of `total` bytes. -/
def lex (total : Nat) (bs : List UInt8) : Except ParseError (List Tok) :=
  tokenizeN total bs.length bs

theorem tokenize_eq (src : String) : tokenize src = lex (asBytes src).length (asBytes src) := rfl

section Lex

variable {total : Nat} {b : UInt8} {bs rest : List UInt8} {t : Tok}

@[simp] theorem lex_nil : lex total [] = .ok [] := by
  simp [lex, tokenizeN]

theorem lex_space (hascii : isAscii b) (hb : isWhitespace b) : lex total (b :: bs) = lex total bs := by
  simp [lex, tokenizeN, hascii, hb]

theorem lex_token (hascii : isAscii b) (hb : ¬ isWhitespace b)
    (h : ∀ start, lexeme start b bs = .ok (t, rest)) :
    lex total (b :: bs) = (lex total rest).map (t :: ·) := by
  have hle := lexeme_length (h 0)
  rw [lex, lex, tokenizeN_bound total rest.length bs.length rest le_rfl hle]
  simp only [List.length_cons, tokenizeN, hascii, hb, h]
  rfl

theorem lex_error {e : Nat → ParseError} (hascii : isAscii b) (hb : ¬ isWhitespace b)
    (h : ∀ start, lexeme start b bs = .error (e start)) :
    lex total (b :: bs) = .error (e (total - (bs.length + 1))) := by
  simp only [lex, List.length_cons, tokenizeN, hascii, hb, h]
  rfl

end Lex

end OpenLustre.Stdlib
