import OpenLustre.LustreEmit.Reading

/-! The tokenizer on printed expressions. -/

namespace OpenLustre.LustreEmit

open OpenLustre.Ir OpenLustre.Stdlib

section Bytes

/-- The byte of an ASCII character. -/
def toByte (c : Char) : UInt8 := UInt8.ofNat c.toNat

@[simp] theorem asBytes_append (s t : String) : asBytes (s ++ t) = asBytes s ++ asBytes t := by
  simp [asBytes]

theorem utf8EncodeChar_ascii {c : Char} (h : c.toNat < 128) :
    String.utf8EncodeChar c = [toByte c] := by
  have h' : c.val.toNat ≤ 127 := Nat.lt_succ_iff.mp h
  rw [String.utf8EncodeChar]
  simp only [h', if_true]
  rfl

theorem asChar_toByte {c : Char} (h : c.toNat < 128) : asChar (toByte c) = c := by
  have h' : c.toNat % 256 = c.toNat := Nat.mod_eq_of_lt (by omega)
  simp [asChar, toByte, h']

theorem asBytes_ofList {l : List Char} (h : ∀ c ∈ l, c.toNat < 128) :
    asBytes (String.ofList l) = l.map toByte := by
  simp only [asBytes, String.toList_ofList]
  induction l with
  | nil => rfl
  | cons c l ih =>
    rw [List.forall_mem_cons] at h
    rw [List.flatMap_cons, utf8EncodeChar_ascii h.1, ih h.2]
    rfl

/-- A fact about every byte, from its 256 cases. -/
theorem forall_byte {P : UInt8 → Prop} (h : ∀ n : Fin 256, P (UInt8.ofNat n)) (b : UInt8) : P b := by
  simpa using h ⟨b.toNat, b.toNat_lt⟩

/-- The characters that start or continue punctuation. -/
def symbolChars : List Char :=
  ['(', ')', '[', ']', '\x7b', '\x7d', ';', ':', ',', '.', '+', '*', '/', '-', '=', '<', '>', '&',
    '|', '^']

theorem symbol_eq_none {c : Char} (h : c ∉ symbolChars) (next : Option Char) :
    symbol c next = none := by
  unfold symbol
  split <;> first | rfl | exact absurd (by decide) h

theorem byte_cases : ∀ b : UInt8,
    (toByte (asChar b) = b ∧ (asChar b).toNat = b.toNat) ∧
    (isIdentPart b → isAscii b ∧ ¬ isWhitespace b ∧ asChar b ∉ symbolChars ∧ asChar b ≠ '\'' ∧
      asChar b ≠ '"') ∧
    (isIdentStart b → isIdentPart b ∧ ¬ isDigit b) ∧
    (isDigit b → isIdentPart b ∧ asChar b ≠ '.' ∧ asChar b ≠ '_') :=
  forall_byte (by decide +kernel)

theorem toByte_asChar (b : UInt8) : toByte (asChar b) = b := (byte_cases b).1.1

theorem toNat_asChar (b : UInt8) : (asChar b).toNat = b.toNat := (byte_cases b).1.2

theorem identPart_byte (b : UInt8) : isIdentPart b →
    isAscii b ∧ ¬ isWhitespace b ∧ asChar b ∉ symbolChars ∧ asChar b ≠ '\'' ∧ asChar b ≠ '"' :=
  (byte_cases b).2.1

theorem identStart_byte (b : UInt8) : isIdentStart b → isIdentPart b ∧ ¬ isDigit b :=
  (byte_cases b).2.2.1

theorem digit_byte (b : UInt8) : isDigit b → isIdentPart b ∧ asChar b ≠ '.' ∧ asChar b ≠ '_' :=
  (byte_cases b).2.2.2

theorem digit_char {c : Char} (h : c.isDigit) : c.toNat < 128 ∧ isDigit (toByte c) := by
  have hc : 48 ≤ c.toNat ∧ c.toNat ≤ 57 := by
    simpa [Char.isDigit, UInt32.le_iff_toNat_le] using h
  refine ⟨by omega, ?_⟩
  have : (toByte c).toNat = c.toNat := by
    simp only [toByte, UInt8.toNat_ofNat']
    omega
  simp only [isDigit, UInt8.le_iff_toNat_le, this, Bool.and_eq_true, decide_eq_true_eq]
  exact hc

end Bytes

section Lexing

/-- No identifier or number goes on in `bs`. -/
def Apart (bs : List UInt8) : Prop := ∀ b ∈ bs.head?, ¬ isIdentPart b

/-- Nor does a number go on with a point. -/
def NoPoint (bs : List UInt8) : Prop := ∀ b ∈ bs.head?, b ≠ 46

def prepend (ts : List Tok) (r : Except ParseError (List Tok)) : Except ParseError (List Tok) :=
  r.map (ts ++ ·)

theorem prepend_prepend (ts ts' : List Tok) (r : Except ParseError (List Tok)) :
    prepend ts (prepend ts' r) = prepend (ts ++ ts') r := by
  cases r <;> simp [prepend, Except.map]

@[simp] theorem prepend_nil (r : Except ParseError (List Tok)) : prepend [] r = r := by
  cases r <;> rfl

variable {total : Nat} {rest : List UInt8}

theorem lex_cons {b : UInt8} {bs rest : List UInt8} {t : Tok} (hascii : isAscii b)
    (hb : ¬ isWhitespace b) (h : ∀ start, lexeme start b bs = .ok (t, rest)) :
    lex total (b :: bs) = prepend [t] (lex total rest) :=
  lex_token hascii hb h

@[simp] theorem lex_blank : lex total (32 :: rest) = lex total rest :=
  lex_space rfl rfl

theorem takeWhile_append_apart {p : UInt8 → Bool} {bs : List UInt8} (hbs : ∀ x ∈ bs, p x)
    (hrest : ∀ b ∈ rest.head?, ¬ p b) :
    (bs ++ rest).takeWhile p = bs ∧ (bs ++ rest).dropWhile p = rest := by
  induction bs with
  | nil =>
    cases rest with
    | nil => simp
    | cons b rest => simp [hrest b rfl]
  | cons x bs ih =>
    rw [List.forall_mem_cons] at hbs
    simp [hbs.1, ih hbs.2]

theorem lex_identifier {b : UInt8} {bs : List UInt8} (hb : isIdentStart b)
    (hbs : ∀ x ∈ bs, isIdentPart x) (hrest : Apart rest) :
    lex total (b :: (bs ++ rest)) = prepend [.ident (ofBytes (b :: bs))] (lex total rest) := by
  obtain ⟨hpart, hdigit⟩ := identStart_byte b hb
  obtain ⟨hascii, hspace, hsym, hquote, hstring⟩ := identPart_byte b hpart
  obtain ⟨htake, hdrop⟩ := takeWhile_append_apart hbs hrest
  apply lex_cons hascii hspace
  intro start
  simp only [lexeme, symbol_eq_none hsym, hquote, hstring, hdigit, hb, htake, hdrop, if_false,
    if_true, Bool.false_eq_true]

theorem asBytes_ofBytes {bs : List UInt8} (h : ∀ b ∈ bs, isAscii b) : asBytes (ofBytes bs) = bs := by
  rw [ofBytes, asBytes_ofList]
  · rw [List.map_map, show toByte ∘ asChar = id from funext toByte_asChar, List.map_id]
  · intro c hc
    obtain ⟨b, hb, rfl⟩ := List.mem_map.mp hc
    rw [toNat_asChar]
    simpa [isAscii, UInt8.lt_iff_toNat_lt] using h b hb

theorem word_bytes {b : UInt8} {bs : List UInt8} (hb : isIdentStart b)
    (hbs : ∀ x ∈ bs, isIdentPart x) : asBytes (ofBytes (b :: bs)) = b :: bs := by
  apply asBytes_ofBytes
  intro x hx
  apply (identPart_byte x _).1
  rcases List.mem_cons.mp hx with rfl | hx
  · exact (identStart_byte x hb).1
  · exact hbs x hx

theorem lex_word {name : String} (h : Word name) (hrest : Apart rest) :
    lex total (asBytes name ++ rest) = prepend [.ident name] (lex total rest) := by
  obtain ⟨b, bs, hb, hbs, rfl⟩ := h
  rw [word_bytes hb hbs]
  exact lex_identifier hb hbs hrest

theorem apart_digit {bs : List UInt8} (h : Apart bs) : ∀ b ∈ bs.head?, ¬ isDigit b :=
  fun b hb hdigit => h b hb (digit_byte b hdigit).1

/-- The bytes of decimal digits. -/
def digitBytes (l : List Char) : List UInt8 := l.map toByte

section Digits

variable {l : List Char} (hl : ∀ c ∈ l, c.isDigit)

include hl

theorem isDigit_digitBytes : ∀ b ∈ digitBytes l, isDigit b := by
  intro b hb
  obtain ⟨c, hc, rfl⟩ := List.mem_map.mp hb
  exact (digit_char (hl c hc)).2

theorem asBytes_digits : asBytes (String.ofList l) = digitBytes l :=
  asBytes_ofList fun c hc => (digit_char (hl c hc)).1

theorem decimalDigits_append (hrest : Apart rest) : decimalDigits (digitBytes l ++ rest) = l := by
  rw [decimalDigits, (takeWhile_append_apart (isDigit_digitBytes hl) (apart_digit hrest)).1,
    digitBytes, List.map_map]
  exact (List.map_congr_left fun c hc => asChar_toByte (digit_char (hl c hc)).1).trans (List.map_id l)

theorem scanNumber_int (hrest : Apart rest) (hpoint : NoPoint rest) :
    scanNumber (digitBytes l ++ rest) = (l, none, rest) := by
  unfold scanNumber
  rw [(takeWhile_append_apart (isDigit_digitBytes hl) (apart_digit hrest)).2,
    decimalDigits_append hl hrest]
  cases rest with
  | nil => rfl
  | cons b rest =>
    have hne : asChar b ≠ '.' := by
      intro heq
      apply hpoint b rfl
      rw [← toByte_asChar b, heq]
      rfl
    simp [hne]

theorem scanNumber_float {l' : List Char} (hl' : ∀ c ∈ l', c.isDigit) (hrest : Apart rest) :
    scanNumber (digitBytes l ++ 46 :: (digitBytes l' ++ rest)) = (l, some l', rest) := by
  have hpoint : Apart (46 :: (digitBytes l' ++ rest)) := by
    intro b hb
    cases hb
    decide
  unfold scanNumber
  rw [(takeWhile_append_apart (isDigit_digitBytes hl) (apart_digit hpoint)).2,
    decimalDigits_append hl hpoint]
  simp only [show asChar 46 = '.' from by decide, if_true, decimalDigits_append hl' hrest,
    (takeWhile_append_apart (isDigit_digitBytes hl') (apart_digit hrest)).2]

end Digits

theorem scanSuffix_apart (hrest : Apart rest) : scanSuffix rest = (none, rest) := by
  cases rest with
  | nil => rfl
  | cons b rest =>
    have hne : asChar b ≠ '_' := by
      intro heq
      apply hrest b rfl
      rw [← toByte_asChar b, heq]
      decide
    simp [scanSuffix, hne]

/-- A number is lexed as a decimal literal. -/
theorem lex_number {l : List Char} (hne : l ≠ []) (hl : ∀ c ∈ l, c.isDigit) {tail : List UInt8}
    (htail : Apart tail) {t : Tok}
    (h : ∀ start c, decimalLiteral start c (digitBytes l ++ tail) = .ok (t, rest)) :
    lex total (digitBytes l ++ tail) = prepend [t] (lex total rest) := by
  cases l with
  | nil => exact absurd rfl hne
  | cons c l =>
    have hdigit := isDigit_digitBytes hl (toByte c) List.mem_cons_self
    obtain ⟨hascii, hspace, hsym, hquote, hstring⟩ :=
      identPart_byte _ (digit_byte _ hdigit).1
    show lex total (toByte c :: (digitBytes l ++ tail)) = _
    apply lex_cons hascii hspace
    intro start
    have hhex : ¬ (asChar (toByte c) = '0' ∧ ((digitBytes l ++ tail).head? = some 120 ∨
        (digitBytes l ++ tail).head? = some 88)) := by
      rintro ⟨-, hx⟩
      cases l with
      | nil =>
        rcases hx with hx | hx <;> exact htail _ hx (by decide)
      | cons c' l =>
        have := isDigit_digitBytes hl (toByte c') (by simp [digitBytes])
        simp only [digitBytes, List.map_cons, List.cons_append, List.head?_cons,
          Option.some.injEq] at hx
        rcases hx with hx | hx <;> rw [hx] at this <;> exact absurd this (by decide)
    simp only [lexeme, symbol_eq_none hsym, hquote, hstring, hdigit, if_false, if_true]
    rw [if_neg hhex]
    exact h start _

theorem lex_int {n : Nat} (hn : n ≤ i64Max) (hrest : Apart rest) (hpoint : NoPoint rest) :
    lex total (asBytes (toString (n : Int)) ++ rest) = prepend [.int n] (lex total rest) := by
  have hl : ∀ c ∈ Nat.toDigits 10 n, c.isDigit :=
    fun c hc => Nat.isDigit_of_mem_toDigits (by norm_num) le_rfl hc
  have htext : toString (n : Int) = String.ofList (Nat.toDigits 10 n) := by
    show toString n = _
    exact Nat.toString_eq_ofList_toDigits
  rw [htext, asBytes_digits hl]
  apply lex_number Nat.toDigits_ne_nil hl hrest
  intro start c
  simp only [decimalLiteral, scanNumber_int hl hrest hpoint, scanSuffix_apart hrest, intLiteral,
    Nat.ofDigitChars_ten_toDigits, hn, if_true]
  rfl

theorem lex_float {l l' : List Char} (hne : l ≠ []) (hl : ∀ c ∈ l, c.isDigit)
    (hl' : ∀ c ∈ l', c.isDigit) (hrest : Apart rest) :
    lex total (asBytes (String.ofList (l ++ '.' :: l')) ++ rest)
      = prepend [.float (floatLiteral l l')] (lex total rest) := by
  have hbytes : asBytes (String.ofList (l ++ '.' :: l')) = digitBytes l ++ 46 :: digitBytes l' := by
    rw [asBytes_ofList, List.map_append, List.map_cons]
    · rfl
    · simp only [List.mem_append, List.mem_cons]
      rintro c (hc | rfl | hc)
      · exact (digit_char (hl c hc)).1
      · decide
      · exact (digit_char (hl' c hc)).1
  rw [hbytes, List.append_assoc, List.cons_append]
  apply lex_number hne hl
  · intro b hb
    cases hb
    decide
  · intro start c
    simp only [decimalLiteral, scanNumber_float hl hl' hrest, scanSuffix_apart hrest]

/-- The printed digits of a finite number spell a literal that denotes it. -/
theorem formatLiteral_float {f : F64} (hneg : f.neg = false) (hfin : f.isFinite) :
    ∃ l l', formatLiteral (.float f) = String.ofList (l ++ '.' :: l') ∧ l ≠ [] ∧
      (∀ c ∈ l, c.isDigit) ∧ (∀ c ∈ l', c.isDigit) ∧ floatLiteral l l' = f := by
  obtain ⟨c, hc, hread⟩ := Ieee.Decimal.shortest_reads hfin
  have hbits : f.bits < Ieee.Format.binary64.maxExpo * 2 ^ Ieee.Format.binary64.frac := by
    simpa [Ieee.Num.isFinite] using hfin
  have hnan : f.isNaN = false := by
    simpa [Ieee.Num.isNaN] using hbits.le
  have hinf : f.isInf = false := by
    simpa [Ieee.Num.isInf] using hbits.ne
  have hdisplay : f.display = c.text := by
    simp [Ieee.Num.display, hnan, hneg, hinf, hc]
  have hvalue : c.read .binary64 = f := by
    rw [hread, ← hneg]
  have hwhole : ∀ d ∈ c.whole, d.isDigit := fun d => Ieee.Decimal.isDigit_of_mem_whole
  have hnopoint : '.' ∉ c.whole := fun h => absurd (hwhole '.' h) (by decide)
  have hne : c.whole ≠ [] := Nat.toDigits_ne_nil
  by_cases hscale : c.scale = 0
  · refine ⟨c.whole, ['0'], ?_, hne, hwhole, by simp, ?_⟩
    · have htext : c.text = String.ofList c.whole := by
        simp [Ieee.Decimal.text, hscale]
      rw [formatLiteral, hdisplay, htext, String.toList_ofList]
      simp only [List.contains_eq_mem, hnopoint, decide_false, Bool.false_eq_true, if_false]
      rw [show (".0" : String) = String.ofList ['.', '0'] from rfl, ← String.ofList_append]
    · have hdigits : Nat.ofDigitChars 10 c.whole 0 = c.digits := by
        have := c.ofDigitChars_digits
        simpa [Ieee.Decimal.fraction, hscale] using this
      have hpad : c.pad = ⟨Nat.ofDigitChars 10 (c.whole ++ ['0']) 0, ['0'].length⟩ := by
        rw [Nat.ofDigitChars_append, hdigits]
        simp [Ieee.Decimal.pad, hscale, Nat.ofDigitChars_cons, Nat.mul_comm]
      rw [floatLiteral, ← hpad, Ieee.Decimal.read_pad, hvalue]
  · refine ⟨c.whole, c.fraction, ?_, hne, hwhole, fun d => Ieee.Decimal.isDigit_of_mem_fraction, ?_⟩
    · have htext : c.text = String.ofList (c.whole ++ '.' :: c.fraction) := by
        simp [Ieee.Decimal.text, hscale]
      rw [formatLiteral, hdisplay, htext, String.toList_ofList]
      simp
    · rw [floatLiteral, c.ofDigitChars_digits, c.length_fraction, hvalue]

end Lexing

/-- The bytes `w` are lexed as `ts` before every rest that `F` allows. -/
def Lexes (F : List UInt8 → Prop) (w : List UInt8) (ts : List Tok) : Prop :=
  ∀ total rest, F rest → lex total (w ++ rest) = prepend ts (lex total rest)

/-- What may follow a number. -/
def Clear (rest : List UInt8) : Prop := Apart rest ∧ NoPoint rest

namespace Lexes

variable {F G : List UInt8 → Prop} {w w' : List UInt8} {ts ts' : List Tok}

theorem mono (h : Lexes F w ts) (hF : ∀ rest, G rest → F rest) : Lexes G w ts :=
  fun total rest hrest => h total rest (hF rest hrest)

theorem append (h : Lexes F w ts) (h' : Lexes G w' ts') (hF : ∀ rest, G rest → F (w' ++ rest)) :
    Lexes G (w ++ w') (ts ++ ts') := by
  intro total rest hrest
  rw [List.append_assoc, h total _ (hF rest hrest), h' total rest hrest, prepend_prepend]

theorem blank (h : Lexes F w ts) : Lexes F (32 :: w) ts := by
  intro total rest hrest
  rw [List.cons_append, lex_blank, h total rest hrest]

theorem word {name : String} (h : Word name) : Lexes Apart (asBytes name) [.ident name] :=
  fun _ _ hrest => lex_word h hrest

/-- Punctuation that is lexed by its first byte. -/
theorem symbol {b : UInt8} {t : Tok} (hascii : isAscii b) (hspace : ¬ isWhitespace b)
    (h : ∀ next, Stdlib.symbol (asChar b) next = some (t, 1)) : Lexes (fun _ => True) [b] [t] := by
  intro total rest _
  apply lex_cons hascii hspace
  intro start
  simp [lexeme, h]

end Lexes

theorem apart_cons {b : UInt8} {bs : List UInt8} (h : ¬ isIdentPart b := by decide) :
    Apart (b :: bs) := by
  rintro _ ⟨⟩
  exact h

theorem clear_cons {b : UInt8} {bs : List UInt8} (h : ¬ isIdentPart b ∧ b ≠ 46 := by decide) :
    Clear (b :: bs) :=
  ⟨apart_cons h.1, by rintro _ ⟨⟩; exact h.2⟩

theorem lexes_lParen : Lexes (fun _ => True) [40] [.lParen] := .symbol (by decide) (by decide) fun _ => rfl
theorem lexes_rParen : Lexes (fun _ => True) [41] [.rParen] := .symbol (by decide) (by decide) fun _ => rfl
theorem lexes_lBracket : Lexes (fun _ => True) [91] [.lBracket] :=
  .symbol (by decide) (by decide) fun _ => rfl
theorem lexes_rBracket : Lexes (fun _ => True) [93] [.rBracket] :=
  .symbol (by decide) (by decide) fun _ => rfl
theorem lexes_lBrace : Lexes (fun _ => True) [123] [.lBrace] :=
  .symbol (by decide) (by decide) fun _ => rfl
theorem lexes_rBrace : Lexes (fun _ => True) [125] [.rBrace] :=
  .symbol (by decide) (by decide) fun _ => rfl
theorem lexes_comma : Lexes (fun _ => True) [44] [.comma] := .symbol (by decide) (by decide) fun _ => rfl
theorem lexes_semi : Lexes (fun _ => True) [59] [.semi] := .symbol (by decide) (by decide) fun _ => rfl
theorem lexes_colon : Lexes (fun _ => True) [58] [.colon] := .symbol (by decide) (by decide) fun _ => rfl
theorem lexes_dot : Lexes (fun _ => True) [46] [.dot] := .symbol (by decide) (by decide) fun _ => rfl

theorem lexes_operator (b : UInt8) (bs : List UInt8) {t : Tok} (hascii : isAscii b)
    (hspace : ¬ isWhitespace b)
    (h : ∀ start rest, lexeme start b (bs ++ 32 :: rest) = .ok (t, 32 :: rest)) :
    Lexes (fun _ => True) (32 :: (b :: bs ++ [32])) [t] := by
  intro total rest _
  simp only [List.cons_append, List.append_assoc, List.nil_append, lex_blank]
  rw [lex_cons hascii hspace fun start => h start rest, lex_blank]

theorem lexes_wordOperator {name : String} (h : Word name) :
    Lexes (fun _ => True) (32 :: (asBytes name ++ [32])) [.ident name] := by
  intro total rest _
  simp only [List.cons_append, List.append_assoc, List.nil_append, lex_blank]
  rw [lex_word h apart_cons, lex_blank]

/-- The words of the printed forms. -/
theorem word_of_bytes {name : String} (b : UInt8) (bs : List UInt8) (h : name = ofBytes (b :: bs))
    (hb : isIdentStart b && bs.all isIdentPart) : Word name := by
  simp only [Bool.and_eq_true, List.all_eq_true] at hb
  exact ⟨b, bs, hb.1, hb.2, h⟩

/-- An infix operator between blanks. -/
theorem lexes_binOp {op : BinOp} (h : bitOpName op = none) :
    Lexes (fun _ => True) (32 :: (asBytes (binOpSyntax op).1 ++ [32])) [binOpTok op] := by
  cases op with
  | or => exact lexes_wordOperator (word_of_bytes 111 [114] (by decide) (by decide))
  | xor =>
    exact lexes_wordOperator (word_of_bytes 120 [111, 114] (by decide) (by decide))
  | and =>
    exact lexes_wordOperator (word_of_bytes 97 [110, 100] (by decide) (by decide))
  | mod =>
    exact lexes_wordOperator (word_of_bytes 109 [111, 100] (by decide) (by decide))
  | implies => exact lexes_operator 61 [62] rfl (by decide) fun _ _ => rfl
  | eq => exact lexes_operator 61 [] rfl (by decide) fun _ _ => rfl
  | neq => exact lexes_operator 60 [62] rfl (by decide) fun _ _ => rfl
  | lt => exact lexes_operator 60 [] rfl (by decide) fun _ _ => rfl
  | le => exact lexes_operator 60 [61] rfl (by decide) fun _ _ => rfl
  | gt => exact lexes_operator 62 [] rfl (by decide) fun _ _ => rfl
  | ge => exact lexes_operator 62 [61] rfl (by decide) fun _ _ => rfl
  | add => exact lexes_operator 43 [] rfl (by decide) fun _ _ => rfl
  | sub => exact lexes_operator 45 [] rfl (by decide) fun _ _ => rfl
  | mul => exact lexes_operator 42 [] rfl (by decide) fun _ _ => rfl
  | div => exact lexes_operator 47 [] rfl (by decide) fun _ _ => rfl
  | bitAnd | bitOr | bitXor | shl | shr => cases h

/-- The letter of the escape that a printed character needs. -/
def escape (b : UInt8) : Option UInt8 :=
  [(10, 110), (9, 116), (13, 114), (0, 48), (39, 39), (92, 92)].lookup b

theorem formatCharLiteral_plain {b : UInt8} (h : escape b = none) :
    formatCharLiteral b = String.ofList ['\'', asChar b, '\''] ∧ asChar b ≠ '\\' := by
  have hne {c : Char} (hc : asChar b = c) : escape (toByte c) = none := by rwa [← hc, toByte_asChar]
  constructor
  · unfold formatCharLiteral
    split
    iterate 6 exact absurd (hne ‹_›) (by decide)
    have hchar : (toString (asChar b)).toList = [asChar b] :=
      String.toList_singleton (asChar b)
    rw [← String.toList_inj, String.toList_append, String.toList_append, hchar]
    simp only [String.toList_ofList]
    rfl
  · exact fun hc => absurd (hne hc) (by decide)

theorem formatCharLiteral_escaped {b e : UInt8} (h : escape b = some e) :
    asBytes (formatCharLiteral b) = [39, 92, e, 39] ∧ unescape e = b := by
  have hmem : b ∈ ([10, 9, 13, 0, 39, 92] : List UInt8) := by
    have hsome : (escape b).isSome := by rw [h]; rfl
    rw [escape, List.lookup_isSome_iff] at hsome
    simpa using hsome
  simp only [List.mem_cons, List.not_mem_nil, or_false] at hmem
  rcases hmem with rfl | rfl | rfl | rfl | rfl | rfl
  all_goals
    obtain rfl := Option.some.inj h
    exact ⟨by decide, rfl⟩

theorem formatCharLiteral_bytes (b : UInt8) (hb : isAscii b) :
    asBytes (formatCharLiteral b)
      = 39 :: ((escape b).elim [b] fun e => [92, e]) ++ [39] ∧
    (∀ e ∈ escape b, unescape e = b) ∧ (escape b = none → asChar b ≠ '\\') := by
  cases he : escape b with
  | none =>
    obtain ⟨htext, hslash⟩ := formatCharLiteral_plain he
    have hascii : (asChar b).toNat < 128 := by
      rw [toNat_asChar]
      simpa [isAscii, UInt8.lt_iff_toNat_lt] using hb
    refine ⟨?_, by simp, fun _ => hslash⟩
    rw [htext, asBytes_ofList (by simpa using hascii)]
    simp [toByte_asChar]
    decide
  | some e =>
    obtain ⟨htext, hletter⟩ := formatCharLiteral_escaped he
    exact ⟨htext, by simpa using hletter, by simp⟩

theorem lexes_char {b : UInt8} (hb : isAscii b) :
    Lexes (fun _ => True) (asBytes (formatCharLiteral b)) [.charLit b] := by
  intro total rest _
  obtain ⟨hbytes, hsome, hnone⟩ := formatCharLiteral_bytes b hb
  have hread : readEscaped (((escape b).elim [b] fun e => [92, e]) ++ 39 :: rest)
      = .ok (b, 39 :: rest) := by
    cases he : escape b with
    | none => simp [readEscaped, hnone he]
    | some e => simp [readEscaped, show asChar 92 = '\\' from by decide, hsome e he]
  rw [hbytes, List.cons_append, List.cons_append, List.append_assoc]
  apply lex_cons (by decide) (by decide)
  intro start
  have hchar : asChar 39 = '\'' := by decide
  simp only [lexeme, symbol_eq_none (c := asChar 39) (by decide)]
  simp [hchar, charLiteral, hread, bind, Except.bind]

theorem formatExprPrec_eq (e : Expr) (p : Nat) :
    formatExprPrec e p = parenthesize p (formatExprPrec e 0) (precedence e) := by
  cases e with
  | unary op arg => cases op <;> simp [formatExprPrec, precedence, parenthesize]
  | binary op lhs rhs =>
    cases h : bitOpName op <;> simp [formatExprPrec, precedence, parenthesize, h]
  | iterate kind node init arrays => cases init <;> simp [formatExprPrec, precedence, parenthesize]
  | _ => simp [formatExprPrec, precedence, parenthesize]

/-- What may follow the printed form of `e`. -/
def Follow : Expr → List UInt8 → Prop
  | .const (.int _) => Clear
  | e => if precedence e = 100 then Apart else Clear

theorem follow_of_clear {e : Expr} {rest : List UInt8} (h : Clear rest) : Follow e rest := by
  unfold Follow
  split
  · exact h
  · split
    · exact h.1
    · exact h

/-- The printed form of `e`, as the bytes that the tokenizer reads. -/
def Lexed (e : Expr) : Prop := Lexes (Follow e) (asBytes (formatExprPrec e 0)) (toks e 0)

theorem lexes_paren {F : List UInt8 → Prop} {w : List UInt8} {ts : List Tok} (h : Lexes F w ts)
    (hF : ∀ rest, Clear rest → F rest) :
    Lexes (fun _ => True) (40 :: (w ++ [41])) (.lParen :: (ts ++ [.rParen])) :=
  lexes_lParen.append ((h.mono hF).append lexes_rParen fun _ _ => clear_cons) fun _ _ => trivial

theorem Lexed.operand {e : Expr} (h : Lexed e) (p : Nat) :
    Lexes Clear (asBytes (formatExprPrec e p)) (toks e p) := by
  rw [formatExprPrec_eq, toks_eq_wrap, parenthesize, wrap]
  split
  · simp only [asBytes_append, List.append_assoc]
    exact (lexes_paren h fun _ => follow_of_clear).mono fun _ _ => trivial
  · exact h.mono fun _ => follow_of_clear

/-- The base of a field or index access, which a point or a bracket follows. -/
theorem Lexed.base {e : Expr} (h : Lexed e) (hint : ∀ n, e ≠ .const (.int n)) :
    Lexes Apart (asBytes (formatExprPrec e 100)) (toks e 100) := by
  rw [formatExprPrec_eq, toks_eq_wrap, parenthesize, wrap]
  split
  · simp only [asBytes_append, List.append_assoc]
    exact (lexes_paren h fun _ => follow_of_clear).mono fun _ _ => trivial
  · apply h.mono
    intro rest hrest
    have hprec : precedence e = 100 := by
      have : precedence e ≤ 100 := by
        cases e with
        | binary op lhs rhs => cases op <;> simp [precedence, bitOpName, binOpSyntax]
        | _ => simp [precedence]
      omega
    unfold Follow
    split
    · exact absurd rfl (hint _)
    · rwa [if_pos hprec]

/-- The texts between the parts of the printed forms. -/
theorem bytes_texts :
    asBytes "(" = [40] ∧ asBytes ")" = [41] ∧ asBytes "[" = [91] ∧ asBytes "]" = [93] ∧
    asBytes "." = [46] ∧ asBytes ", " = [44, 32] ∧ asBytes "; " = [59, 32] ∧
    asBytes ": " = [58, 32] ∧ asBytes " " = [32] ∧ asBytes " \x7b " = [32, 123, 32] ∧
    asBytes " \x7d" = [32, 125] ∧ asBytes "not " = asBytes "not" ++ [32] ∧
    asBytes "pre " = asBytes "pre" ++ [32] ∧ asBytes "- " = [45, 32] ∧
    asBytes "if " = asBytes "if" ++ [32] ∧ asBytes " then " = 32 :: (asBytes "then" ++ [32]) ∧
    asBytes " else " = 32 :: (asBytes "else" ++ [32]) ∧ asBytes " -> " = [32, 45, 62, 32] ∧
    asBytes " when " = 32 :: (asBytes "when" ++ [32]) ∧
    asBytes " when not " = 32 :: (asBytes "when" ++ 32 :: (asBytes "not" ++ [32])) ∧
    asBytes "merge(" = asBytes "merge" ++ [40] := by
  decide

section Forms

/-- A keyword before its operand. -/
theorem lexes_keyword {name : String} {F : List UInt8 → Prop} {w : List UInt8} {ts : List Tok}
    (hname : Word name) (h : Lexes F w ts) :
    Lexes F (asBytes name ++ 32 :: w) (.ident name :: ts) :=
  (Lexes.word hname).append h.blank fun _ _ => apart_cons

theorem lexed_of_clear {e : Expr} (hprec : precedence e ≠ 100)
    (h : Lexes Clear (asBytes (formatExprPrec e 0)) (toks e 0)) : Lexed e := by
  apply h.mono
  intro rest hrest
  unfold Follow at hrest
  split at hrest
  · exact hrest
  · rwa [if_neg hprec] at hrest

theorem lexed_of_apart {e : Expr} (h : Lexes Apart (asBytes (formatExprPrec e 0)) (toks e 0)) :
    Lexed e := by
  apply h.mono
  intro rest hrest
  unfold Follow at hrest
  split at hrest
  · exact hrest.1
  · split at hrest
    · exact hrest
    · exact hrest.1

theorem lexed_unary {op : UnaryOp} {arg : Expr} (h : Lexed arg) : Lexed (.unary op arg) := by
  apply lexed_of_clear (by simp [precedence])
  have harg := h.operand 90
  cases op with
  | not =>
    have hword : Word "not" := word_of_bytes 110 [111, 116] (by decide) (by decide)
    simpa [formatExprPrec, parenthesize, toks, wrap, bytes_texts] using lexes_keyword hword harg
  | neg =>
    intro total rest hrest
    have hminus : lex total (45 :: 32 :: (asBytes (formatExprPrec arg 90) ++ rest))
        = prepend [.minus] (lex total (32 :: (asBytes (formatExprPrec arg 90) ++ rest))) :=
      lex_cons (by decide) (by decide) fun _ => rfl
    simp only [formatExprPrec, parenthesize, Nat.not_lt_zero, if_false, asBytes_append,
      bytes_texts, toks, wrap, List.cons_append, List.nil_append]
    rw [hminus, lex_blank, harg total rest hrest, prepend_prepend]
    rfl

theorem lexed_pre {arg : Expr} (h : Lexed arg) : Lexed (.pre arg) := by
  apply lexed_of_clear (by simp [precedence])
  have hword : Word "pre" := word_of_bytes 112 [114, 101] (by decide) (by decide)
  simpa [formatExprPrec, parenthesize, toks, wrap, bytes_texts] using
    lexes_keyword hword (h.operand 80)

theorem lexed_binary {op : BinOp} {l r : Expr} (hop : bitOpName op = none) (hl : Lexed l)
    (hr : Lexed r) : Lexed (.binary op l r) := by
  have hprec : precedence (.binary op l r) ≠ 100 := by
    cases op <;> simp [precedence, bitOpName, binOpSyntax] at hop ⊢
  apply lexed_of_clear hprec
  have hright := (lexes_binOp hop).append (hr.operand ((binOpSyntax op).2 + 1)) fun _ _ => trivial
  have h := (hl.operand (binOpSyntax op).2).append hright fun _ _ => clear_cons
  simpa [formatExprPrec, parenthesize, toks, wrap, hop, bytes_texts] using h

theorem lexed_arrow {i b : Expr} (hi : Lexed i) (hb : Lexed b) : Lexed (.arrow i b) := by
  apply lexed_of_clear (by simp [precedence])
  have harrow : Lexes (fun _ => True) [32, 45, 62, 32] [.arrow] :=
    lexes_operator 45 [62] rfl (by decide) fun _ _ => rfl
  have h := (hi.operand 15).append (harrow.append (hb.operand 14) fun _ _ => trivial)
    fun _ _ => clear_cons
  simpa [formatExprPrec, parenthesize, toks, wrap, bytes_texts] using h

theorem lexed_ifThenElse {c t e : Expr} (hc : Lexed c) (ht : Lexed t) (he : Lexed e) :
    Lexed (.ifThenElse c t e) := by
  apply lexed_of_clear (by simp [precedence])
  have hif : Word "if" := word_of_bytes 105 [102] (by decide) (by decide)
  have hthen : Word "then" :=
    word_of_bytes 116 [104, 101, 110] (by decide) (by decide)
  have helse : Word "else" :=
    word_of_bytes 101 [108, 115, 101] (by decide) (by decide)
  have hbranch := (ht.operand 0).append (lexes_keyword helse (he.operand 0)).blank
    fun _ _ => clear_cons
  have h := lexes_keyword hif ((hc.operand 0).append (lexes_keyword hthen hbranch).blank
    fun _ _ => clear_cons)
  simpa [formatExprPrec, parenthesize, toks, wrap, bytes_texts] using h

theorem lexed_when {arg : Expr} {clock : String} {on : Bool} (hclock : Word clock)
    (h : Lexed arg) : Lexed (.when arg clock on) := by
  apply lexed_of_clear (by simp [precedence])
  have hwhen : Word "when" :=
    word_of_bytes 119 [104, 101, 110] (by decide) (by decide)
  have hnot : Word "not" := word_of_bytes 110 [111, 116] (by decide) (by decide)
  have hname : Lexes Clear (asBytes clock) [.ident clock] :=
    (Lexes.word hclock).mono fun _ hrest => hrest.1
  cases on with
  | true =>
    have h := (h.operand 16).append (lexes_keyword hwhen hname).blank fun _ _ => clear_cons
    simpa [formatExprPrec, parenthesize, toks, wrap, bytes_texts, clockToks] using h
  | false =>
    have h := (h.operand 16).append (lexes_keyword hwhen (lexes_keyword hnot hname)).blank
      fun _ _ => clear_cons
    simpa [formatExprPrec, parenthesize, toks, wrap, bytes_texts, clockToks] using h

/-- Texts with a separator between them. -/
theorem lexes_join {sep : String} {t : Tok} (hsep : Lexes (fun _ => True) (asBytes sep) [t])
    (hclear : ∀ rest, Clear (asBytes sep ++ rest)) {texts : List String} {parts : List (List Tok)}
    (h : List.Forall₂ (fun s ts => Lexes Clear (asBytes s) ts) texts parts) :
    Lexes Clear (asBytes (join sep texts)) (joinToks t parts) := by
  induction h with
  | nil => exact fun total rest _ => (prepend_nil _).symm
  | @cons s ts texts parts hs htail ih =>
    cases htail with
    | nil => exact hs
    | cons =>
      have h := hs.append (hsep.append ih fun _ _ => trivial) fun rest _ => by
        simpa only [List.append_assoc] using hclear _
      simpa only [join, joinToks, asBytes_append, List.append_assoc, List.singleton_append] using h

theorem lexes_parts : ∀ {es : List Expr}, (∀ e ∈ es, Lexed e) →
    List.Forall₂ (fun s ts => Lexes Clear (asBytes s) ts) (formatParts es) (partsToks es)
  | [], _ => .nil
  | e :: _, h => by
    rw [formatParts, partsToks]
    exact .cons ((h e List.mem_cons_self).operand 0)
      (lexes_parts fun x hx => h x (List.mem_cons_of_mem _ hx))

theorem lexes_comma_blank : Lexes (fun _ => True) (asBytes ", ") [.comma] := by
  intro total rest _
  simpa [bytes_texts] using lexes_comma total (32 :: rest) trivial

theorem lexes_semi_blank : Lexes (fun _ => True) (asBytes "; ") [.semi] := by
  intro total rest _
  simpa [bytes_texts] using lexes_semi total (32 :: rest) trivial

theorem lexes_fields : ∀ {fields : List (String × Expr)},
    (∀ f ∈ fields, Word f.1) → (∀ f ∈ fields, Lexed f.2) →
    List.Forall₂ (fun s ts => Lexes Clear (asBytes s) ts) (formatFields fields) (fieldsToks fields)
  | [], _, _ => .nil
  | (f, e) :: _, hname, h => by
    have hvalue := lexes_colon.append ((h (f, e) List.mem_cons_self).operand 0).blank
      fun _ _ => trivial
    have hfield := (Lexes.word (hname (f, e) List.mem_cons_self)).append hvalue
      fun _ _ => apart_cons
    rw [formatFields, fieldsToks]
    refine .cons ?_ (lexes_fields (fun x hx => hname x (List.mem_cons_of_mem _ hx))
      fun x hx => h x (List.mem_cons_of_mem _ hx))
    simpa [bytes_texts] using hfield

/-- A name with its arguments in parentheses. -/
theorem lexes_apply {name : String} (hname : Word name) {texts : List String}
    {parts : List (List Tok)}
    (h : List.Forall₂ (fun s ts => Lexes Clear (asBytes s) ts) texts parts) :
    Lexes (fun _ => True) (asBytes (name ++ "(" ++ join ", " texts ++ ")"))
      (.ident name :: .lParen :: (joinToks .comma parts ++ [.rParen])) := by
  have hargs := lexes_join lexes_comma_blank (fun _ => by rw [bytes_texts.2.2.2.2.2.1]; exact clear_cons) h
  have h := (Lexes.word hname).append (lexes_paren hargs fun _ => id) fun _ _ => apart_cons
  simpa [bytes_texts] using h

theorem lexed_const {lit : Literal} (h : ReadLiteral lit) (hinf : ∀ f, lit = .float f → ¬ f.isInf)
    (hchar : ∀ b, lit = .char b → isAscii b) : Lexed (.const lit) := by
  cases lit with
  | bool b =>
    apply lexed_of_apart
    have hword : Word (toString b) := by
      cases b with
      | true => exact word_of_bytes 116 [114, 117, 101] (by decide) (by decide)
      | false =>
        exact word_of_bytes 102 [97, 108, 115, 101] (by decide) (by decide)
    exact Lexes.word hword
  | int n =>
    obtain ⟨n, rfl⟩ := Int.eq_ofNat_of_zero_le h.1
    intro total rest hrest
    exact lex_int (by exact_mod_cast h.2) hrest.1 hrest.2
  | float f =>
    apply lexed_of_apart
    intro total rest hrest
    obtain ⟨hneg, hnan⟩ := h
    have hfin : f.isFinite := by
      have hne := hinf f rfl
      simp only [Ieee.Num.isFinite, Ieee.Num.isInf, Ieee.Num.isNaN, decide_eq_true_eq] at hne hnan ⊢
      omega
    obtain ⟨l, l', htext, hne, hl, hl', hvalue⟩ := formatLiteral_float hneg hfin
    have h : lex total _ = _ := lex_float hne hl hl' hrest
    rw [hvalue] at h
    simpa [formatExprPrec, parenthesize, toks, wrap, literalToks, hinf f rfl, htext] using h
  | char b =>
    apply lexed_of_apart
    exact (lexes_char (hchar b rfl)).mono fun _ _ => trivial

theorem lexed_var {name : String} (h : Word name) : Lexed (.var name) :=
  lexed_of_apart (Lexes.word h)

theorem lexed_call {node : String} {args : List Expr} (hnode : Word node)
    (h : ∀ a ∈ args, Lexed a) : Lexed (.call node args) := by
  apply lexed_of_apart
  have h := (lexes_apply hnode (lexes_parts h)).mono (G := Apart) fun _ _ => trivial
  simpa only [formatExprPrec, parenthesize, toks, wrap, Nat.not_lt_zero, if_false] using h

theorem lexed_field {base : Expr} {f : String} (hf : Word f) (hint : ∀ n, base ≠ .const (.int n))
    (hbase : Lexed base) : Lexed (.field base f) := by
  apply lexed_of_apart
  have h := (hbase.base hint).append (lexes_dot.append (Lexes.word hf) fun _ _ => trivial)
    fun _ _ => apart_cons
  have htoks : fieldToks base (toks base 100) f = toks base 100 ++ [.dot, .ident f] := by
    unfold fieldToks
    split
    · next n => exact absurd rfl (hint n)
    · rfl
  simpa [formatExprPrec, parenthesize, toks, wrap, htoks, bytes_texts] using h

theorem lexed_index {base i : Expr} (hb : Lexed base) (hi : Lexed i) : Lexed (.index base i) := by
  apply lexed_of_apart
  have hindex := lexes_lBracket.append ((hi.operand 0).append lexes_rBracket fun _ _ => clear_cons)
    fun _ _ => trivial
  have h := ((hb.operand 100).append hindex fun _ _ => clear_cons).mono (G := Apart)
    fun _ _ => trivial
  simpa [formatExprPrec, parenthesize, toks, wrap, bytes_texts] using h

theorem lexed_array {items : List Expr} (h : ∀ i ∈ items, Lexed i) : Lexed (.array items) := by
  apply lexed_of_apart
  have hitems := lexes_join lexes_semi_blank
    (fun _ => by rw [bytes_texts.2.2.2.2.2.2.1]; exact clear_cons) (lexes_parts h)
  have h := (lexes_lBracket.append (hitems.append lexes_rBracket fun _ _ => clear_cons)
    fun _ _ => trivial).mono (G := Apart) fun _ _ => trivial
  simpa [formatExprPrec, parenthesize, toks, wrap, bytes_texts] using h

theorem lexed_struct {ty : String} {fields : List (String × Expr)} (hty : Word ty)
    (hname : ∀ f ∈ fields, Word f.1) (h : ∀ f ∈ fields, Lexed f.2) : Lexed (.struct ty fields) := by
  apply lexed_of_apart
  have hfields := lexes_join lexes_comma_blank
    (fun _ => by rw [bytes_texts.2.2.2.2.2.1]; exact clear_cons) (lexes_fields hname h)
  have hclose := hfields.append lexes_rBrace.blank fun _ _ => clear_cons
  have h := ((Lexes.word hty).append (lexes_lBrace.append hclose.blank fun _ _ => trivial).blank
    fun _ _ => apart_cons).mono (G := Apart) fun _ _ => trivial
  simpa [formatExprPrec, parenthesize, toks, wrap, bytes_texts] using h

theorem word_castTypeName (target : Ty) : Word (castTypeName target) := by
  cases target with
  | int8 => exact word_of_bytes 105 (asBytes "nt8") (by decide) (by decide)
  | int16 => exact word_of_bytes 105 (asBytes "nt16") (by decide) (by decide)
  | int64 => exact word_of_bytes 105 (asBytes "nt64") (by decide) (by decide)
  | uint8 => exact word_of_bytes 117 (asBytes "int8") (by decide) (by decide)
  | uint16 => exact word_of_bytes 117 (asBytes "int16") (by decide) (by decide)
  | uint32 => exact word_of_bytes 117 (asBytes "int32") (by decide) (by decide)
  | uint64 => exact word_of_bytes 117 (asBytes "int64") (by decide) (by decide)
  | float32 => exact word_of_bytes 102 (asBytes "loat32") (by decide) (by decide)
  | float64 => exact word_of_bytes 102 (asBytes "loat64") (by decide) (by decide)
  | _ =>
    show Word "int32"
    exact word_of_bytes 105 (asBytes "nt32") (by decide) (by decide)

theorem lexed_cast {target : Ty} {arg : Expr} (h : Lexed arg) : Lexed (.cast target arg) := by
  apply lexed_of_apart
  have hargs : ∀ a ∈ [arg], Lexed a := by simpa using h
  have h := (lexes_apply (word_castTypeName target) (lexes_parts hargs)).mono (G := Apart)
    fun _ _ => trivial
  simpa only [formatExprPrec, parenthesize, toks, wrap, Nat.not_lt_zero, if_false, formatParts,
    partsToks, join, joinToks] using h

theorem lexed_merge {clock : String} {t e : Expr} (hclock : Word clock) (ht : Lexed t)
    (he : Lexed e) : Lexed (.merge clock t e) := by
  apply lexed_of_apart
  have hmerge : Word "merge" :=
    word_of_bytes 109 (asBytes "erge") (by decide) (by decide)
  have hargs : ∀ a ∈ [.var clock, t, e], Lexed a := by
    simpa using ⟨lexed_var hclock, ht, he⟩
  have h := (lexes_apply hmerge (lexes_parts hargs)).mono (G := Apart) fun _ _ => trivial
  simpa [formatExprPrec, parenthesize, toks, wrap, formatParts, partsToks, join, joinToks,
    bytes_texts] using h

/-- An iterator over a node and its operands. -/
theorem lexes_iterate {kind : IterKind} {node : String} (hnode : Word node) {args : List Expr}
    (h : ∀ a ∈ args, Lexed a) :
    Lexes Apart (asBytes (iterName kind ++ "(" ++ join ", " (node :: formatParts args) ++ ")"))
      (.ident (iterName kind) :: .lParen ::
        (joinToks .comma ([.ident node] :: partsToks args) ++ [.rParen])) := by
  have hkind : Word (iterName kind) := by
    cases kind with
    | map => exact word_of_bytes 109 (asBytes "ap") (by decide) (by decide)
    | fold => exact word_of_bytes 102 (asBytes "old") (by decide) (by decide)
  have hname : Lexes Clear (asBytes node) [.ident node] :=
    (Lexes.word hnode).mono fun _ hrest => hrest.1
  exact (lexes_apply hkind (.cons hname (lexes_parts h))).mono fun _ _ => trivial

theorem lexed_iterate {kind : IterKind} {node : String} {init : Option Expr} {arrays : List Expr}
    (hnode : Word node) (hinit : ∀ i ∈ init, Lexed i) (h : ∀ a ∈ arrays, Lexed a) :
    Lexed (.iterate kind node init arrays) := by
  apply lexed_of_apart
  cases init with
  | none =>
    simpa only [formatExprPrec, parenthesize, toks, wrap, Nat.not_lt_zero, if_false]
      using lexes_iterate hnode h
  | some i =>
    have hall : ∀ a ∈ i :: arrays, Lexed a := List.forall_mem_cons.mpr ⟨hinit i rfl, h⟩
    simpa only [formatExprPrec, parenthesize, toks, wrap, Nat.not_lt_zero, if_false, formatParts,
      partsToks] using lexes_iterate hnode hall

end Forms

/-- A character that a literal cannot hold: its printed form is not ASCII. -/
def wideSlip : Expr → Bool
  | .const (.char b) => !isAscii b
  | _ => false

/-- The tokenizer reads a printed expression as the tokens of its form. -/
theorem lexed {e : Expr} (h : Parsed e) :
    Throughout (fun x => tokenSlip x = false ∧ wideSlip x = false) e → Lexed e := by
  induction h with
  | const lit hlit =>
    intro hs
    apply lexed_const hlit
    · rintro f rfl
      simpa [tokenSlip] using hs.self.1
    · rintro b rfl
      simpa [wideSlip] using hs.self.2
  | var name hname _ => exact fun _ => lexed_var hname
  | unary op arg _ ih => exact fun hs => lexed_unary (ih (hs.child (by simp [Expr.children])))
  | binary op l r _ _ ihl ihr =>
    intro hs
    apply lexed_binary _ (ihl (hs.child (by simp [Expr.children])))
      (ihr (hs.child (by simp [Expr.children])))
    simpa [tokenSlip] using hs.self.1
  | ifThenElse c t e _ _ _ ihc iht ihe =>
    exact fun hs => lexed_ifThenElse (ihc (hs.child (by simp [Expr.children])))
      (iht (hs.child (by simp [Expr.children]))) (ihe (hs.child (by simp [Expr.children])))
  | pre arg _ ih => exact fun hs => lexed_pre (ih (hs.child (by simp [Expr.children])))
  | arrow i b _ _ ihi ihb =>
    exact fun hs => lexed_arrow (ihi (hs.child (by simp [Expr.children])))
      (ihb (hs.child (by simp [Expr.children])))
  | call node args hnode _ ih => exact fun hs => lexed_call hnode.1 fun a ha => ih a ha (hs.child ha)
  | field base f hf _ ih =>
    intro hs
    apply lexed_field hf _ (ih (hs.child (by simp [Expr.children])))
    rintro n rfl
    cases hs.self.1
  | index base i _ _ ihb ihi =>
    exact fun hs => lexed_index (ihb (hs.child (by simp [Expr.children])))
      (ihi (hs.child (by simp [Expr.children])))
  | array items _ ih => exact fun hs => lexed_array fun i hi => ih i hi (hs.child hi)
  | struct ty fields hty _ hnames _ ih =>
    exact fun hs => lexed_struct hty hnames fun f hf => ih f hf
      (hs.child (List.mem_map_of_mem hf))
  | cast target arg _ _ ih => exact fun hs => lexed_cast (ih (hs.child (by simp [Expr.children])))
  | when arg clock on hclock _ _ ih =>
    exact fun hs => lexed_when hclock (ih (hs.child (by simp [Expr.children])))
  | merge clock t e hclock _ _ _ iht ihe =>
    exact fun hs => lexed_merge hclock (iht (hs.child (by simp [Expr.children])))
      (ihe (hs.child (by simp [Expr.children])))
  | map node arrays hnode _ _ _ ih =>
    exact fun hs => lexed_iterate hnode (by simp) fun a ha => ih a ha
      (hs.child (by simpa [Expr.children] using ha))
  | fold node init array hnode _ _ _ ihi iha =>
    intro hs
    apply lexed_iterate hnode
    · rintro _ ⟨⟩
      exact ihi (hs.child (by simp [Expr.children]))
    · simpa using iha (hs.child (by simp [Expr.children]))

end OpenLustre.LustreEmit
