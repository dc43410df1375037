import OpenLustre.Lib.Brackets
import OpenLustre.Lib.Ieee
import OpenLustre.Lib.Text

/-! JSON values, the texts that denote them, and a parser of those texts. -/

inductive Json : Type
  | null
  | bool (b : Bool)
  | int (i : Int)
  | float (x : Ieee.Num Ieee.Format.binary64)
  | string (s : String)
  | array (items : List Json)
  | object (entries : List (String × Json))

namespace Json

/-! ## Texts -/

def isSpace (c : Char) : Bool := c = ' ' || c = '\t' || c = '\n' || c = '\r'

def Blank (w : List Char) : Prop := ∀ c ∈ w, isSpace c = true

/-- A character of a number. -/
def isNumeric (c : Char) : Bool := c.isDigit || c = '-' || c = '+' || c = '.' || c = 'e' || c = 'E'

/-- The integers that are kept as such. -/
def isIntegral (i : Int) : Bool := decide (-9223372036854775808 ≤ i ∧ i ≤ 18446744073709551615)

def hexDigit (c : Char) : Option Nat :=
  if c.isDigit then some (c.toNat - '0'.toNat)
  else if 'a' ≤ c ∧ c ≤ 'f' then some (c.toNat - 'a'.toNat + 10)
  else if 'A' ≤ c ∧ c ≤ 'F' then some (c.toNat - 'A'.toNat + 10)
  else none

def hex4 (a b c d : Char) : Option Nat := do
  return (((← hexDigit a) * 16 + (← hexDigit b)) * 16 + (← hexDigit c)) * 16 + (← hexDigit d)

/-- The character that a backslash and one letter stand for. -/
def unescape (c : Char) : Option Char :=
  if c = '"' ∨ c = '\\' ∨ c = '/' then some c
  else if c = 'b' then some '\x08'
  else if c = 'f' then some '\x0c'
  else if c = 'n' then some '\n'
  else if c = 'r' then some '\r'
  else if c = 't' then some '\t'
  else none

def isLead (n : Nat) : Bool := 0xD800 ≤ n && n < 0xDC00
def isTrail (n : Nat) : Bool := 0xDC00 ≤ n && n < 0xE000

/-- What is between the quotes of a string, and the characters it stands for. -/
inductive Body : List Char → List Char → Prop
  | nil : Body [] []
  | plain {c : Char} {t s : List Char} : c ≠ '"' → c ≠ '\\' → ¬c.toNat < 0x20 → Body t s →
      Body (c :: t) (c :: s)
  | escape {e c : Char} {t s : List Char} : e ≠ 'u' → unescape e = some c → Body t s →
      Body ('\\' :: e :: t) (c :: s)
  | unicode {a b c d : Char} {n : Nat} {t s : List Char} : hex4 a b c d = some n →
      isLead n = false → isTrail n = false → Body t s →
      Body ('\\' :: 'u' :: a :: b :: c :: d :: t) (Char.ofNat n :: s)
  | pair {a b c d a' b' c' d' : Char} {n n' : Nat} {t s : List Char} : hex4 a b c d = some n →
      isLead n = true → hex4 a' b' c' d' = some n' → isTrail n' = true → Body t s →
      Body ('\\' :: 'u' :: a :: b :: c :: d :: '\\' :: 'u' :: a' :: b' :: c' :: d' :: t)
        (Char.ofNat (0x10000 + (n - 0xD800) * 0x400 + (n' - 0xDC00)) :: s)

/-- An item of an array with the blanks around it. -/
structure Item where
  before : List Char
  text : List Char
  after : List Char
  json : Json

/-- A member of an object: its key in quotes, then its value. -/
structure Member extends Item where
  keyBefore : List Char
  keyText : List Char
  keyAfter : List Char
  key : List Char

def Item.padded (i : Item) : List Char := i.before ++ i.text ++ i.after

def Member.padded (m : Member) : List Char :=
  m.keyBefore ++ ('"' :: m.keyText ++ ['"']) ++ m.keyAfter ++ ':' :: m.toItem.padded

structure Item.Spaced (i : Item) : Prop where
  before : Blank i.before
  after : Blank i.after

structure Member.Spaced (m : Member) : Prop extends m.toItem.Spaced where
  keyBefore : Blank m.keyBefore
  keyAfter : Blank m.keyAfter

/-- Insert into a map kept sorted by key; a later value replaces an earlier one. -/
def insertKey (key : String) (j : Json) : List (String × Json) → List (String × Json)
  | [] => [(key, j)]
  | (k, w) :: rest =>
    if key = k then (key, j) :: rest
    else if key < k then (key, j) :: (k, w) :: rest
    else (k, w) :: insertKey key j rest

def entries (members : List Member) : List (String × Json) :=
  members.foldl (fun es m => insertKey (String.ofList m.key) m.json es) []

/-- A text without blanks around it, and the value it denotes.  Arrays and objects nest at
most `depth` deep, and numbers are canonical integers unless `reals` are allowed; which real a
number stands for is left open. -/
inductive Value (reals : Bool) : Nat → List Char → Json → Prop
  | null {depth : Nat} : Value reals depth ['n', 'u', 'l', 'l'] .null
  | true {depth : Nat} : Value reals depth ['t', 'r', 'u', 'e'] (.bool .true)
  | false {depth : Nat} : Value reals depth ['f', 'a', 'l', 's', 'e'] (.bool .false)
  | int {depth : Nat} {i : Int} : isIntegral i = .true → Value reals depth (Text.decimal i) (.int i)
  | float {depth : Nat} {c : Char} {t : List Char} {x : Ieee.Num Ieee.Format.binary64} :
      reals = .true → (c.isDigit ∨ c = '-') → (∀ d ∈ t, isNumeric d = .true) →
      Value reals depth (c :: t) (.float x)
  | string {depth : Nat} {t s : List Char} : Body t s →
      Value reals depth ('"' :: t ++ ['"']) (.string (String.ofList s))
  | array {depth : Nat} {w : List Char} {items : List Item} : Blank w → (∀ i ∈ items, i.Spaced) →
      (∀ i ∈ items, Value reals depth i.text i.json) →
      Value reals (depth + 1) ('[' :: (w ++ List.intercalate [','] (items.map Item.padded)) ++ [']'])
        (.array (items.map (·.json)))
  | object {depth : Nat} {w : List Char} {members : List Member} : Blank w →
      (∀ m ∈ members, m.Spaced) → (∀ m ∈ members, Body m.keyText m.key) →
      (∀ m ∈ members, Value reals depth m.text m.json) →
      Value reals (depth + 1)
        ('{' :: (w ++ List.intercalate [','] (members.map Member.padded)) ++ ['}'])
        (.object (entries members))

/-- A text, blanks around it allowed, and the value it denotes. -/
def Denotes (reals : Bool) (depth : Nat) (text : List Char) (j : Json) : Prop :=
  ∃ before core after, Blank before ∧ Blank after ∧ text = before ++ core ++ after ∧
    Value reals depth core j

/-- A parser of JSON: it accepts nothing but JSON texts, and all of those without reals that
nest at most `limit` deep. -/
structure Parses {ε : Type} (limit : Nat) (fromJson : List Char → Except ε Json) : Prop where
  denotes : ∀ {text j}, fromJson text = .ok j → ∃ depth, Denotes true depth text j
  accepts : ∀ {text j}, Denotes false limit text j → fromJson text = .ok j

/-! ## Heads of texts -/

/-- A character that a value starts with. -/
def isFirst (c : Char) : Bool :=
  c = 'n' || c = 't' || c = 'f' || c = '"' || c = '[' || c = '{' || c = '-' || c.isDigit

theorem isSpace_of_isFirst {c : Char} (h : isFirst c = true) : isSpace c = false := by
  cases hspace : isSpace c with
  | false => rfl
  | true =>
    simp only [isSpace, Bool.or_eq_true, decide_eq_true_eq] at hspace
    obtain ((rfl | rfl) | rfl) | rfl := hspace <;> exact absurd h (by decide)

theorem decimal_cons (i : Int) :
    ∃ c u, Text.decimal i = c :: u ∧ (c.isDigit ∨ c = '-') := by
  unfold Text.decimal
  split
  · exact ⟨'-', _, rfl, .inr rfl⟩
  · obtain ⟨c, u, hcons⟩ := List.exists_cons_of_ne_nil (Nat.toDigits_ne_nil (n := i.natAbs) (b := 10))
    exact ⟨c, u, hcons, .inl (Text.isDigit_of_mem_digits (by rw [hcons]; exact List.mem_cons_self))⟩

theorem isFirst_of_first {c : Char} (h : c.isDigit ∨ c = '-') : isFirst c = true := by
  rcases h with h | rfl
  · simp [isFirst, h]
  · rfl

theorem Value.cons {reals : Bool} {depth : Nat} {t : List Char} {j : Json}
    (h : Value reals depth t j) : ∃ c u, t = c :: u ∧ isFirst c = Bool.true := by
  cases h with
  | null => exact ⟨_, _, rfl, rfl⟩
  | true => exact ⟨_, _, rfl, rfl⟩
  | false => exact ⟨_, _, rfl, rfl⟩
  | int h =>
    obtain ⟨c, u, hcons, hc⟩ := decimal_cons _
    exact ⟨c, u, hcons, isFirst_of_first hc⟩
  | float _ hc _ => exact ⟨_, _, rfl, isFirst_of_first hc⟩
  | string _ => exact ⟨_, _, rfl, rfl⟩
  | array _ _ _ => exact ⟨_, _, rfl, rfl⟩
  | object _ _ _ _ => exact ⟨_, _, rfl, rfl⟩

/-! ## Brackets and quotes of a text -/

/-- Semicolons are not found outside of quotes, nor commas outside of brackets. -/
def barred (top : Bool) (c : Char) : Bool := c = ';' || top && c = ','

theorem barred_le (c : Char) (h : barred false c = true) : barred true c = true := by
  simp only [barred, Bool.false_and, Bool.or_false] at h
  simp [barred, h]

open Brackets

theorem Blank.clean {w : List Char} (h : Blank w) : Clean barred w := by
  refine .of_plain fun c hc => ?_
  have hspace := h c hc
  simp only [isSpace, Bool.or_eq_true, decide_eq_true_eq] at hspace
  obtain ((rfl | rfl) | rfl) | rfl := hspace <;> simp [Plain, barred]

theorem clean_of_isNumeric {c : Char} (h : isNumeric c = true) : Plain c ∧ barred true c = false := by
  have hnot {d : Char} (hd : isNumeric d = false) : c ≠ d := by
    rintro rfl
    rw [hd] at h
    cases h
  refine ⟨⟨hnot (by decide), hnot (by decide), hnot (by decide), hnot (by decide),
    hnot (by decide)⟩, ?_⟩
  simp [barred, hnot (d := ';') (by decide), hnot (d := ',') (by decide)]

theorem isNumeric_of_first {c : Char} (h : c.isDigit ∨ c = '-') : isNumeric c = true := by
  rcases h with h | rfl
  · simp [isNumeric, h]
  · rfl

theorem isNumeric_of_mem_decimal {i : Int} {c : Char} (h : c ∈ Text.decimal i) :
    isNumeric c = true := by
  have hdigit (hc : c ∈ Nat.toDigits 10 i.natAbs) : isNumeric c = true := by
    simp [isNumeric, Text.isDigit_of_mem_digits hc]
  unfold Text.decimal at h
  split at h
  · rcases List.mem_cons.mp h with rfl | h
    · rfl
    · exact hdigit h
  · exact hdigit h

theorem decimal_ne_nil (i : Int) : Text.decimal i ≠ [] := by
  unfold Text.decimal
  split
  · exact List.cons_ne_nil _ _
  · exact Nat.toDigits_ne_nil

theorem step_quoted (barred : Bool → Char → Bool) {c : Char} (h₁ : c ≠ '"') (h₂ : c ≠ '\\') :
    step barred (.within []) c = some (.within []) := by
  simp [step, Level.within, h₁, h₂]

theorem hexDigit_plain {c : Char} {n : Nat} (h : hexDigit c = some n) : c ≠ '"' ∧ c ≠ '\\' := by
  constructor <;> rintro rfl <;> simp [hexDigit] at h

theorem hex4_digits {a b c d : Char} {n : Nat} (h : hex4 a b c d = some n) :
    ∃ w x y z, hexDigit a = some w ∧ hexDigit b = some x ∧ hexDigit c = some y ∧
      hexDigit d = some z := by
  simp only [hex4, Option.bind_eq_bind, Option.bind_eq_some_iff] at h
  obtain ⟨w, hw, x, hx, y, hy, z, hz, -⟩ := h
  exact ⟨w, x, y, z, hw, hx, hy, hz⟩

theorem run_unicode (barred : Bool → Char → Bool) {a b c d : Char} {n : Nat}
    (h : hex4 a b c d = some n) (t : List Char) :
    run barred (.within []) ('\\' :: 'u' :: a :: b :: c :: d :: t) = run barred (.within []) t := by
  obtain ⟨w, x, y, z, ha, hb, hc, hd⟩ := hex4_digits h
  rw [run_cons]
  change run barred ⟨[], .true, .true⟩ ('u' :: a :: b :: c :: d :: t) = _
  rw [run_cons]
  change run barred (.within []) (a :: b :: c :: d :: t) = _
  simp only [run_cons, step_quoted barred (hexDigit_plain ha).1 (hexDigit_plain ha).2,
    step_quoted barred (hexDigit_plain hb).1 (hexDigit_plain hb).2,
    step_quoted barred (hexDigit_plain hc).1 (hexDigit_plain hc).2,
    step_quoted barred (hexDigit_plain hd).1 (hexDigit_plain hd).2, Option.bind_some]

theorem Body.run {t s : List Char} (h : Body t s) (barred : Bool → Char → Bool) :
    Brackets.run barred (.within []) t = some (.within []) := by
  induction h with
  | nil => rfl
  | plain h₁ h₂ _ _ ih =>
    rw [run_cons, step_quoted barred h₁ h₂]
    exact ih
  | escape _ _ _ ih =>
    rw [run_cons]
    change Brackets.run barred ⟨[], .true, .true⟩ _ = _
    rw [run_cons]
    exact ih
  | unicode h _ _ _ ih => rw [run_unicode barred h, ih]
  | pair h _ h' _ _ ih => rw [run_unicode barred h, run_unicode barred h', ih]

theorem Body.clean {t s : List Char} (h : Body t s) : Clean barred ('"' :: t ++ ['"']) :=
  .quoted (h.run barred)

theorem plain_comma : Plain ',' := by simp [Plain]

theorem Item.Spaced.clean {i : Item} (h : i.Spaced) (ht : Clean barred i.text) :
    Clean barred i.padded :=
  (h.before.clean.append ht).append h.after.clean

theorem Member.Spaced.clean {m : Member} (h : m.Spaced) (hkey : Body m.keyText m.key)
    (ht : Clean barred m.text) : Clean barred m.padded := by
  have hcolon : Clean barred [':'] := rfl
  exact (((h.keyBefore.clean.append hkey.clean).append h.keyAfter.clean).append
    (hcolon.append (h.toSpaced.clean ht)))

/-- Clean texts with commas between them in brackets are clean. -/
theorem clean_enclosed {o c : Char} (ho : o = '[' ∧ c = ']' ∨ o = '{' ∧ c = '}') {w : List Char}
    (hw : Blank w) {texts : List (List Char)} (h : ∀ t ∈ texts, Clean barred t) :
    Clean barred (o :: (w ++ List.intercalate [','] texts) ++ [c]) := by
  refine .enclosed ho ?_
  rw [run_append, hw.clean.run barred_le, Option.bind_some]
  exact run_separated barred_le plain_comma rfl h o []

/-- A JSON text closes what it opens; it has no semicolon, and no comma at the top. -/
theorem Value.clean {reals : Bool} {depth : Nat} {t : List Char} {j : Json}
    (h : Value reals depth t j) : Clean barred t := by
  induction h with
  | null => rfl
  | true => rfl
  | false => rfl
  | int _ => exact .of_plain fun _ hc => clean_of_isNumeric (isNumeric_of_mem_decimal hc)
  | float _ hc ht =>
    refine .of_plain fun d hd => clean_of_isNumeric ?_
    rcases List.mem_cons.mp hd with rfl | hd
    · exact isNumeric_of_first hc
    · exact ht d hd
  | string h => exact h.clean
  | array hw hspaced _ ih =>
    refine clean_enclosed (.inl ⟨rfl, rfl⟩) hw fun t ht => ?_
    obtain ⟨i, hi, rfl⟩ := List.mem_map.mp ht
    exact (hspaced i hi).clean (ih i hi)
  | object hw hspaced hkeys _ ih =>
    refine clean_enclosed (.inr ⟨rfl, rfl⟩) hw fun t ht => ?_
    obtain ⟨m, hm, rfl⟩ := List.mem_map.mp ht
    exact (hspaced m hm).clean (hkeys m hm) (ih m hm)

theorem Denotes.clean {reals : Bool} {depth : Nat} {t : List Char} {j : Json}
    (h : Denotes reals depth t j) : Clean barred t := by
  obtain ⟨before, core, after, hbefore, hafter, rfl, hcore⟩ := h
  exact (hbefore.clean.append hcore.clean).append hafter.clean

/-! ## Inversion -/

theorem isSpace_isWhitespace {c : Char} (h : isSpace c = true) : Text.isWhitespace c = true := by
  simp only [isSpace, Bool.or_eq_true, decide_eq_true_eq] at h
  obtain ((rfl | rfl) | rfl) | rfl := h <;> rfl

theorem isWhitespace_of_isNumeric {c : Char} (h : isNumeric c = true) :
    Text.isWhitespace c = false := by
  simp only [isNumeric, Bool.or_eq_true, decide_eq_true_eq] at h
  obtain ((((h | rfl) | rfl) | rfl) | rfl) | rfl := h
  · simp only [Char.isDigit, Bool.and_eq_true, decide_eq_true_eq] at h
    have h₁ : 48 ≤ c.toNat := h.1
    have h₂ : c.toNat ≤ 57 := h.2
    simp only [Text.isWhitespace, Bool.or_eq_false_iff, Bool.and_eq_false_iff,
      decide_eq_false_iff_not]
    omega
  all_goals rfl

theorem tight_of_isNumeric {t : List Char} (h : ∀ c ∈ t, isNumeric c = true) : Text.Tight t :=
  ⟨fun c hc => isWhitespace_of_isNumeric (h c (List.mem_of_mem_head? hc)),
    fun c hc => isWhitespace_of_isNumeric (h c (List.mem_of_mem_getLast? hc))⟩

theorem tight_enclosed {o c : Char} (ho : Text.isWhitespace o = false)
    (hc : Text.isWhitespace c = false) (t : List Char) : Text.Tight (o :: t ++ [c]) := by
  constructor
  · intro d hd
    obtain rfl : o = d := Option.some.inj hd
    exact ho
  · intro d hd
    rw [List.getLast?_concat] at hd
    cases hd
    exact hc

theorem Value.tight {reals : Bool} {depth : Nat} {t : List Char} {j : Json}
    (h : Value reals depth t j) : Text.Tight t := by
  cases h with
  | null => exact tight_enclosed (o := 'n') (c := 'l') rfl rfl ['u', 'l']
  | true => exact tight_enclosed (o := 't') (c := 'e') rfl rfl ['r', 'u']
  | false => exact tight_enclosed (o := 'f') (c := 'e') rfl rfl ['a', 'l', 's']
  | int _ => exact tight_of_isNumeric fun _ => isNumeric_of_mem_decimal
  | float _ hc ht =>
    exact tight_of_isNumeric (List.forall_mem_cons.mpr ⟨isNumeric_of_first hc, ht⟩)
  | string _ => exact tight_enclosed rfl rfl _
  | array _ _ _ => exact tight_enclosed rfl rfl _
  | object _ _ _ _ => exact tight_enclosed rfl rfl _

/-- A text that denotes a value, once it is trimmed. -/
theorem Denotes.value {reals : Bool} {depth : Nat} {t : List Char} {j : Json}
    (h : Denotes reals depth t j) : Value reals depth (Text.trimChars t) j := by
  obtain ⟨before, core, after, hbefore, hafter, rfl, hcore⟩ := h
  rw [Text.trimChars_eq before core after (fun c hc => isSpace_isWhitespace (hbefore c hc))
    (fun c hc => isSpace_isWhitespace (hafter c hc)) hcore.tight]
  exact hcore

theorem Value.denotes {reals : Bool} {depth : Nat} {t : List Char} {j : Json}
    (h : Value reals depth t j) : Denotes reals depth t j :=
  ⟨[], t, [], by simp [Blank], by simp [Blank], by simp, h⟩

/-- Another value of the same text, without the blanks around it. -/
theorem Denotes.of_value {reals reals' : Bool} {depth depth' : Nat} {t : List Char} {j j' : Json}
    (h : Denotes reals depth t j) (h' : Value reals' depth' (Text.trimChars t) j') :
    Denotes reals' depth' t j' := by
  obtain ⟨before, core, after, hbefore, hafter, rfl, hvalue⟩ := h
  rw [Text.trimChars_eq before core after (fun c hc => isSpace_isWhitespace (hbefore c hc))
    (fun c hc => isSpace_isWhitespace (hafter c hc)) hvalue.tight] at h'
  exact ⟨before, core, after, hbefore, hafter, rfl, h'⟩

theorem Value.emptyArray {reals : Bool} {depth : Nat} {w : List Char} (hw : Blank w) :
    Value reals (depth + 1) ('[' :: w ++ [']']) (.array []) := by
  have h : Value reals (depth + 1)
      ('[' :: (w ++ List.intercalate [','] (([] : List Item).map Item.padded)) ++ [']'])
      (.array (([] : List Item).map (·.json))) :=
    .array hw (fun _ hi => nomatch hi) fun _ hi => nomatch hi
  simpa using h

theorem Value.emptyObject {reals : Bool} {depth : Nat} {w : List Char} (hw : Blank w) :
    Value reals (depth + 1) ('{' :: w ++ ['}']) (.object []) := by
  have h : Value reals (depth + 1)
      ('{' :: (w ++ List.intercalate [','] (([] : List Member).map Member.padded)) ++ ['}'])
      (.object (entries [])) :=
    .object hw (fun _ hm => nomatch hm) (fun _ hm => nomatch hm) fun _ hm => nomatch hm
  simpa [entries] using h

theorem Value.singleton {reals : Bool} {depth : Nat} {t : List Char} {j : Json}
    (h : Denotes reals depth t j) : Value reals (depth + 1) ('[' :: t ++ [']']) (.array [j]) := by
  obtain ⟨before, core, after, hbefore, hafter, rfl, hcore⟩ := h
  have h : Value reals (depth + 1)
      ('[' :: ([] ++ List.intercalate [','] ([Item.mk before core after j].map Item.padded)) ++ [']'])
      (.array ([Item.mk before core after j].map (·.json))) :=
    .array (by simp [Blank]) (by simpa using ⟨hbefore, hafter⟩) (by simpa using hcore)
  simpa [Item.padded] using h

theorem Value.mono {reals : Bool} {depth depth' : Nat} (hle : depth ≤ depth') {t : List Char}
    {j : Json} (h : Value reals depth t j) : Value reals depth' t j := by
  induction h generalizing depth' with
  | null => exact .null
  | true => exact .true
  | false => exact .false
  | int h => exact .int h
  | float h hc ht => exact .float h hc ht
  | string h => exact .string h
  | array hw hspaced _ ih =>
    obtain ⟨d, rfl⟩ := Nat.exists_eq_add_of_le' (Nat.le_of_add_left_le hle)
    exact .array hw hspaced fun i hi => ih i hi (Nat.le_of_succ_le_succ hle)
  | object hw hspaced hkeys _ ih =>
    obtain ⟨d, rfl⟩ := Nat.exists_eq_add_of_le' (Nat.le_of_add_left_le hle)
    exact .object hw hspaced hkeys fun m hm => ih m hm (Nat.le_of_succ_le_succ hle)

theorem Denotes.mono {reals : Bool} {depth depth' : Nat} (hle : depth ≤ depth') {t : List Char}
    {j : Json} (h : Denotes reals depth t j) : Denotes reals depth' t j := by
  obtain ⟨before, core, after, hbefore, hafter, htext, hcore⟩ := h
  exact ⟨before, core, after, hbefore, hafter, htext, hcore.mono hle⟩

theorem decimal_ne_cons {i : Int} {c : Char} {t : List Char} (hc : c.isDigit = false)
    (hc' : c ≠ '-') : Text.decimal i ≠ c :: t := by
  obtain ⟨d, u, hcons, hd⟩ := decimal_cons i
  rw [hcons]
  rintro h
  cases h
  rcases hd with hd | hd
  · rw [hc] at hd
    cases hd
  · exact hc' hd

/-- A text that opens a bracket denotes an array. -/
theorem Value.of_bracket {reals : Bool} {depth : Nat} {t : List Char} {j : Json}
    (h : Value reals depth ('[' :: t) j) :
    ∃ (d : Nat) (w : List Char) (items : List Item), depth = d + 1 ∧ t = w ++ List.intercalate [','] (items.map Item.padded) ++ [']'] ∧
      j = .array (items.map (·.json)) ∧ Blank w ∧ (∀ i ∈ items, i.Spaced) ∧
      ∀ i ∈ items, Value reals d i.text i.json := by
  generalize htext : '[' :: t = text at h
  cases h with
  | int _ => exact absurd htext.symm (decimal_ne_cons (by decide) (by decide))
  | float _ hc _ =>
    cases htext
    exact absurd hc (by decide)
  | @array d w items hw hspaced hitems =>
    rw [List.cons_append, List.cons.injEq] at htext
    exact ⟨d, w, items, rfl, htext.2, rfl, hw, hspaced, hitems⟩
  | _ => cases htext

/-- In braces a text that denotes a value starts with a quote, or is blank. -/
theorem Value.of_brace {reals : Bool} {depth : Nat} {t : List Char} {j : Json}
    (h : Value reals depth ('{' :: t) j) :
    ∃ w c u, Blank w ∧ t = w ++ c :: u ∧ (c = '"' ∨ c = '}') := by
  generalize htext : '{' :: t = text at h
  cases h with
  | int _ => exact absurd htext.symm (decimal_ne_cons (by decide) (by decide))
  | float _ hc _ =>
    cases htext
    exact absurd hc (by decide)
  | @object d w members hw hspaced hkeys hitems =>
    rw [List.cons_append, List.cons.injEq] at htext
    cases members with
    | nil => exact ⟨w, '}', [], hw, by simpa using htext.2, .inr rfl⟩
    | cons m members =>
      have hm := (hspaced m List.mem_cons_self).keyBefore
      have hblank : Blank (w ++ m.keyBefore) :=
        fun c hc => (List.mem_append.mp hc).elim (hw c) (hm c)
      have hpadded : ∃ u, List.intercalate [','] ((m :: members).map Member.padded) ++ ['}'] =
          m.keyBefore ++ '"' :: u := by
        cases members with
        | nil => exact ⟨_, by simp [Member.padded]; rfl⟩
        | cons m' members => exact ⟨_, by simp [Member.padded, List.intercalate_cons_cons]; rfl⟩
      obtain ⟨u, hu⟩ := hpadded
      exact ⟨w ++ m.keyBefore, '"', u, hblank, by rw [htext.2, List.append_assoc, hu,
        List.append_assoc], .inl rfl⟩
  | _ => cases htext

/-- The words that are JSON. -/
def literals : List (List Char) := [['n', 'u', 'l', 'l'], ['t', 'r', 'u', 'e'],
  ['f', 'a', 'l', 's', 'e']]

/-- A text that starts with a letter denotes a value only as a literal word. -/
theorem Value.of_letter {reals : Bool} {depth : Nat} {c : Char} {t : List Char} {j : Json}
    (hc : c.isAlpha ∨ c = '_') (h : Value reals depth (c :: t) j) :
    c :: t ∈ literals ∧ ∀ s, j ≠ .string s := by
  have hdigit : c.isDigit = Bool.false ∧ c ≠ '-' ∧ c ≠ '"' ∧ c ≠ '[' ∧ c ≠ '{' := by
    rcases hc with hc | rfl
    · refine ⟨?_, ?_, ?_, ?_, ?_⟩
      · change (decide (c.val ≥ 'A'.val ∧ c.val ≤ 'Z'.val) ||
          (decide (c.val ≥ 'a'.val) && decide (c.val ≤ 'z'.val))) = Bool.true at hc
        simp only [Bool.or_eq_true, Bool.and_eq_true, decide_eq_true_eq, ge_iff_le,
          UInt32.le_iff_toNat_le] at hc
        simp only [Char.isDigit, Bool.and_eq_false_iff, decide_eq_false_iff_not, ge_iff_le,
          UInt32.le_iff_toNat_le]
        have h₀ : '0'.val.toNat = 48 ∧ '9'.val.toNat = 57 := by decide
        have h₁ : 'A'.val.toNat = 65 ∧ 'a'.val.toNat = 97 := by decide
        omega
      all_goals
        rintro rfl
        exact absurd hc (by decide)
    · decide
  generalize htext : c :: t = text at h
  cases h with
  | null => exact ⟨by simp [literals], by simp⟩
  | true => exact ⟨by simp [literals], by simp⟩
  | false => exact ⟨by simp [literals], by simp⟩
  | int _ => exact absurd htext.symm (decimal_ne_cons hdigit.1 hdigit.2.1)
  | float _ hd _ =>
    cases htext
    rcases hd with hd | hd
    · rw [hdigit.1] at hd
      cases hd
    · exact absurd hd hdigit.2.1
  | string _ =>
    cases htext
    exact absurd rfl hdigit.2.2.1
  | array _ _ _ =>
    cases htext
    exact absurd rfl hdigit.2.2.2.1
  | object _ _ _ _ =>
    cases htext
    exact absurd rfl hdigit.2.2.2.2

end Json
