import OpenLustre.Lib.JsonReader
import OpenLustre.Sim.InputText

/-! The texts that spell a value, as JSON or in brackets, and that they are read back. -/

namespace OpenLustre.Simulator

open OpenLustre.Ir Brackets

/-- Commas and semicolons separate, outside of brackets. -/
def separator (top : Bool) (c : Char) : Bool := top && (c = ',' || c = ';')

def isIdentifier (name : List Char) : Bool :=
  (name.head?.any fun c => c.isAlpha || c = '_') && name.all fun c => c.isAlphanum || c = '_'

/-- A character of a word: no bracket, quote, separator, equals sign or white space. -/
def isWordChar (c : Char) : Bool :=
  c ≠ '"' && c ≠ '[' && c ≠ '{' && c ≠ ']' && c ≠ '}' && c ≠ ',' && c ≠ ';' && c ≠ '=' &&
    !Text.isWhitespace c

def isWord (name : List Char) : Bool := !name.isEmpty && name.all isWordChar

/-- The simulator value that a JSON value stands for. -/
inductive Denoted : Json → Value → Prop
  | bool {b : Bool} : Denoted (.bool b) (.bool b)
  | int {i : Int} : Denoted (.int i) (.int i)
  | enum {variant : String} : Denoted (.string variant) (.enum variant)
  | array {items : List (Json × Value)} : (∀ x ∈ items, Denoted x.1 x.2) →
      Denoted (.array (items.map (·.1))) (.array (items.map (·.2)))
  | object {entries : List (String × Json)} {m : List (String × Value)} :
      (∀ k, k ∈ entries.map (·.1) ↔ (m.lookup k).isSome) →
      (∀ k j, (k, j) ∈ entries → ∀ v, m.lookup k = some v → Denoted j v) →
      Denoted (.object entries) (.record m)

/-- A field of a struct in brackets. -/
structure FieldText where
  key : List Char
  name : String
  raw : List Char
  value : Value

def FieldText.text (f : FieldText) : List Char := f.key ++ '=' :: f.raw

/-- A bare enum variant that is JSON. -/
def Ambiguous (raw : List Char) (v : Value) : Prop :=
  ∃ variant : String, v = .enum variant ∧ Text.trimChars raw = variant.toList ∧
    variant.toList ∈ Json.literals

/-- A text that spells a value: a JSON text, a bare variant of an enum, or an array or a
struct in brackets, whose parts spell values again.  Brackets nest at most `depth` deep.
When `strict`, a bare variant that is JSON is not alone in an array. -/
inductive Written (strict : Bool) : Nat → List Char → Value → Prop
  | json {depth : Nat} {raw : List Char} {j : Json} {v : Value} :
      Json.Denotes false depth raw j → Denoted j v → Written strict depth raw v
  | variant {depth : Nat} {raw : List Char} {variant : String} :
      isIdentifier variant.toList → Text.trimChars raw = variant.toList →
      Written strict depth raw (.enum variant)
  | emptyArray {depth : Nat} {raw w : List Char} : (∀ c ∈ w, Text.isWhitespace c = true) →
      Text.trimChars raw = '[' :: w ++ [']'] → Written strict (depth + 1) raw (.array [])
  | array {depth : Nat} {raw : List Char} {items : List (List Char × Value)} : items ≠ [] →
      Text.trimChars raw = '[' :: List.intercalate [';'] (items.map (·.1)) ++ [']'] →
      (∀ x ∈ items, Written strict depth x.1 x.2) →
      (strict = true → ∀ x, items = [x] → ¬Ambiguous x.1 x.2) →
      Written strict (depth + 1) raw (.array (items.map (·.2)))
  | emptyRecord {depth : Nat} {raw w : List Char} : (∀ c ∈ w, Text.isWhitespace c = true) →
      Text.trimChars raw = '{' :: w ++ ['}'] → Written strict (depth + 1) raw (.record [])
  | record {depth : Nat} {raw : List Char} {fields : List FieldText}
      {m : List (String × Value)} : fields ≠ [] →
      Text.trimChars raw = '{' :: List.intercalate [';'] (fields.map (·.text)) ++ ['}'] →
      (∀ f ∈ fields, isWord f.name.toList ∧ Text.trimChars f.key = f.name.toList) →
      (fields.map (·.name)).Nodup → (∀ f ∈ fields, m.lookup f.name = some f.value) →
      (∀ k, (m.lookup k).isSome → k ∈ fields.map (·.name)) →
      (∀ f ∈ fields, Written strict depth f.raw f.value) → Written strict (depth + 1) raw (.record m)

/-! ## Texts that spell a value are clean -/

theorem separator_le (c : Char) (h : separator false c = true) : separator true c = true := by
  simp [separator] at h

theorem clean_of_json {t : List Char} (h : Clean Json.barred t) : Clean separator t := by
  refine run_mono (fun top c hc => ?_) h
  simp only [separator, Bool.and_eq_true, Bool.or_eq_true, decide_eq_true_eq] at hc
  obtain ⟨rfl, rfl | rfl⟩ := hc <;> rfl

theorem plain_of_isWhitespace {c : Char} (h : Text.isWhitespace c = true) :
    Plain c ∧ separator true c = false := by
  have hne {d : Char} (hd : Text.isWhitespace d = false) : c ≠ d := by
    rintro rfl
    rw [hd] at h
    cases h
  refine ⟨⟨hne (by decide), hne (by decide), hne (by decide), hne (by decide),
    hne (by decide)⟩, ?_⟩
  simp [separator, hne (d := ',') (by decide), hne (d := ';') (by decide)]

theorem plain_of_isWordChar {c : Char} (h : isWordChar c = true) :
    Plain c ∧ separator true c = false ∧ c ≠ '=' ∧ Text.isWhitespace c = false := by
  simp only [isWordChar, Bool.and_eq_true, decide_eq_true_eq, Bool.not_eq_true', ne_eq] at h
  obtain ⟨⟨⟨⟨⟨⟨⟨⟨h₁, h₂⟩, h₃⟩, h₄⟩, h₅⟩, h₆⟩, h₇⟩, h₈⟩, h₉⟩ := h
  exact ⟨⟨h₁, h₂, h₃, h₄, h₅⟩, by simp [separator, h₆, h₇], h₈, h₉⟩

theorem alphanum_code {c : Char} (h : c.isAlphanum = true) : 48 ≤ c.toNat ∧ c.toNat ≤ 122 := by
  change ((decide (c.val ≥ 'A'.val ∧ c.val ≤ 'Z'.val) ||
    (decide (c.val ≥ 'a'.val) && decide (c.val ≤ 'z'.val))) ||
      (decide (c.val ≥ '0'.val) && decide (c.val ≤ '9'.val))) = true at h
  simp only [Bool.or_eq_true, Bool.and_eq_true, decide_eq_true_eq, ge_iff_le,
    UInt32.le_iff_toNat_le] at h
  have h₀ : '0'.val.toNat = 48 ∧ '9'.val.toNat = 57 ∧ 'A'.val.toNat = 65 := by decide
  have h₁ : 'Z'.val.toNat = 90 ∧ 'a'.val.toNat = 97 ∧ 'z'.val.toNat = 122 := by decide
  have hval : c.toNat = c.val.toNat := rfl
  omega

theorem isWordChar_of_identifier {c : Char} (h : (c.isAlphanum || c = '_') = true) :
    isWordChar c = true := by
  have hne {d : Char} (hd : (d.isAlphanum || d = '_') = false) : c ≠ d := by
    rintro rfl
    rw [hd] at h
    cases h
  have hspace : Text.isWhitespace c = false := by
    cases hc : Text.isWhitespace c with
    | false => rfl
    | true =>
      have hcode : 48 ≤ c.toNat ∧ c.toNat ≤ 122 := by
        simp only [Bool.or_eq_true, decide_eq_true_eq] at h
        rcases h with h | rfl
        · exact alphanum_code h
        · decide
      simp only [Text.isWhitespace, Bool.or_eq_true, Bool.and_eq_true, decide_eq_true_eq] at hc
      omega
  simp [isWordChar, hspace, hne (d := '"') (by decide), hne (d := '[') (by decide),
    hne (d := '{') (by decide), hne (d := ']') (by decide), hne (d := '}') (by decide),
    hne (d := ',') (by decide), hne (d := ';') (by decide), hne (d := '=') (by decide)]

theorem isWord_of_isIdentifier {name : List Char} (h : isIdentifier name = true) :
    isWord name = true := by
  simp only [isIdentifier, Bool.and_eq_true, List.all_eq_true] at h
  simp only [isWord, Bool.and_eq_true, List.all_eq_true, Bool.not_eq_true']
  refine ⟨?_, fun c hc => isWordChar_of_identifier (h.2 c hc)⟩
  cases name with
  | nil => exact absurd h.1 Bool.false_ne_true
  | cons c name => rfl

theorem tight_of_isWord {name : List Char} (h : isWord name = true) : Text.Tight name := by
  simp only [isWord, Bool.and_eq_true, List.all_eq_true] at h
  exact ⟨fun c hc => (plain_of_isWordChar (h.2 c (List.mem_of_mem_head? hc))).2.2.2,
    fun c hc => (plain_of_isWordChar (h.2 c (List.mem_of_mem_getLast? hc))).2.2.2⟩

theorem clean_of_isWord {name : List Char} (h : isWord name = true) : Clean separator name := by
  simp only [isWord, Bool.and_eq_true, List.all_eq_true] at h
  exact .of_plain fun c hc => ⟨(plain_of_isWordChar (h.2 c hc)).1,
    (plain_of_isWordChar (h.2 c hc)).2.1⟩

theorem clean_of_blank {w : List Char} (h : ∀ c ∈ w, Text.isWhitespace c = true) :
    Clean separator w := .of_plain fun c hc => plain_of_isWhitespace (h c hc)

/-- White space around a text changes nothing. -/
theorem clean_of_trim {raw : List Char} (h : Clean separator (Text.trimChars raw)) :
    Clean separator raw := by
  obtain ⟨before, after, hbefore, hafter, heq, -⟩ := Text.trimChars_spec raw
  rw [heq]
  exact ((clean_of_blank hbefore).append h).append (clean_of_blank hafter)

theorem plain_semicolon : Plain ';' := by simp [Plain]

theorem FieldText.clean {f : FieldText} (hname : isWord f.name.toList = true)
    (hkey : Text.trimChars f.key = f.name.toList) (h : Clean separator f.raw) :
    Clean separator f.text := by
  have hclean : Clean separator f.key := clean_of_trim (hkey ▸ clean_of_isWord hname)
  have heq : Clean separator ['='] := rfl
  exact hclean.append (heq.append h)

theorem Written.clean {strict : Bool} {depth : Nat} {raw : List Char} {v : Value} (h : Written strict depth raw v) :
    Clean separator raw := by
  induction h with
  | json h _ => exact clean_of_json h.clean
  | variant hident htrim =>
    exact clean_of_trim (htrim ▸ clean_of_isWord (isWord_of_isIdentifier hident))
  | emptyArray hw htrim =>
    refine clean_of_trim (htrim ▸ .enclosed (.inl ⟨rfl, rfl⟩) ?_)
    exact (clean_of_blank hw).run separator_le _
  | array _ htrim _ _ ih =>
    refine clean_of_trim (htrim ▸ .enclosed (.inl ⟨rfl, rfl⟩) ?_)
    refine run_separated separator_le plain_semicolon rfl (fun t ht => ?_) _ _
    obtain ⟨x, hx, rfl⟩ := List.mem_map.mp ht
    exact ih x hx
  | emptyRecord hw htrim =>
    refine clean_of_trim (htrim ▸ .enclosed (.inr ⟨rfl, rfl⟩) ?_)
    exact (clean_of_blank hw).run separator_le _
  | record _ htrim hnames _ _ _ _ ih =>
    refine clean_of_trim (htrim ▸ .enclosed (.inr ⟨rfl, rfl⟩) ?_)
    refine run_separated separator_le plain_semicolon rfl (fun t ht => ?_) _ _
    obtain ⟨f, hf, rfl⟩ := List.mem_map.mp ht
    exact FieldText.clean (hnames f hf).1 (hnames f hf).2 (ih f hf)

theorem Written.trim_ne_nil {strict : Bool} {depth : Nat} {raw : List Char} {v : Value} (h : Written strict depth raw v) :
    Text.trimChars raw ≠ [] := by
  cases h with
  | json h _ =>
    obtain ⟨c, u, hcons, -⟩ := h.value.cons
    rw [hcons]
    exact List.cons_ne_nil _ _
  | variant hident htrim =>
    rw [htrim]
    rintro hnil
    rw [hnil] at hident
    cases hident
  | emptyArray _ htrim => rw [htrim]; simp
  | array _ htrim _ _ => rw [htrim]; simp
  | emptyRecord _ htrim => rw [htrim]; simp
  | record _ htrim _ _ _ _ _ => rw [htrim]; simp

theorem Written.trim {strict : Bool} {depth : Nat} {raw : List Char} {v : Value} (h : Written strict depth raw v) :
    Written strict depth (Text.trimChars raw) v := by
  have htrim := Text.trimChars_trimChars raw
  cases h with
  | json h hv => exact .json h.value.denotes hv
  | variant hident h => exact .variant hident (htrim.trans h)
  | emptyArray hw h => exact .emptyArray hw (htrim.trans h)
  | array hne h hall hamb => exact .array hne (htrim.trans h) hall hamb
  | emptyRecord hw h => exact .emptyRecord hw (htrim.trans h)
  | record hne h hnames hnodup hlookup hkeys hall =>
    exact .record hne (htrim.trans h) hnames hnodup hlookup hkeys hall

theorem Written.mono {strict : Bool} {depth depth' : Nat} (hle : depth ≤ depth') {raw : List Char}
    {v : Value} (h : Written strict depth raw v) : Written strict depth' raw v := by
  induction h generalizing depth' with
  | json h hv => exact .json (h.mono hle) hv
  | variant hident h => exact .variant hident h
  | emptyArray hw h =>
    obtain ⟨d, rfl⟩ := Nat.exists_eq_add_of_le' (Nat.le_of_add_left_le hle)
    exact .emptyArray hw h
  | array hne h _ hamb ih =>
    obtain ⟨d, rfl⟩ := Nat.exists_eq_add_of_le' (Nat.le_of_add_left_le hle)
    exact .array hne h (fun x hx => ih x hx (Nat.le_of_succ_le_succ hle)) hamb
  | emptyRecord hw h =>
    obtain ⟨d, rfl⟩ := Nat.exists_eq_add_of_le' (Nat.le_of_add_left_le hle)
    exact .emptyRecord hw h
  | record hne h hnames hnodup hlookup hkeys _ ih =>
    obtain ⟨d, rfl⟩ := Nat.exists_eq_add_of_le' (Nat.le_of_add_left_le hle)
    exact .record hne h hnames hnodup hlookup hkeys
      fun f hf => ih f hf (Nat.le_of_succ_le_succ hle)

/-- An array in brackets whose elements are spelled by one function. -/
theorem Written.of_elements {strict : Bool} {depth : Nat} {raw : List Char}
    (text : Value → List Char) {xs : List Value} (hne : xs ≠ [])
    (htrim : Text.trimChars raw = '[' :: List.intercalate [';'] (xs.map text) ++ [']'])
    (hall : ∀ x ∈ xs, Written strict depth (text x) x)
    (hamb : strict = true → ∀ x, xs = [x] → ¬Ambiguous (text x) x) :
    Written strict (depth + 1) raw (.array xs) := by
  have hsnd : (xs.map fun x => (text x, x)).map (·.2) = xs := by
    rw [List.map_map]
    exact List.map_id xs
  have hfst : (xs.map fun x => (text x, x)).map (·.1) = xs.map text := by
    rw [List.map_map]
    rfl
  rw [← hsnd]
  refine .array (by simpa using hne) (by rw [hfst, htrim]) ?_ fun hs y hy => ?_
  · intro y hy
    obtain ⟨x, hx, rfl⟩ := List.mem_map.mp hy
    exact hall x hx
  · obtain ⟨x, rfl, rfl⟩ := List.map_eq_singleton_iff.mp hy
    exact hamb hs x rfl

/-! ## The scanner -/

theorem step_separator {s s' : Level} {c : Char} (h : step separator s c = some s') :
    (!s.quoted && s.stack.isEmpty && decide (c = ';')) = false ∧
      step (fun _ _ => false) s c = some s' := by
  constructor
  · by_contra hcond
    simp only [Bool.not_eq_false, Bool.and_eq_true, Bool.not_eq_true', decide_eq_true_eq] at hcond
    obtain ⟨⟨hquoted, hempty⟩, rfl⟩ := hcond
    simp [step, hquoted, hempty, separator] at h
  · refine step_mono ?_ h
    intro _ _ hfalse
    cases hfalse

theorem scanItems_run (path : String) {s s' : Level} {t : List Char}
    (h : run separator s t = some s') (item : List Char) (parts : List (List Char))
    (rest : List Char) :
    scanItems path s item parts (t ++ rest) = scanItems path s' (t.reverse ++ item) parts rest := by
  induction t generalizing s item with
  | nil =>
    cases h
    rfl
  | cons c t ih =>
    obtain ⟨mid, hstep, hrest⟩ := run_cons_eq_some h
    obtain ⟨hcond, hopen⟩ := step_separator hstep
    rw [List.cons_append, scanItems, hcond, hopen]
    simp only [Bool.false_eq_true, if_false]
    rw [ih hrest, List.reverse_cons, List.append_assoc]
    rfl

theorem scanItems_intercalate (path : String) {texts : List (List Char)} (hne : texts ≠ [])
    (h : ∀ t ∈ texts, Clean separator t) (parts : List (List Char)) :
    scanItems path (.outside []) [] parts (List.intercalate [';'] texts) =
      .ok (parts ++ texts.map Text.trimChars) := by
  induction texts generalizing parts with
  | nil => exact absurd rfl hne
  | cons t texts ih =>
    rw [List.forall_mem_cons] at h
    cases texts with
    | nil =>
      have hrun := scanItems_run path h.1 [] parts []
      rw [List.append_nil, List.append_nil] at hrun
      rw [List.intercalate_singleton, hrun]
      simp [scanItems, Level.outside]
    | cons u texts =>
      rw [List.intercalate_cons_cons, List.append_assoc, scanItems_run path h.1, List.singleton_append,
        scanItems]
      simp only [Level.outside, Bool.not_false, List.isEmpty_nil, Bool.and_true, decide_true,
        if_true, List.append_nil, List.reverse_reverse]
      change scanItems path (.outside []) [] _ _ = _
      rw [ih (List.cons_ne_nil _ _) h.2]
      simp

theorem trimChars_eq_nil {t : List Char} (h : Text.trimChars t = []) :
    ∀ c ∈ t, Text.isWhitespace c = true := by
  obtain ⟨before, after, hbefore, hafter, heq, -⟩ := Text.trimChars_spec t
  rw [h, List.append_nil] at heq
  rw [heq]
  exact fun c hc => (List.mem_append.mp hc).elim (hbefore c) (hafter c)

theorem trimChars_blank {w : List Char} (h : ∀ c ∈ w, Text.isWhitespace c = true) :
    Text.trimChars w = [] := by
  have := Text.trimChars_eq w [] [] h (by simp) (by simp [Text.Tight])
  simpa using this

/-- Clean texts with semicolons between them are split there. -/
theorem splitItems_intercalate (path : String) {texts : List (List Char)} (hne : texts ≠ [])
    (h : ∀ t ∈ texts, Clean separator t ∧ Text.trimChars t ≠ []) :
    splitItems (List.intercalate [';'] texts) path = .ok (texts.map Text.trimChars) := by
  have hsome : Text.trimChars (List.intercalate [';'] texts) ≠ [] := by
    intro hnil
    have hall := trimChars_eq_nil hnil
    obtain ⟨t, texts, rfl⟩ := List.exists_cons_of_ne_nil hne
    refine (h t List.mem_cons_self).2 (trimChars_blank fun c hc => hall c ?_)
    cases texts with
    | nil => simpa using hc
    | cons u texts =>
      rw [List.intercalate_cons_cons, List.append_assoc]
      exact List.mem_append_left _ hc
  rw [splitItems, if_neg hsome, scanItems_intercalate path hne fun t ht => (h t ht).1]
  rfl

theorem splitItems_blank (path : String) {w : List Char}
    (h : ∀ c ∈ w, Text.isWhitespace c = true) : splitItems w path = .ok [] := by
  rw [splitItems, if_pos (trimChars_blank h)]

theorem stripEnds_enclosed (first last : Char) (inner : List Char) :
    stripEnds first last (first :: inner ++ [last]) = some inner := by
  simp [stripEnds]

/-! ## Texts in brackets that are JSON -/

section Bracketed

variable {reals : Bool} {depth : Nat} {t : List Char} {j : Json}

/-- Behind an open bracket, a semicolon outside of further brackets is not JSON. -/
theorem not_value_semicolon {o : Char} (ho : o = '[' ∨ o = '{') (ht : Clean separator t)
    (u : List Char) : ¬Json.Value reals depth (o :: (t ++ ';' :: u)) j := by
  intro h
  obtain ⟨mid, hmid, hrest⟩ := run_cons_eq_some h.clean
  obtain rfl : mid = .outside [o] := by
    rcases ho with rfl | rfl <;> exact (Option.some.inj hmid).symm
  obtain ⟨mid, hmid, hrest⟩ := run_append_eq_some hrest
  have hmid' : run separator (.outside [o]) t = some mid := by
    refine run_mono (fun top c hc => ?_) hmid
    simp only [separator, Bool.and_eq_true, Bool.or_eq_true, decide_eq_true_eq] at hc
    obtain ⟨rfl, rfl | rfl⟩ := hc <;> rfl
  cases (ht.run separator_le [o]).symm.trans hmid'
  obtain ⟨next, hnext, -⟩ := run_cons_eq_some hrest
  cases hnext

/-- What one part in brackets is when the whole is JSON. -/
theorem value_single (ht : Clean separator t)
    (h : Json.Value reals depth ('[' :: t ++ [']']) j) :
    (Json.Blank t ∧ j = .array []) ∨
      ∃ d j', depth = d + 1 ∧ j = .array [j'] ∧ Json.Denotes reals d t j' := by
  obtain ⟨d, w, items, rfl, htext, rfl, hw, hspaced, hitems⟩ := h.of_bracket
  have hclose : Stops separator ']' := stops_close _ (.inl rfl)
  have hwclean : Clean separator w := clean_of_json hw.clean
  cases items with
  | nil =>
    rw [List.map_nil, List.intercalate_nil, List.append_nil] at htext
    obtain ⟨rfl, -, -⟩ := ht.cut hwclean hclose hclose htext
    exact .inl ⟨hw, rfl⟩
  | cons i items =>
    rw [List.forall_mem_cons] at hspaced hitems
    have hclean : Clean separator (w ++ i.padded) :=
      hwclean.append (clean_of_json (hspaced.1.clean hitems.1.clean))
    cases items with
    | nil =>
      rw [List.map_cons, List.map_nil, List.intercalate_singleton] at htext
      obtain ⟨rfl, -, -⟩ := ht.cut hclean hclose hclose htext
      refine .inr ⟨d, i.json, rfl, rfl, w ++ i.before, i.text, i.after, ?_, hspaced.1.after, ?_,
        hitems.1⟩
      · exact fun c hc => (List.mem_append.mp hc).elim (hw c) (hspaced.1.before c)
      · simp [Json.Item.padded]
    | cons i' items =>
      have hcomma : Stops separator ',' := stops_barred (by simp [Plain]) rfl
      have hsplit : t ++ ']' :: [] = (w ++ i.padded) ++ ',' ::
          (List.intercalate [','] ((i' :: items).map Json.Item.padded) ++ [']']) := by
        simpa [List.intercalate_cons_cons] using htext
      exact absurd (ht.cut hclean hclose hcomma hsplit).2.1 (by decide)

/-- The first character of a struct in brackets is one of a word. -/
theorem head_key {key name : List Char} (hname : isWord name = true)
    (hkey : Text.trimChars key = name) (u : List Char) :
    ∃ d v, (key ++ u).dropWhile Text.isWhitespace = d :: v ∧ isWordChar d = true := by
  obtain ⟨before, after, hbefore, -, hsplit, htight⟩ := Text.trimChars_spec key
  rw [hkey] at hsplit htight
  have hword := hname
  simp only [isWord, Bool.and_eq_true, Bool.not_eq_true', List.isEmpty_eq_false_iff,
    List.all_eq_true] at hword
  obtain ⟨d, rest, rfl⟩ := List.exists_cons_of_ne_nil hword.1
  have hd := hword.2 d List.mem_cons_self
  refine ⟨d, rest ++ (after ++ u), ?_, hd⟩
  rw [hsplit]
  simp only [List.append_assoc, List.cons_append]
  exact Text.dropWhile_append_eq hbefore (by simpa using (plain_of_isWordChar hd).2.2.2)

theorem not_value_struct {key : List Char} {name : List Char} (hname : isWord name = true)
    (hkey : Text.trimChars key = name) (u : List Char) :
    ¬Json.Value reals depth ('{' :: (key ++ '=' :: u)) j := by
  intro h
  obtain ⟨w, c, v, hw, heq, hc⟩ := h.of_brace
  obtain ⟨d, rest, hleft, hd⟩ := head_key hname hkey ('=' :: u)
  have hright : (key ++ '=' :: u).dropWhile Text.isWhitespace = c :: v := by
    rw [heq]
    refine Text.dropWhile_append_eq (fun c hc => Json.isSpace_isWhitespace (hw c hc)) ?_
    rcases hc with rfl | rfl <;> simp [Text.isWhitespace]
  rw [hleft, List.cons.injEq] at hright
  obtain ⟨rfl, -⟩ := hright
  rcases hc with rfl | rfl <;> exact absurd hd (by decide)

/-- The text of a struct starts with its first field. -/
theorem intercalate_fields (f : FieldText) (fields : List FieldText) :
    ∃ u, List.intercalate [';'] ((f :: fields).map (·.text)) = f.key ++ '=' :: u := by
  cases fields with
  | nil => exact ⟨f.raw, by simp [FieldText.text]⟩
  | cons g fields =>
    exact ⟨f.raw ++ ';' :: List.intercalate [';'] ((g :: fields).map (·.text)),
      by simp [FieldText.text, List.intercalate_cons_cons]⟩

theorem not_value_fields {f : FieldText} (hname : isWord f.name.toList = true)
    (hkey : Text.trimChars f.key = f.name.toList) (fields : List FieldText) :
    ¬Json.Value reals depth
      ('{' :: List.intercalate [';'] ((f :: fields).map (·.text)) ++ ['}']) j := by
  obtain ⟨u, hu⟩ := intercalate_fields f fields
  rw [hu, List.cons_append, List.append_assoc, List.cons_append]
  exact not_value_struct hname hkey (u ++ ['}'])

end Bracketed

theorem denoted_nil : Denoted (.array []) (.array []) := by
  have h : Denoted (.array (([] : List (Json × Value)).map (·.1)))
      (.array (([] : List (Json × Value)).map (·.2))) :=
    .array fun _ h => nomatch h
  exact h

theorem denoted_singleton {j : Json} {v : Value} (h : Denoted j v) :
    Denoted (.array [j]) (.array [v]) := by
  have h : Denoted (.array ([(j, v)].map (·.1))) (.array ([(j, v)].map (·.2))) :=
    .array (by simpa using h)
  exact h

theorem denoted_emptyRecord : Denoted (.object []) (.record []) :=
  .object (by simp) fun _ _ h => nomatch h

theorem identifier_value {name : List Char} (hident : isIdentifier name = true) {reals : Bool}
    {depth : Nat} {j : Json} (h : Json.Value reals depth name j) :
    name ∈ Json.literals ∧ ∀ s, j ≠ .string s := by
  cases name with
  | nil => cases hident
  | cons c t =>
    simp only [isIdentifier, List.head?_cons, Option.any_some, Bool.and_eq_true, Bool.or_eq_true,
      decide_eq_true_eq] at hident
    exact h.of_letter hident.1

/-- A text that spells a value and is JSON denotes it, unless it is a bare variant. -/
theorem Written.agrees {depth : Nat} {raw : List Char} {v : Value} (h : Written true depth raw v)
    (hamb : ¬Ambiguous raw v) {reals : Bool} {d : Nat} {j : Json}
    (hj : Json.Denotes reals d raw j) :
    ∃ j', Json.Denotes false depth raw j' ∧ Denoted j' v := by
  induction h generalizing d j with
  | json h hv => exact ⟨_, h, hv⟩
  | @variant _ raw name hident htrim =>
    have hvalue := hj.value
    rw [htrim] at hvalue
    exact absurd ⟨name, rfl, htrim, (identifier_value hident hvalue).1⟩ hamb
  | @emptyArray _ raw w hw htrim =>
    have hvalue := hj.value
    rw [htrim] at hvalue
    rcases value_single (clean_of_blank hw) hvalue with ⟨hblank, -⟩ | ⟨d, j', -, -, hden⟩
    · exact ⟨.array [], hj.of_value (htrim ▸ .emptyArray hblank), denoted_nil⟩
    · obtain ⟨c, u, hcons, -⟩ := hden.value.cons
      rw [trimChars_blank hw] at hcons
      cases hcons
  | @array depth raw items hne htrim hall hamb' ih =>
    have hvalue := hj.value
    obtain ⟨x, items, rfl⟩ := List.exists_cons_of_ne_nil hne
    rw [htrim] at hvalue
    rw [List.forall_mem_cons] at hall ih
    cases items with
    | nil =>
      rw [List.map_cons, List.map_nil, List.intercalate_singleton] at hvalue htrim
      rcases value_single hall.1.clean hvalue with ⟨hblank, -⟩ | ⟨d, j', -, -, hden⟩
      · refine absurd (trimChars_blank fun c hc => ?_) hall.1.trim_ne_nil
        exact Json.isSpace_isWhitespace (hblank c hc)
      · obtain ⟨j'', hpart, hdenoted⟩ := ih.1 (hamb' rfl x rfl) hden
        exact ⟨.array [j''], hj.of_value (htrim ▸ .singleton hpart), denoted_singleton hdenoted⟩
    | cons y items =>
      rw [List.map_cons, List.map_cons, List.intercalate_cons_cons, List.append_assoc,
        List.singleton_append, List.cons_append, List.append_assoc, List.cons_append] at hvalue
      exact absurd hvalue (not_value_semicolon (.inl rfl) hall.1.clean _)
  | @emptyRecord _ raw w hw htrim =>
    have hvalue := hj.value
    rw [htrim] at hvalue
    obtain ⟨w', c, u, hw', heq, hc⟩ := hvalue.of_brace
    have hleft : (w ++ ['}']).dropWhile Text.isWhitespace = ['}'] :=
      Text.dropWhile_append_eq hw (by simp [Text.isWhitespace])
    have hright : (w' ++ c :: u).dropWhile Text.isWhitespace = c :: u := by
      refine Text.dropWhile_append_eq (fun c hc => Json.isSpace_isWhitespace (hw' c hc)) ?_
      rcases hc with rfl | rfl <;> simp [Text.isWhitespace]
    have hsame : w ++ ['}'] = w' ++ c :: u := heq
    have hend : c :: u = ['}'] := by rw [← hright, ← hsame, hleft]
    rw [hend] at hsame
    obtain rfl : w = w' := List.append_cancel_right hsame
    exact ⟨.object [], hj.of_value (htrim ▸ .emptyObject hw'), denoted_emptyRecord⟩
  | @record _ raw fields m hne htrim hnames _ _ _ _ _ =>
    have hvalue := hj.value
    rw [htrim] at hvalue
    obtain ⟨f, fields, rfl⟩ := List.exists_cons_of_ne_nil hne
    rw [List.forall_mem_cons] at hnames
    exact absurd hvalue (not_value_fields hnames.1.1 hnames.1.2 fields)

/-! ## Reading back -/

section Read

variable {io : InputIo} {p : Project} {room : Nat}

theorem checkedInt_eq {ty : Ty} {i lo hi : Int} (hty : intRange ty = some (lo, hi)) (hlo : lo ≤ i)
    (hhi : i ≤ hi) (path : String) : checkedInt i ty path = .ok (.int i) := by
  simp [checkedInt, hty, Int.not_lt.mpr hlo, Int.not_lt.mpr hhi]

theorem intRange_inI64 {ty : Ty} {lo hi : Int} (hty : intRange ty = some (lo, hi)) :
    minI64 ≤ lo ∧ hi ≤ maxI64 := by
  cases ty <;> cases hty <;> decide

theorem findNamed_ok {name : String} {body : TypeBody} (h : findType p name = some body)
    (path : String) : findNamed p name path = .ok body := by
  rw [findNamed, h]

theorem readElements_eq {α : Type} {sub : α → String → Except String Value} {ty : Ty} {len : Nat}
    {path : String} {items : List α} {xs : List Value} (hlen : xs.length = len)
    (h : List.Forall₂ (fun a x => ∀ path, sub a path = .ok x) items xs) :
    readElements sub ty len path items = .ok (.array xs) := by
  have hitems : items.length = len := h.length_eq.trans hlen
  rw [readElements, if_neg (not_not.mpr hitems),
    Except.mapM_zipIdx_of_forall₂ (h.imp fun a x hax i => hax _)]
  rfl

theorem readFields_eq {α : Type} {sub : α → Ty → String → Except String Value}
    {fields : List RecordField} {name path : String} {entries : List (String × α)}
    {m : List (String × Value)} (hm : Sorted m)
    (hnames : ∀ x, (m.lookup x).isSome ↔ ∃ f ∈ fields, f.name = x)
    (hsub : ∀ f ∈ fields, ∀ v, m.lookup f.name = some v → ∃ a, entries.lookup f.name = some a ∧
      ∀ path, sub a f.ty path = .ok v) :
    readFields sub fields name path entries = .ok (.record m) := by
  have hvalue : ∀ f ∈ fields, ∃ v, m.lookup f.name = some v ∧
      readField sub name path entries f = .ok v := by
    intro f hf
    obtain ⟨v, hv⟩ := Option.isSome_iff_exists.mp ((hnames f.name).mpr ⟨f, hf, rfl⟩)
    obtain ⟨a, ha, hsub⟩ := hsub f hf v hv
    exact ⟨v, hv, by rw [readField, ha]; exact hsub _⟩
  rw [readFields, collectFields_eq hm hvalue fun x => (hnames x).mp]
  rfl

/-- JSON that denotes a conforming value is read as that value. -/
theorem parseJson_denoted {ty : Ty} {v : Value} (h : Conforms p room ty v) {j : Json}
    (hj : Denoted j v) (path : String) : parseJson p room j ty path = .ok v := by
  induction h generalizing j path with
  | bool =>
    cases hj
    rfl
  | @int room ty i lo hi hty hlo hhi =>
    cases hj
    have hi64 : Json.asI64 (.int i) = some i := if_pos (hhi.trans (intRange_inI64 hty).2)
    have hread : ∀ detail, readInteger (Json.asI64 (.int i)) detail ty path = .ok (.int i) := by
      intro detail
      rw [hi64]
      exact checkedInt_eq hty hlo hhi path
    cases ty <;> first | exact hread _ | cases hty
  | @char room i hlo hhi =>
    cases hj
    have hfilter : (some i).filter (fun v => decide (v ≤ 255)) = some i := by
      simp [Option.filter_some, hhi]
    simp only [parseJson, Json.asU64, if_pos hlo, hfilter, Option.elim_some]
  | @array room len elem xs hlen _ ih =>
    cases hj with
    | @array items hitems =>
      simp only [parseJson, Json.asElements]
      refine readElements_eq hlen (Json.forall₂_map fun x hx path => ?_)
      exact ih x.2 (List.mem_map_of_mem hx) (hitems x hx) path
  | @enum room name variant e hname hmem =>
    cases hj
    simp only [parseJson, findNamed_ok hname, Json.asStr]
    exact if_pos (List.contains_iff_mem.mpr hmem)
  | @record room name name' fields m hname hsorted hnames _ ih =>
    cases hj with
    | @object entries _ hkeys hentries =>
      have hdeclared : (entries.find? fun e => !fields.any fun f => f.name = e.1) = none := by
        rw [List.find?_eq_none]
        intro e he
        have hsome := (hkeys e.1).mp (List.mem_map_of_mem he)
        simpa using (hnames e.1).mp hsome
      simp only [parseJson, findNamed_ok hname, Json.asObject, bind, Except.bind, hdeclared]
      refine readFields_eq hsorted hnames fun f hf v hv => ?_
      have hsome : (m.lookup f.name).isSome := by rw [hv]; rfl
      obtain ⟨j, hj⟩ := exists_lookup ((hkeys f.name).mpr hsome)
      exact ⟨j, hj, fun path => ih f hf v hv (hentries _ _ (mem_of_lookup hj) v hv) path⟩
  | @aliasOf room name name' target v hname _ ih =>
    simp only [parseJson, findNamed_ok hname]
    exact ih hj path

/-- A JSON text that spells a value is taken by the JSON reader. -/
theorem Written.fromJson_ok (hparses : Json.Parses 127 io.fromJson) {depth : Nat}
    (hdepth : depth ≤ 127) {raw : List Char} {v : Value} (h : Written true depth raw v)
    (hamb : ¬Ambiguous raw v) {j : Json} (hj : io.fromJson (Text.trimChars raw) = .ok j) :
    Denoted j v := by
  obtain ⟨d, hden⟩ := hparses.denotes hj
  have hamb' : ¬Ambiguous (Text.trimChars raw) v := by
    rintro ⟨variant, hv, htrim, hlit⟩
    exact hamb ⟨variant, hv, (Text.trimChars_trimChars raw).symm.trans htrim, hlit⟩
  obtain ⟨j', hj', hdenoted⟩ := h.trim.agrees hamb' hden
  have hvalue := hj'.value.mono hdepth
  rw [Text.trimChars_trimChars] at hvalue
  rw [hparses.accepts hvalue.denotes] at hj
  cases hj
  exact hdenoted

theorem not_ambiguous_of_not_enum {raw : List Char} {v : Value} (h : ∀ n, v ≠ .enum n) :
    ¬Ambiguous raw v := fun ⟨n, hn, _⟩ => h n hn

theorem bool_text {depth : Nat} {t : List Char} {b : Bool}
    (h : Json.Value false depth t (.bool b)) :
    t = if b then ['t', 'r', 'u', 'e'] else ['f', 'a', 'l', 's', 'e'] := by
  cases h <;> rfl

theorem int_text {depth : Nat} {t : List Char} {i : Int} (h : Json.Value false depth t (.int i)) :
    t = Text.decimal i := by
  cases h
  rfl

/-- A field in brackets is split at its equals sign. -/
theorem splitOnce_field {f : FieldText} (hname : isWord f.name.toList = true)
    (hkey : Text.trimChars f.key = f.name.toList) (hraw : Text.trimChars f.raw ≠ []) :
    ∃ key raw, splitOnce (Text.trimChars f.text) = some (key, raw) ∧
      Text.trimChars key = f.name.toList ∧ Text.trimChars raw = Text.trimChars f.raw := by
  obtain ⟨kb, ka, hkb, hka, hkeysplit, hktight⟩ := Text.trimChars_spec f.key
  obtain ⟨rb, ra, hrb, hra, hrawsplit, hrtight⟩ := Text.trimChars_spec f.raw
  rw [hkey] at hkeysplit hktight
  have hword := hname
  simp only [isWord, Bool.and_eq_true, Bool.not_eq_true', List.isEmpty_eq_false_iff,
    List.all_eq_true] at hword
  have hequals : ∀ c ∈ f.name.toList ++ ka, c ≠ '=' := by
    intro c hc
    rcases List.mem_append.mp hc with hc | hc
    · exact (plain_of_isWordChar (hword.2 c hc)).2.2.1
    · rintro rfl
      exact absurd (hka _ hc) (by decide)
  have htext : f.text =
      kb ++ (f.name.toList ++ ka ++ '=' :: (rb ++ Text.trimChars f.raw)) ++ ra := by
    rw [FieldText.text, hkeysplit]
    conv => lhs; rw [hrawsplit]
    simp only [List.append_assoc, List.cons_append]
  have htight : Text.Tight (f.name.toList ++ ka ++ '=' :: (rb ++ Text.trimChars f.raw)) := by
    constructor
    · obtain ⟨c, t, hct⟩ := List.exists_cons_of_ne_nil hword.1
      rw [hct] at hktight ⊢
      simpa using hktight.1
    · obtain ⟨c, t, hct⟩ := List.exists_cons_of_ne_nil hraw
      rw [hct] at hrtight ⊢
      simpa [List.getLast?_append, List.getLast?_cons] using hrtight.2
  have htrim := Text.trimChars_eq kb _ ra hkb hra htight
  rw [← htext] at htrim
  have hsplit : splitOnce (Text.trimChars f.text) =
      some (f.name.toList ++ ka, rb ++ Text.trimChars f.raw) := by
    have htake : ∀ rest : List Char,
        (f.name.toList ++ ka ++ '=' :: rest).takeWhile (· ≠ '=') = f.name.toList ++ ka := by
      intro rest
      rw [List.takeWhile_append_of_pos (by simpa using hequals)]
      simp
    have hdrop : ∀ rest : List Char,
        (f.name.toList ++ ka ++ '=' :: rest).dropWhile (· ≠ '=') = '=' :: rest := by
      intro rest
      rw [List.dropWhile_append_of_pos (by simpa using hequals)]
      simp
    rw [htrim, splitOnce, if_pos (by simp), htake, hdrop]
    rfl
  refine ⟨_, _, hsplit, ?_, ?_⟩
  · simpa using Text.trimChars_eq [] f.name.toList ka (by simp) hka hktight
  · simpa using Text.trimChars_eq rb (Text.trimChars f.raw) [] hrb (by simp) hrtight

theorem lookup_eq_none_of_notMem {β : Type} {m : List (String × β)} {x : String}
    (h : x ∉ m.map (·.1)) : m.lookup x = none := by
  cases hx : m.lookup x with
  | none => rfl
  | some v => exact absurd (List.mem_map_of_mem (mem_of_lookup hx)) h

/-- The entries of a struct in brackets are those of its fields. -/
theorem structEntries_foldlM {fields : List RecordField} {path name : String} {ty : Ty}
    {texts : List FieldText} (before : List (String × List Char))
    (hname : ∀ f ∈ texts, isWord f.name.toList ∧ Text.trimChars f.key = f.name.toList)
    (hraw : ∀ f ∈ texts, Text.trimChars f.raw ≠ [])
    (hdeclared : ∀ f ∈ texts, ∃ g ∈ fields, g.name = f.name)
    (hnodup : (before.map (·.1) ++ texts.map (·.name)).Nodup) :
    (texts.map fun f => Text.trimChars f.text).foldlM (structEntries fields path name ty) before =
      .ok (before ++ texts.map fun f => (f.name, Text.trimChars f.raw)) := by
  induction texts generalizing before with
  | nil => simp [pure, Except.pure]
  | cons f texts ih =>
    rw [List.forall_mem_cons] at hname hdeclared hraw
    obtain ⟨key, raw, hsplit, hkey, hvalue⟩ := splitOnce_field hname.1.1 hname.1.2 hraw.1
    have hnew : before.lookup f.name = none := by
      refine lookup_eq_none_of_notMem fun hmem => ?_
      exact (List.nodup_append.mp hnodup).2.2 _ hmem _ List.mem_cons_self rfl
    have hstep : structEntries fields path name ty before (Text.trimChars f.text) =
        .ok (before ++ [(f.name, Text.trimChars f.raw)]) := by
      have hany : (fields.any fun g => decide (g.name = f.name)) = true := by
        obtain ⟨g, hg, hgname⟩ := hdeclared.1
        exact List.any_eq_true.mpr ⟨g, hg, by simpa using hgname⟩
      simp only [structEntries, hsplit, hkey, hvalue, String.ofList_toList, hany, hnew]
      rfl
    rw [List.map_cons, List.foldlM_cons, hstep]
    have hrest := ih (before ++ [(f.name, Text.trimChars f.raw)]) hname.2 hraw.2
      hdeclared.2 (by simpa using hnodup)
    change List.foldlM _ _ _ = _
    rw [hrest]
    simp

/-- How a struct in brackets is taken apart. -/
theorem read_struct (fields : List RecordField) (path name : String) (ty : Ty)
    {texts : List FieldText} (hne : texts ≠ [])
    (hname : ∀ f ∈ texts, isWord f.name.toList ∧ Text.trimChars f.key = f.name.toList)
    (hraw : ∀ f ∈ texts, Clean separator f.raw ∧ Text.trimChars f.raw ≠ [])
    (hdeclared : ∀ f ∈ texts, ∃ g ∈ fields, g.name = f.name) (hnodup : (texts.map (·.name)).Nodup) :
    ((List.intercalate [';'] (texts.map (·.text))).dropWhile Text.isWhitespace).head? ≠ some '"' ∧
      splitItems (List.intercalate [';'] (texts.map (·.text))) path =
        .ok (texts.map fun f => Text.trimChars f.text) ∧
      (texts.map fun f => Text.trimChars f.text).foldlM (structEntries fields path name ty) [] =
        .ok (texts.map fun f => (f.name, Text.trimChars f.raw)) := by
  refine ⟨?_, ?_, ?_⟩
  · obtain ⟨f, rest, rfl⟩ := List.exists_cons_of_ne_nil hne
    rw [List.forall_mem_cons] at hname
    obtain ⟨u, hu⟩ := intercalate_fields f rest
    obtain ⟨d, v, hd, hword⟩ := head_key hname.1.1 hname.1.2 ('=' :: u)
    rw [hu, hd]
    rintro h
    cases h
    exact absurd hword (by decide)
  · have htexts : texts.map (·.text) ≠ [] := by simpa using hne
    rw [splitItems_intercalate path htexts, List.map_map]
    · rfl
    · intro t ht
      obtain ⟨f, hf, rfl⟩ := List.mem_map.mp ht
      refine ⟨FieldText.clean (hname f hf).1 (hname f hf).2 (hraw f hf).1, fun hnil => ?_⟩
      exact absurd (trimChars_eq_nil hnil '=' (by simp [FieldText.text])) (by decide)
  · simpa using structEntries_foldlM [] hname (fun f hf => (hraw f hf).2) hdeclared
      (by simpa using hnodup)

theorem parseText_written (hparses : Json.Parses 127 io.fromJson) {ty : Ty} {v : Value}
    (h : Conforms p room ty v) {depth : Nat} (hdepth : depth ≤ 127) {raw : List Char}
    (hw : Written true depth raw v) (path : String) : parseText io p room raw ty path = .ok v := by
  induction h generalizing depth raw path with
  | @bool room b =>
    cases hw with
    | json hden hj =>
      cases hj
      have htext := bool_text hden.value
      simp only [parseText, htext]
      cases b <;> rfl
  | @int room ty i lo hi hty hlo hhi =>
    cases hw with
    | json hden hj =>
      cases hj
      have htext := int_text hden.value
      have hrange := intRange_inI64 hty
      have hi64 : parseI64 (Text.decimal i) = some i := by
        have hin : inI64 i = true := decide_eq_true ⟨hrange.1.trans hlo, hhi.trans hrange.2⟩
        rw [parseI64, Text.readInt_decimal, Option.filter_some, if_pos hin]
      have hread : ∀ detail,
          readInteger (parseI64 (Text.trimChars raw)) detail ty path = .ok (.int i) := by
        intro detail
        rw [htext, hi64]
        exact checkedInt_eq hty hlo hhi path
      cases ty <;> first | exact hread _ | cases hty
  | @char room i hlo hhi =>
    cases hw with
    | json hden hj =>
      cases hj
      have htext := int_text hden.value
      have hle : i.toNat ≤ 255 := by omega
      simp only [parseText, htext, parseU8, Text.readUnsigned_decimal hlo, Option.filter_some,
        decide_eq_true hle, if_true, Option.elim_some]
      rw [Int.toNat_of_nonneg hlo]
  | @array room len elem xs hlen helem ih =>
    simp only [parseText]
    split
    case h_1 j hj =>
      have hdenoted := hw.fromJson_ok hparses hdepth (not_ambiguous_of_not_enum (by simp)) hj
      exact parseJson_denoted (.array hlen helem) hdenoted path
    case h_2 e he =>
      cases hw with
      | json hden hj =>
        rw [hparses.accepts (hden.value.mono hdepth).denotes] at he
        cases he
      | emptyArray hw htrim =>
        rw [htrim, stripEnds_enclosed]
        simp only [splitItems_blank path hw]
        change readElements (fun raw path => parseText io p room raw elem path) _ _ _ [] = _
        exact readElements_eq hlen .nil
      | @array depth _ items hne htrim hall _ =>
        have htexts : items.map (·.1) ≠ [] := by simpa using hne
        have hsplit := splitItems_intercalate path htexts fun t ht => by
            obtain ⟨x, hx, rfl⟩ := List.mem_map.mp ht
            exact ⟨(hall x hx).clean, (hall x hx).trim_ne_nil⟩
        rw [htrim, stripEnds_enclosed]
        simp only [hsplit, List.map_map]
        change readElements (fun raw path => parseText io p room raw elem path) _ _ _ _ = _
        refine readElements_eq hlen (Json.forall₂_map fun x hx path => ?_)
        exact ih x.2 (List.mem_map_of_mem hx) (Nat.le_of_succ_le hdepth) (hall x hx).trim path
  | @enum room name variant e hname hmem =>
    have hread : variantName io (Text.trimChars raw) = variant := by
      cases hw with
      | json hden hj =>
        cases hj
        rw [variantName, hparses.accepts (hden.value.mono hdepth).denotes]
      | variant hident htrim =>
        unfold variantName
        split
        case h_1 s hs =>
          obtain ⟨d, hden⟩ := hparses.denotes hs
          have hvalue := hden.value
          rw [Text.trimChars_trimChars, htrim] at hvalue
          exact absurd rfl ((identifier_value hident hvalue).2 s)
        case h_2 => rw [htrim, String.ofList_toList]
    simp only [parseText, findNamed_ok hname, Except.ok_bind, hread]
    exact if_pos (List.contains_iff_mem.mpr hmem)
  | @record room name name' fields m hname hsorted hnames hall ih =>
    simp only [parseText, findNamed_ok hname, Except.ok_bind]
    split
    case h_1 j hj =>
      have hdenoted := hw.fromJson_ok hparses hdepth (not_ambiguous_of_not_enum (by simp)) hj
      exact parseJson_denoted (.record hname hsorted hnames hall) hdenoted path
    case h_2 e he =>
      cases hw with
      | json hden hj =>
        rw [hparses.accepts (hden.value.mono hdepth).denotes] at he
        cases he
      | @emptyRecord _ _ w hw htrim =>
        have hquote : (w.dropWhile Text.isWhitespace).head? ≠ some '"' := by
          rw [List.dropWhile_eq_nil_iff.mpr hw]
          simp
        rw [htrim, stripEnds_enclosed]
        simp only [if_neg hquote, splitItems_blank path hw, Except.ok_bind]
        refine readFields_eq hsorted hnames fun f hf v hv => ?_
        cases hv
      | @record _ _ texts _ hne htrim htexts hnodup hlookup hkeys hwritten =>
        obtain ⟨hquote, hsplit, hentries⟩ := read_struct fields path name (.named name) hne htexts
          (fun f hf => ⟨(hwritten f hf).clean, (hwritten f hf).trim_ne_nil⟩)
          (fun f hf => (hnames f.name).mp (by rw [hlookup f hf]; rfl)) hnodup
        rw [htrim, stripEnds_enclosed]
        simp only [if_neg hquote, hsplit, Except.ok_bind, hentries]
        refine readFields_eq hsorted hnames fun f hf v hv => ?_
        have hsome : (m.lookup f.name).isSome := by rw [hv]; rfl
        have hmem : f.name ∈
            (texts.map fun f => (f.name, Text.trimChars f.raw)).map (·.1) := by
          simpa using hkeys f.name hsome
        obtain ⟨a, ha⟩ := exists_lookup hmem
        obtain ⟨t, ht, heq⟩ := List.mem_map.mp (mem_of_lookup ha)
        obtain ⟨htname, rfl⟩ := Prod.mk.inj heq
        have hvalue := hlookup t ht
        rw [htname, hv] at hvalue
        cases hvalue
        exact ⟨_, ha, fun path =>
          ih f hf t.value hv (Nat.le_of_succ_le hdepth) (hwritten t ht).trim path⟩
  | @aliasOf room name name' target v hname _ ih =>
    simp only [parseText, findNamed_ok hname]
    exact ih hdepth hw.trim path

end Read

end OpenLustre.Simulator
