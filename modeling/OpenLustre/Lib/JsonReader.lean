import OpenLustre.Lib.Json

/-! A parser of the JSON texts whose numbers are integers. -/

namespace Json

def skip (cs : List Char) : List Char := cs.dropWhile isSpace

variable {α : Type}

abbrev Reader (α : Type) := List Char → Option (α × List Char)

/-- The four digits of an escape behind `\u`. -/
def readHex4 : Reader Nat
  | a :: b :: c :: d :: t => (hex4 a b c d).map fun n => (n, t)
  | _ => none

/-- The character of an escape behind `\u`; a pair of surrogates makes one character. -/
def readUnicode : Reader Char := fun t =>
  (readHex4 t).bind fun x =>
    if isTrail x.1 then none
    else if isLead x.1 then
      if ['\\', 'u'].isPrefixOf x.2 then
        (readHex4 (x.2.drop 2)).bind fun y =>
          if isTrail y.1 then
            some (Char.ofNat (0x10000 + (x.1 - 0xD800) * 0x400 + (y.1 - 0xDC00)), y.2)
          else none
      else none
    else some (Char.ofNat x.1, x.2)

/-- The character of an escape whose backslash is behind. -/
def readEscape : Reader Char
  | [] => none
  | e :: t => if e = 'u' then readUnicode t else (unescape e).map fun c => (c, t)

/-- The characters of a string whose opening quote is behind, and what follows its closing
quote. -/
def readBody : Nat → Reader (List Char)
  | 0, _ | _ + 1, [] => none
  | n + 1, c :: t =>
    if c = '"' then some ([], t)
    else if c = '\\' then
      (readEscape t).bind fun x => (readBody n x.2).map fun y => (x.1 :: y.1, y.2)
    else if c.toNat < 0x20 then none
    else (readBody n t).map fun y => (c :: y.1, y.2)

/-- An integer in canonical notation. -/
def readNumber (cs : List Char) : Option (Json × List Char) :=
  (Text.readInt (cs.takeWhile isNumeric)).bind fun i =>
    if Text.decimal i = cs.takeWhile isNumeric ∧ isIntegral i then
      some (.int i, cs.dropWhile isNumeric)
    else none

/-- The word at the head of the text, if it is there. -/
def readWord (word : List Char) (j : Json) (cs : List Char) : Option (Json × List Char) :=
  if word.isPrefixOf cs then some (j, cs.drop word.length) else none

/-- Skip the blanks before and after. -/
def padded (read : Reader α) : Reader α := fun cs =>
  (read (skip cs)).map fun x => (x.1, skip x.2)

/-- At least one item, with commas between the items, up to a closing bracket. -/
def separated (close : Char) (read : Reader α) : Nat → Reader (List α)
  | 0, _ => none
  | n + 1, cs =>
    (read cs).bind fun x =>
      match x.2 with
      | [] => none
      | c :: rest =>
        if c = ',' then (separated close read n rest).map fun y => (x.1 :: y.1, y.2)
        else if c = close then some ([x.1], rest)
        else none

def enclosed (close : Char) (read : Reader α) : Reader (List α) := fun cs =>
  if (skip cs).head? = some close then some ([], (skip cs).tail)
  else separated close read cs.length cs

def readMember (read : Reader Json) : Reader (String × Json) := fun cs =>
  match skip cs with
  | [] => none
  | q :: t =>
    if q = '"' then
      (readBody t.length t).bind fun key =>
        match skip key.2 with
        | [] => none
        | c :: t =>
          if c = ':' then
            (padded read t).map fun x => ((String.ofList key.1, x.1), x.2)
          else none
    else none

def collect (members : List (String × Json)) : List (String × Json) :=
  members.foldl (fun es m => insertKey m.1 m.2 es) []

/-- A value without blanks before it, and what follows. -/
def readValue : Nat → Reader Json
  | 0, _ => none
  | fuel + 1, cs =>
    match cs with
    | [] => none
    | c :: t =>
      if c = '"' then (readBody t.length t).map fun x => (.string (String.ofList x.1), x.2)
      else if c = '[' then
        (enclosed ']' (padded (readValue fuel)) t).map fun x => (.array x.1, x.2)
      else if c = '{' then
        (enclosed '}' (readMember (readValue fuel)) t).map fun x => (.object (collect x.1), x.2)
      else if c = 'n' then readWord ['n', 'u', 'l', 'l'] .null cs
      else if c = 't' then readWord ['t', 'r', 'u', 'e'] (.bool true) cs
      else if c = 'f' then readWord ['f', 'a', 'l', 's', 'e'] (.bool false) cs
      else readNumber cs

/-- The value of a whole text, whose arrays and objects nest at most 127 deep. -/
def read (cs : List Char) : Except String Json :=
  match readValue 128 (skip cs) with
  | some (j, rest) => if skip rest = [] then .ok j else .error "trailing characters"
  | none => .error "expected value"

/-! ## The parser accepts what denotes a value -/

theorem skip_append {w cs : List Char} (hw : Blank w) (h : ∀ c ∈ cs.head?, isSpace c = false) :
    skip (w ++ cs) = cs := by
  rw [skip, List.dropWhile_append_of_pos hw]
  cases cs with
  | nil => rfl
  | cons c cs => exact List.dropWhile_cons_of_neg (by simpa using h c)

theorem skip_spec (cs : List Char) : ∃ w, Blank w ∧ cs = w ++ skip cs :=
  ⟨cs.takeWhile isSpace, fun _ => List.mem_takeWhile_imp, List.takeWhile_append_dropWhile.symm⟩

theorem Body.read {t s : List Char} (h : Body t s) (rest : List Char) (fuel : Nat)
    (hfuel : t.length < fuel) : readBody fuel (t ++ '"' :: rest) = some (s, rest) := by
  induction h generalizing fuel with
  | nil =>
    obtain ⟨n, rfl⟩ : ∃ n, fuel = n + 1 := ⟨fuel - 1, by omega⟩
    simp [readBody]
  | plain h₁ h₂ h₃ _ ih =>
    simp only [List.length_cons] at hfuel
    obtain ⟨n, rfl⟩ : ∃ n, fuel = n + 1 := ⟨fuel - 1, by omega⟩
    simp [readBody, h₁, h₂, h₃, ih n (by omega)]
  | escape h₁ h₂ _ ih =>
    simp only [List.length_cons] at hfuel
    obtain ⟨n, rfl⟩ : ∃ n, fuel = n + 1 := ⟨fuel - 1, by omega⟩
    simp [readBody, readEscape, h₁, h₂, ih n (by omega)]
  | unicode h₁ h₂ h₃ _ ih =>
    simp only [List.length_cons] at hfuel
    obtain ⟨n, rfl⟩ : ∃ n, fuel = n + 1 := ⟨fuel - 1, by omega⟩
    simp [readBody, readEscape, readUnicode, readHex4, h₁, h₂, h₃, ih n (by omega)]
  | @pair _ _ _ _ _ _ _ _ n n' t s h₁ h₂ h₃ h₄ _ ih =>
    simp only [List.length_cons] at hfuel
    obtain ⟨k, rfl⟩ : ∃ k, fuel = k + 1 := ⟨fuel - 1, by omega⟩
    have htrail : isTrail n = false := by
      simp only [isLead, isTrail, Bool.and_eq_true, decide_eq_true_eq] at h₂ ⊢
      simp only [Bool.and_eq_false_iff, decide_eq_false_iff_not]
      omega
    simp [readBody, readEscape, readUnicode, readHex4, h₁, h₂, h₃, h₄, htrail,
      ih k (by omega)]

theorem readHex4_spec {cs rest : List Char} {n : Nat} (h : readHex4 cs = some (n, rest)) :
    ∃ a b c d, cs = a :: b :: c :: d :: rest ∧ hex4 a b c d = some n := by
  unfold readHex4 at h
  split at h
  case h_1 a b c d t =>
    obtain ⟨m, hm, heq⟩ := Option.map_eq_some_iff.mp h
    cases heq
    exact ⟨a, b, c, d, rfl, hm⟩
  case h_2 => cases h

theorem readEscape_spec {cs rest : List Char} {x : Char} (h : readEscape cs = some (x, rest)) :
    ∃ t, cs = t ++ rest ∧ ∀ u s, Body u s → Body ('\\' :: (t ++ u)) (x :: s) := by
  cases cs with
  | nil => cases h
  | cons e t =>
    rw [readEscape] at h
    split at h
    case isTrue he =>
      subst he
      unfold readUnicode at h
      obtain ⟨⟨n, t'⟩, hhex, hlead⟩ := Option.bind_eq_some_iff.mp h
      clear h
      obtain ⟨a, b, c, d, rfl, hn⟩ := readHex4_spec hhex
      split at hlead
      case isTrue => cases hlead
      case isFalse htrail =>
        simp only [Bool.not_eq_true] at htrail
        split at hlead
        case isTrue hpair =>
          split at hlead
          case isTrue hprefix =>
            obtain ⟨u, hu⟩ := List.isPrefixOf_iff_prefix.mp hprefix
            obtain ⟨⟨n', t''⟩, hhex', htrail'⟩ := Option.bind_eq_some_iff.mp hlead
            obtain ⟨a', b', c', d', hdrop, hn'⟩ := readHex4_spec hhex'
            simp only at hu hdrop htrail'
            rw [← hu] at hdrop
            simp only [List.cons_append, List.nil_append, List.drop_succ_cons, List.drop_zero]
              at hdrop
            subst hdrop hu
            split at htrail'
            case isTrue htrail'' =>
              simp only [Option.some.injEq, Prod.mk.injEq] at htrail'
              obtain ⟨rfl, rfl⟩ := htrail'
              refine ⟨['u', a, b, c, d, '\\', 'u', a', b', c', d'], rfl, fun u s hbody => ?_⟩
              exact .pair hn hpair hn' htrail'' hbody
            case isFalse => cases htrail'
          case isFalse => cases hlead
        case isFalse hsingle =>
          cases hlead
          refine ⟨['u', a, b, c, d], rfl, fun u s hbody => ?_⟩
          exact .unicode hn (Bool.eq_false_iff.mpr hsingle) htrail hbody
    case isFalse he =>
      obtain ⟨c, hc, heq⟩ := Option.map_eq_some_iff.mp h
      cases heq
      exact ⟨[e], rfl, fun u s hbody => .escape he hc hbody⟩

theorem readBody_spec {fuel : Nat} {cs s rest : List Char}
    (h : readBody fuel cs = some (s, rest)) : ∃ t, cs = t ++ '"' :: rest ∧ Body t s := by
  induction fuel generalizing cs s with
  | zero => cases h
  | succ n ih =>
    cases cs with
    | nil => cases h
    | cons c t =>
      rw [readBody] at h
      split at h
      case isTrue hquote =>
        cases h
        exact ⟨[], by rw [hquote]; rfl, .nil⟩
      case isFalse hquote =>
        split at h
        case isTrue hback =>
          obtain ⟨⟨x, t'⟩, hesc, h⟩ := Option.bind_eq_some_iff.mp h
          obtain ⟨⟨s', rest'⟩, hrest, heq⟩ := Option.map_eq_some_iff.mp h
          cases heq
          obtain ⟨u, rfl, hbody⟩ := readEscape_spec hesc
          obtain ⟨u', rfl, hbody'⟩ := ih hrest
          exact ⟨'\\' :: (u ++ u'), by rw [hback]; simp, hbody u' s' hbody'⟩
        case isFalse hback =>
          split at h
          case isTrue => cases h
          case isFalse hctl =>
            obtain ⟨⟨s', rest'⟩, hrest, heq⟩ := Option.map_eq_some_iff.mp h
            cases heq
            obtain ⟨u, rfl, hbody⟩ := ih hrest
            exact ⟨c :: u, rfl, .plain hquote hback hctl hbody⟩

/-! ## Numbers, arrays and objects -/

/-- What follows a number does not go on with it. -/
def Ends (rest : List Char) : Prop := ∀ c ∈ rest.head?, isNumeric c = false

theorem takeWhile_numeric {t rest : List Char} (ht : ∀ c ∈ t, isNumeric c = true)
    (hrest : Ends rest) :
    (t ++ rest).takeWhile isNumeric = t ∧ (t ++ rest).dropWhile isNumeric = rest := by
  have hstop : rest.takeWhile isNumeric = [] ∧ rest.dropWhile isNumeric = rest := by
    cases rest with
    | nil => exact ⟨rfl, rfl⟩
    | cons c rest =>
      have hc : ¬isNumeric c = true := by simpa using hrest c
      exact ⟨List.takeWhile_cons_of_neg hc, List.dropWhile_cons_of_neg hc⟩
  rw [List.takeWhile_append_of_pos ht, List.dropWhile_append_of_pos ht, hstop.1, hstop.2,
    List.append_nil]
  exact ⟨rfl, rfl⟩

theorem readNumber_decimal {i : Int} (h : isIntegral i = true) {rest : List Char}
    (hrest : Ends rest) : readNumber (Text.decimal i ++ rest) = some (.int i, rest) := by
  obtain ⟨htake, hdrop⟩ := takeWhile_numeric (fun _ => isNumeric_of_mem_decimal (i := i)) hrest
  simp [readNumber, htake, hdrop, Text.readInt_decimal, h]

theorem readNumber_spec {cs rest : List Char} {j : Json} (h : readNumber cs = some (j, rest)) :
    ∃ i, isIntegral i = true ∧ cs = Text.decimal i ++ rest ∧ j = .int i := by
  obtain ⟨i, -, hi⟩ := Option.bind_eq_some_iff.mp h
  split at hi
  case isTrue hcond =>
    cases hi
    refine ⟨i, hcond.2, ?_, rfl⟩
    rw [hcond.1]
    exact List.takeWhile_append_dropWhile.symm
  case isFalse => cases hi

/-- What may follow an item. -/
def Follows (close : Char) (rest : List Char) : Prop :=
  ∃ c tail, rest = c :: tail ∧ (c = ',' ∨ c = close)

theorem separated_eq {read : Reader α} {close : Char} {texts : List (List Char)} {as : List α}
    (hread : List.Forall₂ (fun t a => ∀ rest, Follows close rest → read (t ++ rest) = some (a, rest))
      texts as) (hne : texts ≠ []) (hclose : close ≠ ',') {n : Nat} (hn : texts.length ≤ n)
    (rest : List Char) :
    separated close read n (List.intercalate [','] texts ++ close :: rest) = some (as, rest) := by
  induction hread generalizing n with
  | nil => exact absurd rfl hne
  | @cons t a texts as hhead htail ih =>
    simp only [List.length_cons] at hn
    obtain ⟨k, rfl⟩ : ∃ k, n = k + 1 := ⟨n - 1, by omega⟩
    cases htail with
    | nil =>
      have hstep := hhead (close :: rest) ⟨close, rest, rfl, .inr rfl⟩
      simp [separated, hstep, hclose]
    | cons hsecond htail =>
      rename_i u b texts as
      have hstep := hhead (',' :: (List.intercalate [','] (u :: texts) ++ close :: rest))
        ⟨',', _, rfl, .inl rfl⟩
      have hrest := ih (List.cons_ne_nil _ _) (n := k) (by simpa using hn)
      rw [List.intercalate_cons_cons, List.append_assoc, List.append_assoc, List.singleton_append,
        separated, hstep]
      simp [hrest]

theorem separated_spec {read : Reader α} {close : Char} {P : List Char → α → Prop}
    (hread : ∀ cs a rest, read cs = some (a, rest) → ∃ t, cs = t ++ rest ∧ P t a) {n : Nat}
    {cs rest : List Char} {as : List α} (h : separated close read n cs = some (as, rest)) :
    ∃ texts, cs = List.intercalate [','] texts ++ close :: rest ∧ List.Forall₂ P texts as ∧
      texts ≠ [] := by
  induction n generalizing cs as with
  | zero => cases h
  | succ n ih =>
    obtain ⟨⟨a, cs'⟩, ha, hgo⟩ := Option.bind_eq_some_iff.mp h
    obtain ⟨t, rfl, ht⟩ := hread _ _ _ ha
    cases cs' with
    | nil => cases hgo
    | cons c tail =>
      simp only at hgo
      split at hgo
      case isTrue hcomma =>
        obtain ⟨⟨as', rest'⟩, hrest, heq⟩ := Option.map_eq_some_iff.mp hgo
        cases heq
        obtain ⟨texts, rfl, htexts, hne⟩ := ih hrest
        refine ⟨t :: texts, ?_, .cons ht htexts, List.cons_ne_nil _ _⟩
        rw [List.intercalate_cons_of_ne_nil hne, hcomma]
        simp
      case isFalse hcomma =>
        split at hgo
        case isTrue hclose =>
          cases hgo
          exact ⟨[t], by rw [List.intercalate_singleton, hclose], .cons ht .nil,
            List.cons_ne_nil _ _⟩
        case isFalse => cases hgo

theorem length_le_intercalate (texts : List (List Char)) :
    texts.length ≤ (List.intercalate [','] texts).length + 1 := by
  induction texts with
  | nil => simp
  | cons t texts ih =>
    cases texts with
    | nil => simp
    | cons u texts =>
      rw [List.intercalate_cons_cons]
      simp only [List.length_cons, List.length_append, List.length_nil] at ih ⊢
      omega

theorem enclosed_nil (read : Reader α) {close : Char} (hclose : isSpace close = false)
    {w : List Char} (hw : Blank w) (rest : List Char) :
    enclosed close read (w ++ close :: rest) = some ([], rest) := by
  have hskip : skip (w ++ close :: rest) = close :: rest := skip_append hw (by simpa using hclose)
  simp [enclosed, hskip]

theorem enclosed_eq {read : Reader α} {close : Char} {texts : List (List Char)} {as : List α}
    (hread : List.Forall₂ (fun t a => ∀ rest, Follows close rest → read (t ++ rest) = some (a, rest))
      texts as) (hne : texts ≠ []) (hclose : close ≠ ',') (rest : List Char)
    (hfirst : (skip (List.intercalate [','] texts ++ close :: rest)).head? ≠ some close) :
    enclosed close read (List.intercalate [','] texts ++ close :: rest) = some (as, rest) := by
  have hlength : texts.length ≤ (List.intercalate [','] texts ++ close :: rest).length := by
    have := length_le_intercalate texts
    simp only [List.length_append, List.length_cons]
    omega
  rw [enclosed, if_neg hfirst]
  exact separated_eq hread hne hclose hlength rest

theorem enclosed_spec {read : Reader α} {close : Char} {P : List Char → α → Prop}
    (hread : ∀ cs a rest, read cs = some (a, rest) → ∃ t, cs = t ++ rest ∧ P t a)
    {cs rest : List Char} {as : List α} (h : enclosed close read cs = some (as, rest)) :
    ∃ w texts, Blank w ∧ cs = w ++ List.intercalate [','] texts ++ close :: rest ∧
      List.Forall₂ P texts as := by
  unfold enclosed at h
  split at h
  case isTrue hempty =>
    cases h
    obtain ⟨w, hw, hcs⟩ := skip_spec cs
    obtain ⟨tail, htail⟩ := List.head?_eq_some_iff.mp hempty
    refine ⟨w, [], hw, ?_, .nil⟩
    rw [htail] at hcs ⊢
    rw [List.intercalate_nil, List.append_nil]
    exact hcs
  case isFalse =>
    obtain ⟨texts, hcs, htexts, -⟩ := separated_spec hread h
    exact ⟨[], texts, by simp [Blank], hcs, htexts⟩

section Padded

variable {read : Reader Json} {close : Char} {i : Item}

/-- What follows the text of an item does not go on with a number. -/
theorem ends_after (hspaced : i.Spaced) (hclose : isNumeric close = false) {rest : List Char}
    (hrest : Follows close rest) : Ends (i.after ++ rest) := by
  obtain ⟨c, tail, rfl, hc⟩ := hrest
  have hnumeric : isNumeric c = false := by
    rcases hc with rfl | rfl
    · rfl
    · exact hclose
  intro d hd
  cases hafter : i.after with
  | nil =>
    rw [hafter] at hd
    cases hd
    exact hnumeric
  | cons x after =>
    rw [hafter] at hd
    obtain rfl : x = d := Option.some.inj hd
    have hspace := hspaced.after x (by rw [hafter]; exact List.mem_cons_self)
    simp only [isSpace, Bool.or_eq_true, decide_eq_true_eq] at hspace
    obtain ((rfl | rfl) | rfl) | rfl := hspace <;> rfl

theorem padded_eq (hspaced : i.Spaced) {c : Char} {u : List Char} (hcons : i.text = c :: u)
    (hc : isFirst c = true)
    (hread : ∀ rest, Ends rest → read (i.text ++ rest) = some (i.json, rest))
    (hnumeric : isNumeric close = false) (hspace : isSpace close = false) {rest : List Char}
    (hrest : Follows close rest) : padded read (i.padded ++ rest) = some (i.json, rest) := by
  have hskip : skip (i.padded ++ rest) = i.text ++ (i.after ++ rest) := by
    rw [Item.padded, List.append_assoc, List.append_assoc]
    refine skip_append hspaced.before ?_
    rw [hcons]
    simpa using isSpace_of_isFirst hc
  have hafter : skip (i.after ++ rest) = rest := by
    refine skip_append hspaced.after ?_
    obtain ⟨d, tail, rfl, hd⟩ := hrest
    rcases hd with rfl | rfl
    · simp [isSpace]
    · simpa using hspace
  rw [padded, hskip, hread _ (ends_after hspaced hnumeric hrest), Option.map_some, hafter]

theorem padded_spec {P : List Char → Json → Prop}
    (hread : ∀ cs a rest, read cs = some (a, rest) → ∃ t, cs = t ++ rest ∧ P t a)
    {cs rest : List Char} {a : Json} (h : padded read cs = some (a, rest)) :
    ∃ i : Item, cs = i.padded ++ rest ∧ i.json = a ∧ i.Spaced ∧ P i.text i.json := by
  obtain ⟨⟨a', rest'⟩, ha, heq⟩ := Option.map_eq_some_iff.mp h
  cases heq
  obtain ⟨before, hbefore, hcs⟩ := skip_spec cs
  obtain ⟨after, hafter, hrest⟩ := skip_spec rest'
  obtain ⟨t, ht, hP⟩ := hread _ _ _ ha
  refine ⟨⟨before, t, after, a'⟩, ?_, rfl, ⟨hbefore, hafter⟩, hP⟩
  rw [hcs, ht, Item.padded]
  conv => lhs; rw [hrest]
  simp

end Padded

section Member

variable {read : Reader Json} {m : Member}

theorem readMember_eq (hspaced : m.Spaced) (hbody : Body m.keyText m.key) {rest : List Char}
    (hread : padded read (m.toItem.padded ++ rest) = some (m.json, rest)) :
    readMember read (m.padded ++ rest) = some ((String.ofList m.key, m.json), rest) := by
  have hquote : skip (m.padded ++ rest) =
      '"' :: (m.keyText ++ '"' :: (m.keyAfter ++ ':' :: (m.toItem.padded ++ rest))) := by
    simp only [Member.padded, List.append_assoc, List.cons_append, List.nil_append]
    exact skip_append hspaced.keyBefore (by simp [isSpace])
  have hcolon : skip (m.keyAfter ++ ':' :: (m.toItem.padded ++ rest)) =
      ':' :: (m.toItem.padded ++ rest) :=
    skip_append hspaced.keyAfter (by simp [isSpace])
  have hkey := hbody.read (m.keyAfter ++ ':' :: (m.toItem.padded ++ rest))
    (m.keyText ++ '"' :: (m.keyAfter ++ ':' :: (m.toItem.padded ++ rest))).length
    (by simp only [List.length_append, List.length_cons]; omega)
  simp only [readMember, hquote, if_true, hkey, Option.bind_some, hcolon, hread, Option.map_some]

theorem readMember_spec {P : List Char → Json → Prop}
    (hread : ∀ cs a rest, read cs = some (a, rest) → ∃ t, cs = t ++ rest ∧ P t a)
    {cs rest : List Char} {x : String × Json} (h : readMember read cs = some (x, rest)) :
    ∃ m : Member, cs = m.padded ++ rest ∧ (String.ofList m.key, m.json) = x ∧ m.Spaced ∧
      Body m.keyText m.key ∧ P m.text m.json := by
  unfold readMember at h
  split at h
  case h_1 => cases h
  case h_2 q t hskip =>
    split at h
    case isFalse => cases h
    case isTrue hq =>
      obtain ⟨⟨key, t'⟩, hkey, hgo⟩ := Option.bind_eq_some_iff.mp h
      simp only at hgo
      split at hgo
      case h_1 => cases hgo
      case h_2 c t'' hskip' =>
        split at hgo
        case isFalse => cases hgo
        case isTrue hc =>
          obtain ⟨⟨j, rest'⟩, hj, heq⟩ := Option.map_eq_some_iff.mp hgo
          cases heq
          obtain ⟨kt, rfl, hbody⟩ := readBody_spec hkey
          obtain ⟨i, rfl, rfl, hspaced, hP⟩ := padded_spec hread hj
          obtain ⟨before, hbefore, hcs⟩ := skip_spec cs
          obtain ⟨after, hafter, ht'⟩ := skip_spec t'
          refine ⟨⟨i, before, kt, after, key⟩, ?_, rfl, ⟨hspaced, hbefore, hafter⟩, hbody, hP⟩
          rw [hcs, hskip, ht', hskip', hq, hc]
          simp [Member.padded]

end Member

theorem exists_list {β γ δ : Type} {f : δ → β} {g : δ → γ} {Q : δ → Prop} {bs : List β}
    {cs : List γ} (h : List.Forall₂ (fun b c => ∃ d, f d = b ∧ g d = c ∧ Q d) bs cs) :
    ∃ ds : List δ, ds.map f = bs ∧ ds.map g = cs ∧ ∀ d ∈ ds, Q d := by
  induction h with
  | nil => exact ⟨[], rfl, rfl, by simp⟩
  | cons hd _ ih =>
    obtain ⟨d, rfl, rfl, hQ⟩ := hd
    obtain ⟨ds, rfl, rfl, hQs⟩ := ih
    exact ⟨d :: ds, rfl, rfl, List.forall_mem_cons.mpr ⟨hQ, hQs⟩⟩

/-! ## Values -/

theorem readWord_eq (word : List Char) (j : Json) (rest : List Char) :
    readWord word j (word ++ rest) = some (j, rest) := by
  simp [readWord]

theorem readWord_spec {word cs rest : List Char} {j j' : Json}
    (h : readWord word j cs = some (j', rest)) : cs = word ++ rest ∧ j = j' := by
  unfold readWord at h
  split at h
  case isTrue hprefix =>
    obtain ⟨tail, rfl⟩ := List.isPrefixOf_iff_prefix.mp hprefix
    cases h
    exact ⟨by simp, rfl⟩
  case isFalse => cases h

theorem readValue_number {c : Char} (hc : c.isDigit ∨ c = '-') (fuel : Nat) (t : List Char) :
    readValue (fuel + 1) (c :: t) = readNumber (c :: t) := by
  have hne {d : Char} (hd : d.isDigit = false) (hd' : d ≠ '-') : c ≠ d := by
    rintro rfl
    rcases hc with hc | hc
    · rw [hd] at hc
      cases hc
    · exact hd' hc
  rw [readValue, if_neg (hne (by decide) (by decide)), if_neg (hne (by decide) (by decide)),
    if_neg (hne (by decide) (by decide)), if_neg (hne (by decide) (by decide)),
    if_neg (hne (by decide) (by decide)), if_neg (hne (by decide) (by decide))]

theorem collect_eq {members : List Member} :
    collect (members.map fun m => (String.ofList m.key, m.json)) = entries members := by
  rw [collect, entries, List.foldl_map]

/-- The blanks before the first item, as part of the item. -/
def Item.shift (w : List Char) (i : Item) : Item := { i with before := w ++ i.before }

theorem Item.Spaced.shift {w : List Char} (hw : Blank w) {i : Item} (h : i.Spaced) :
    (i.shift w).Spaced :=
  ⟨fun c hc => (List.mem_append.mp hc).elim (hw c) (h.before c), h.after⟩

def Member.shift (w : List Char) (m : Member) : Member := { m with keyBefore := w ++ m.keyBefore }

theorem Member.Spaced.shift {w : List Char} (hw : Blank w) {m : Member} (h : m.Spaced) :
    (m.shift w).Spaced where
  toSpaced := h.toSpaced
  keyBefore c hc := (List.mem_append.mp hc).elim (hw c) (h.keyBefore c)
  keyAfter := h.keyAfter

theorem intercalate_shift {β : Type} (w : List Char) {f : β → List Char} {b : β} (b' : β)
    (hb : f b' = w ++ f b) (bs : List β) :
    w ++ List.intercalate [','] ((b :: bs).map f) = List.intercalate [','] ((b' :: bs).map f) := by
  cases bs with
  | nil => simp [hb]
  | cons c bs =>
    simp only [List.map_cons, List.intercalate_cons_cons, hb, List.append_assoc]

theorem head_skip_item {i : Item} (h : i.Spaced) {c : Char} {u : List Char}
    (hcons : i.text = c :: u) (hc : isFirst c = true) (rest : List Char) :
    (skip (i.padded ++ rest)).head? = some c := by
  rw [Item.padded, List.append_assoc, List.append_assoc, hcons, skip_append h.before]
  · rfl
  · simpa using isSpace_of_isFirst hc

theorem head_skip_member {m : Member} (h : m.Spaced) (rest : List Char) :
    (skip (m.padded ++ rest)).head? = some '"' := by
  simp only [Member.padded, List.append_assoc, List.cons_append, List.nil_append]
  rw [skip_append h.keyBefore (by simp [isSpace])]
  rfl

theorem head_skip_intercalate {β : Type} {f : β → List Char} {b : β} {bs : List β} {c : Char}
    (h : ∀ rest, (skip (f b ++ rest)).head? = some c) (rest : List Char) :
    (skip (List.intercalate [','] ((b :: bs).map f) ++ rest)).head? = some c := by
  cases bs with
  | nil => simpa using h rest
  | cons d bs =>
    rw [List.map_cons, List.map_cons, List.intercalate_cons_cons, List.append_assoc,
      List.append_assoc]
    exact h _

theorem forall₂_map {β γ δ : Type} {f : δ → β} {g : δ → γ} {R : β → γ → Prop} {ds : List δ}
    (h : ∀ d ∈ ds, R (f d) (g d)) : List.Forall₂ R (ds.map f) (ds.map g) := by
  induction ds with
  | nil => exact .nil
  | cons d ds ih =>
    rw [List.forall_mem_cons] at h
    exact .cons h.1 (ih h.2)

theorem Value.read {depth : Nat} {t : List Char} {j : Json} (h : Value Bool.false depth t j)
    {fuel : Nat} (hfuel : depth < fuel) {rest : List Char} (hrest : Ends rest) :
    readValue fuel (t ++ rest) = some (j, rest) := by
  induction h generalizing fuel rest with
  | null =>
    obtain ⟨n, rfl⟩ : ∃ n, fuel = n + 1 := ⟨fuel - 1, by omega⟩
    exact readWord_eq ['n', 'u', 'l', 'l'] .null rest
  | true =>
    obtain ⟨n, rfl⟩ : ∃ n, fuel = n + 1 := ⟨fuel - 1, by omega⟩
    exact readWord_eq ['t', 'r', 'u', 'e'] (.bool Bool.true) rest
  | false =>
    obtain ⟨n, rfl⟩ : ∃ n, fuel = n + 1 := ⟨fuel - 1, by omega⟩
    exact readWord_eq ['f', 'a', 'l', 's', 'e'] (.bool Bool.false) rest
  | @int depth i hi =>
    obtain ⟨n, rfl⟩ : ∃ n, fuel = n + 1 := ⟨fuel - 1, by omega⟩
    obtain ⟨c, u, hcons, hc⟩ := decimal_cons i
    have hnumber := readNumber_decimal hi hrest
    rw [hcons, List.cons_append] at hnumber ⊢
    rw [readValue_number hc, hnumber]
  | float h _ _ => cases h
  | @string depth t s hbody =>
    obtain ⟨n, rfl⟩ : ∃ n, fuel = n + 1 := ⟨fuel - 1, by omega⟩
    have hread := hbody.read rest (t ++ '"' :: rest).length
      (by simp only [List.length_append, List.length_cons]; omega)
    rw [List.append_assoc, List.cons_append, List.singleton_append, readValue, if_pos rfl, hread,
      Option.map_some]
  | @array depth w items hw hspaced hitems ih =>
    obtain ⟨n, rfl⟩ : ∃ n, fuel = n + 1 := ⟨fuel - 1, by omega⟩
    have henclosed : enclosed ']' (padded (readValue n))
        (w ++ List.intercalate [','] (items.map Item.padded) ++ ']' :: rest) =
          some (items.map (·.json), rest) := by
      cases items with
      | nil => simpa using enclosed_nil (padded (readValue n)) (by decide) hw rest
      | cons i items =>
        rw [List.forall_mem_cons] at hspaced hitems ih
        obtain ⟨c, u, hcons, hc⟩ := hitems.1.cons
        rw [intercalate_shift w (i.shift w) (by simp [Item.padded, Item.shift])]
        change enclosed _ _ _ = some (((i.shift w) :: items).map (·.json), rest)
        refine enclosed_eq (forall₂_map ?_) (by simp) (by decide) rest ?_
        · rw [List.forall_mem_cons]
          constructor
          · intro rest hfollows
            exact padded_eq (hspaced.1.shift hw) hcons hc
              (fun _ hends => ih.1 (by omega) hends) (by decide) (by decide) hfollows
          · intro d hd rest hfollows
            obtain ⟨c', u', hcons', hc'⟩ := (hitems.2 d hd).cons
            exact padded_eq (hspaced.2 d hd) hcons' hc'
              (fun _ hends => ih.2 d hd (by omega) hends) (by decide) (by decide) hfollows
        · rw [head_skip_intercalate fun rest => head_skip_item (hspaced.1.shift hw) hcons hc rest]
          rintro h
          cases h
          exact absurd hc (by decide)
    rw [List.append_assoc, List.cons_append, List.singleton_append, readValue,
      if_neg (by decide), if_pos rfl, henclosed, Option.map_some]
  | @object depth w members hw hspaced hkeys hmembers ih =>
    obtain ⟨n, rfl⟩ : ∃ n, fuel = n + 1 := ⟨fuel - 1, by omega⟩
    have henclosed : enclosed '}' (readMember (readValue n))
        (w ++ List.intercalate [','] (members.map Member.padded) ++ '}' :: rest) =
          some (members.map fun m => (String.ofList m.key, m.json), rest) := by
      cases members with
      | nil => simpa using enclosed_nil (readMember (readValue n)) (by decide) hw rest
      | cons m members =>
        rw [List.forall_mem_cons] at hspaced hkeys hmembers ih
        rw [intercalate_shift w (m.shift w) (by simp [Member.padded, Member.shift])]
        change enclosed _ _ _ =
          some (((m.shift w) :: members).map fun m => (String.ofList m.key, m.json), rest)
        refine enclosed_eq (forall₂_map ?_) (by simp) (by decide) rest ?_
        · rw [List.forall_mem_cons]
          constructor
          · intro rest hfollows
            obtain ⟨c, u, hcons, hc⟩ := hmembers.1.cons
            exact readMember_eq (hspaced.1.shift hw) hkeys.1 (padded_eq hspaced.1.toSpaced hcons hc
              (fun _ hends => ih.1 (by omega) hends) (by decide) (by decide) hfollows)
          · intro d hd rest hfollows
            obtain ⟨c, u, hcons, hc⟩ := (hmembers.2 d hd).cons
            exact readMember_eq (hspaced.2 d hd) (hkeys.2 d hd)
              (padded_eq (hspaced.2 d hd).toSpaced hcons hc
                (fun _ hends => ih.2 d hd (by omega) hends) (by decide) (by decide) hfollows)
        · rw [head_skip_intercalate fun rest => head_skip_member (hspaced.1.shift hw) rest]
          decide
    rw [List.append_assoc, List.cons_append, List.singleton_append, readValue,
      if_neg (by decide), if_neg (by decide), if_pos rfl, henclosed, Option.map_some, collect_eq]

theorem readValue_spec (reals : Bool) {fuel : Nat} {cs rest : List Char} {j : Json}
    (h : readValue fuel cs = some (j, rest)) : ∃ t, cs = t ++ rest ∧ Value reals fuel t j := by
  induction fuel generalizing cs rest j with
  | zero => cases h
  | succ n ih =>
    cases cs with
    | nil => cases h
    | cons c t =>
      rw [readValue] at h
      split at h
      case isTrue hc =>
        obtain ⟨⟨s, rest'⟩, hbody, heq⟩ := Option.map_eq_some_iff.mp h
        cases heq
        obtain ⟨u, rfl, hu⟩ := readBody_spec hbody
        exact ⟨'"' :: u ++ ['"'], by simp [hc], .string hu⟩
      case isFalse =>
      split at h
      case isTrue hc =>
        obtain ⟨⟨js, rest'⟩, hitems, heq⟩ := Option.map_eq_some_iff.mp h
        cases heq
        obtain ⟨w, texts, hw, rfl, htexts⟩ := enclosed_spec
          (P := fun t a => ∃ i : Item, i.padded = t ∧ i.json = a ∧ i.Spaced ∧
            Value reals n i.text i.json)
          (fun cs a rest ha => by
            obtain ⟨i, hcs, hjson, hspaced, hi⟩ := padded_spec (fun _ _ _ => ih) ha
            exact ⟨i.padded, hcs, i, rfl, hjson, hspaced, hi⟩) hitems
        obtain ⟨items, rfl, rfl, hall⟩ := exists_list htexts
        refine ⟨_, ?_, .array hw (fun i hi => (hall i hi).1) fun i hi => (hall i hi).2⟩
        simp [hc]
      case isFalse =>
      split at h
      case isTrue hc =>
        obtain ⟨⟨es, rest'⟩, hmembers, heq⟩ := Option.map_eq_some_iff.mp h
        cases heq
        obtain ⟨w, texts, hw, rfl, htexts⟩ := enclosed_spec
          (P := fun t x => ∃ m : Member, m.padded = t ∧ (String.ofList m.key, m.json) = x ∧
            (m.Spaced ∧ Body m.keyText m.key ∧ Value reals n m.text m.json))
          (fun cs a rest ha => by
            obtain ⟨m, hcs, hx, hm⟩ := readMember_spec (fun _ _ _ => ih) ha
            exact ⟨m.padded, hcs, m, rfl, hx, hm⟩) hmembers
        obtain ⟨members, rfl, rfl, hall⟩ := exists_list htexts
        rw [collect_eq]
        refine ⟨_, ?_, .object hw (fun m hm => (hall m hm).1) (fun m hm => (hall m hm).2.1)
          fun m hm => (hall m hm).2.2⟩
        simp [hc]
      case isFalse =>
      split at h
      case isTrue =>
        obtain ⟨hcs, rfl⟩ := readWord_spec h
        exact ⟨_, hcs, .null⟩
      case isFalse =>
      split at h
      case isTrue =>
        obtain ⟨hcs, rfl⟩ := readWord_spec h
        exact ⟨_, hcs, .true⟩
      case isFalse =>
      split at h
      case isTrue =>
        obtain ⟨hcs, rfl⟩ := readWord_spec h
        exact ⟨_, hcs, .false⟩
      case isFalse =>
        obtain ⟨i, hi, hcs, rfl⟩ := readNumber_spec h
        exact ⟨_, hcs, .int hi⟩

theorem read_parses : Parses 127 read where
  denotes {text j} h := by
    unfold read at h
    split at h
    case h_2 => cases h
    case h_1 j' rest hvalue =>
      split at h
      case isFalse => cases h
      case isTrue hrest =>
        cases h
        obtain ⟨core, hcore, hcorev⟩ := readValue_spec true hvalue
        obtain ⟨before, hbefore, htext⟩ := skip_spec text
        obtain ⟨after, hafter, hrest'⟩ := skip_spec rest
        rw [hrest, List.append_nil] at hrest'
        refine ⟨128, before, core, after, hbefore, hafter, ?_, hcorev⟩
        rw [htext, hcore, hrest', List.append_assoc]
  accepts {text j} h := by
    obtain ⟨before, core, after, hbefore, hafter, rfl, hcore⟩ := h
    obtain ⟨c, u, hcons, hc⟩ := hcore.cons
    have hskip : skip (before ++ core ++ after) = core ++ after := by
      rw [List.append_assoc]
      refine skip_append hbefore ?_
      rw [hcons]
      simpa using isSpace_of_isFirst hc
    have hafter' : skip after = [] := by
      have hskip : skip (after ++ []) = [] := skip_append hafter (by simp)
      rwa [List.append_nil] at hskip
    have hends : Ends after := by
      intro d hd
      have hspace := hafter d (List.mem_of_mem_head? hd)
      simp only [isSpace, Bool.or_eq_true, decide_eq_true_eq] at hspace
      obtain ((rfl | rfl) | rfl) | rfl := hspace <;> rfl
    have hvalue : readValue 128 (core ++ after) = some (j, after) := hcore.read (by decide) hends
    simp only [read, hskip, hvalue, hafter', if_true]

end Json
