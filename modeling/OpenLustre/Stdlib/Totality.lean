import OpenLustre.Lib.Text
import OpenLustre.Stdlib.Parsed
import OpenLustre.Stdlib.Scanner

/-! Reading a text, as tokens, an expression or a type, always ends, and never with a panic. -/

namespace OpenLustre.Stdlib

open OpenLustre.Ir

/-- The characters in the first bytes of a text, if they end between two characters. -/
def takeBytes : Nat → List Char → Option (List Char)
  | 0, _ => some []
  | _ + 1, [] => none
  | n + 1, c :: cs =>
    if c.utf8Size ≤ n + 1 then (takeBytes (n + 1 - c.utf8Size) cs).map (c :: ·) else none
  termination_by _ cs => cs

def dropBytes : Nat → List Char → Option (List Char)
  | 0, cs => some cs
  | _ + 1, [] => none
  | n + 1, c :: cs => if c.utf8Size ≤ n + 1 then dropBytes (n + 1 - c.utf8Size) cs else none
  termination_by _ cs => cs

def byteLength (cs : List Char) : Nat := (cs.map Char.utf8Size).sum

inductive TypeFault
  | outOfFuel
  | panic
  | unknownType (src : String)
  deriving DecidableEq, Repr

/-- A slice of a text, which panics inside a character and past the end. -/
def sliceChars (start stop : Nat) (cs : List Char) : Except TypeFault (List Char) :=
  match (dropBytes start cs).bind (takeBytes (stop - start)) with
  | some part => if start ≤ stop then .ok part else .error .panic
  | none => .error .panic

/-- An unsigned number of 32 bits, as the standard library reads one. -/
def parseU32 (cs : List Char) : Option Nat := (Text.readUnsigned cs).filter (· < 2 ^ 32)

def typeOfName (src : String) : Except TypeFault Ty :=
  match src with
  | "bool" => .ok .bool
  | "int8" => .ok .int8
  | "int16" => .ok .int16
  | "int" | "int32" => .ok .int32
  | "int64" => .ok .int64
  | "uint8" => .ok .uint8
  | "uint16" => .ok .uint16
  | "uint32" => .ok .uint32
  | "uint64" => .ok .uint64
  | "float32" => .ok .float32
  | "real" | "float64" => .ok .float64
  | "char" => .ok .char
  | "" => .error (.unknownType src)
  | other => .ok (.named other)

/-- Parse a textual type annotation. -/
def parseType : Nat → List Char → Except TypeFault Ty
  | 0, _ => .error .outOfFuel
  | fuel + 1, src =>
    let src := Text.trimChars src
    if src.contains '[' then
      if src.getLast? ≠ some ']' then .error (.unknownType (String.ofList src))
      else do
        let start := byteLength (src.takeWhile (· ≠ '['))
        let elem ← sliceChars 0 start src
        let len ← sliceChars (start + 1) (byteLength src - 1) src
        match parseU32 (Text.trimChars len) with
        | none => .error (.unknownType (String.ofList src))
        | some len => do
          let elem ← parseType fuel elem
          .ok (.array elem len)
    else typeOfName (String.ofList src)

section Slices

variable {cs rest : List Char}

theorem takeBytes_append : takeBytes (byteLength cs) (cs ++ rest) = some cs := by
  induction cs with
  | nil => exact takeBytes.eq_1 rest
  | cons c cs ih =>
    obtain ⟨n, hn⟩ := Nat.exists_eq_add_of_lt (Char.utf8Size_pos c)
    have hlength : byteLength (c :: cs) = n + byteLength cs + 1 := by
      simp only [byteLength, List.map_cons, List.sum_cons, hn]
      omega
    rw [List.cons_append, hlength, takeBytes, if_pos (by omega),
      show n + byteLength cs + 1 - c.utf8Size = byteLength cs by omega, ih, Option.map_some]

theorem dropBytes_append : dropBytes (byteLength cs) (cs ++ rest) = some rest := by
  induction cs with
  | nil => exact dropBytes.eq_1 rest
  | cons c cs ih =>
    obtain ⟨n, hn⟩ := Nat.exists_eq_add_of_lt (Char.utf8Size_pos c)
    have hlength : byteLength (c :: cs) = n + byteLength cs + 1 := by
      simp only [byteLength, List.map_cons, List.sum_cons, hn]
      omega
    rw [List.cons_append, hlength, dropBytes, if_pos (by omega),
      show n + byteLength cs + 1 - c.utf8Size = byteLength cs by omega, ih]

@[simp] theorem byteLength_append : byteLength (cs ++ rest) = byteLength cs + byteLength rest := by
  simp [byteLength]

theorem sliceChars_append (before part after : List Char) :
    sliceChars (byteLength before) (byteLength before + byteLength part)
      (before ++ (part ++ after)) = .ok part := by
  rw [sliceChars, dropBytes_append, Option.bind_some, Nat.add_sub_cancel_left, takeBytes_append]
  exact if_pos (Nat.le_add_right _ _)

end Slices

section Types

theorem mem_of_mem_trimChars {c : Char} {cs : List Char} (h : c ∈ Text.trimChars cs) : c ∈ cs := by
  obtain ⟨before, after, -, -, hcs, -⟩ := Text.trimChars_spec cs
  rw [hcs]
  exact List.mem_append_left _ (List.mem_append_right _ h)

variable {src elem len : List Char} {fuel : Nat}

theorem parseType_name (h : '[' ∉ Text.trimChars src) :
    parseType (fuel + 1) src = typeOfName (String.ofList (Text.trimChars src)) := by
  rw [parseType, if_neg (by simpa using h)]

theorem parseType_open (h : '[' ∈ Text.trimChars src)
    (hlast : (Text.trimChars src).getLast? ≠ some ']') :
    parseType (fuel + 1) src = .error (.unknownType (String.ofList (Text.trimChars src))) := by
  rw [parseType, if_pos (by simpa using h), if_pos hlast]

/-- Both slices of an array type are whole characters. -/
theorem parseType_array (h : Text.trimChars src = elem ++ '[' :: (len ++ [']']))
    (helem : '[' ∉ elem) :
    parseType (fuel + 1) src =
      match parseU32 (Text.trimChars len) with
      | none => .error (.unknownType (String.ofList (Text.trimChars src)))
      | some n => (parseType fuel elem).map (.array · n) := by
  have hbefore : (Text.trimChars src).takeWhile (· ≠ '[') = elem := by
    have hne : ∀ c ∈ elem, decide (c ≠ '[') = true := by
      intro c hc
      exact decide_eq_true fun heq => helem (by rwa [← heq])
    rw [h, List.takeWhile_append_of_pos hne, List.takeWhile_cons_of_neg (by simp),
      List.append_nil]
  have hopen : byteLength elem + 1 = byteLength (elem ++ ['[']) := by
    rw [byteLength_append]
    rfl
  have hclose : byteLength (Text.trimChars src) - 1 =
      byteLength (elem ++ ['[']) + byteLength len := by
    rw [h, List.append_cons, ← List.append_assoc, byteLength_append, byteLength_append]
    exact Nat.add_sub_cancel _ 1
  have hfirst : sliceChars 0 (byteLength elem) (Text.trimChars src) = .ok elem := by
    simpa [byteLength, h] using sliceChars_append [] elem ('[' :: (len ++ [']']))
  have hsecond : sliceChars (byteLength elem + 1) (byteLength (Text.trimChars src) - 1)
      (Text.trimChars src) = .ok len := by
    rw [hclose, hopen, h]
    simpa using sliceChars_append (elem ++ ['[']) len [']']
  have hlast : (Text.trimChars src).getLast? = some ']' := by
    rw [h, ← List.cons_append, ← List.append_assoc, List.getLast?_append]
    rfl
  rw [parseType, if_pos (by simp [h]), if_neg (not_not_intro hlast), hbefore]
  simp only [hfirst, hsecond, bind, Except.bind]
  cases parseU32 (Text.trimChars len) with
  | none => rfl
  | some n =>
    cases parseType fuel elem with
    | error e => rfl
    | ok ty => rfl

/-- A text with a bracket, which closes, is an element and a length. -/
theorem brackets_cut (h : '[' ∈ src) (hlast : src.getLast? = some ']') :
    ∃ elem len, src = elem ++ '[' :: (len ++ [']']) ∧ '[' ∉ elem := by
  obtain ⟨elem, rest, rfl, helem⟩ := List.eq_append_cons_of_mem h
  rcases List.eq_nil_or_concat rest with rfl | ⟨len, last, rfl⟩
  · rw [List.getLast?_concat] at hlast
    cases hlast
  · rw [List.concat_eq_append, ← List.cons_append, ← List.append_assoc,
      List.getLast?_concat] at hlast
    cases hlast
    exact ⟨elem, len, by rw [List.concat_eq_append], helem⟩

/-- A text is a type, or it is the text of no type. -/
def Settled (result : Except TypeFault Ty) : Prop :=
  (∃ ty, result = .ok ty) ∨ ∃ src, result = .error (.unknownType src)

theorem typeOfName_settled (src : String) : Settled (typeOfName src) := by
  unfold typeOfName
  split <;> first | exact .inl ⟨_, rfl⟩ | exact .inr ⟨_, rfl⟩

/-- An element has no bracket, so types nest to depth two. -/
theorem parseType_settled (src : List Char) (fuel : Nat) :
    Settled (parseType 2 src) ∧ parseType (fuel + 2) src = parseType 2 src := by
  by_cases hbracket : '[' ∈ Text.trimChars src
  case neg =>
    rw [parseType_name hbracket, parseType_name hbracket]
    exact ⟨typeOfName_settled _, rfl⟩
  case pos =>
    by_cases hlast : (Text.trimChars src).getLast? = some ']'
    case neg =>
      rw [parseType_open hbracket hlast, parseType_open hbracket hlast]
      exact ⟨.inr ⟨_, rfl⟩, rfl⟩
    case pos =>
      obtain ⟨elem, len, hcut, helem⟩ := brackets_cut hbracket hlast
      have hname : '[' ∉ Text.trimChars elem := fun hmem => helem (mem_of_mem_trimChars hmem)
      rw [parseType_array hcut helem, parseType_array hcut helem, parseType_name hname,
        parseType_name hname]
      refine ⟨?_, rfl⟩
      cases parseU32 (Text.trimChars len) with
      | none => exact .inr ⟨_, rfl⟩
      | some n =>
        obtain ⟨ty, hty⟩ | ⟨e, he⟩ := typeOfName_settled (String.ofList (Text.trimChars elem))
        · exact .inl ⟨_, by rw [hty]; rfl⟩
        · exact .inr ⟨_, by rw [he]; rfl⟩

end Types

section Expressions

/-- No bracket is open below the last token: what a deeper expression would be is never asked. -/
theorem parseArrow_iterate (bottom : Parse Expr) :
    ∀ k n, k < n → Parser.AgreeTo k (parseArrow^[n] bottom) parseTokens
  | _, 0, hn => absurd hn (Nat.not_lt_zero _)
  | 0, n + 1, _ => by
    intro ts hk
    cases List.length_eq_zero_iff.mp (Nat.le_zero.mp hk)
    rw [Function.iterate_succ_apply', parseTokens_eq, parseArrow_nil, parseArrow_nil]
  | k + 1, n + 1, hn => by
    rw [Function.iterate_succ_apply', parseTokens_eq]
    intro ts hk
    refine (parseArrow_congr ?_ parseTokens_consumes ts hk).symm
    intro ts hk
    exact (parseArrow_iterate bottom k n (by omega) ts hk).symm

end Expressions

end OpenLustre.Stdlib
