import Mathlib.Data.List.Basic

/-! Strings as the bytes of their encoding. -/

def utf8 (s : String) : List UInt8 := s.toByteArray.data.toList

def ofUtf8 (bytes : List UInt8) : Option String := String.fromUTF8? ⟨⟨bytes⟩⟩

theorem utf8_injective {s t : String} (h : utf8 s = utf8 t) : s = t := by
  apply String.toByteArray_inj.mp
  exact ByteArray.ext (Array.toList_inj.mp h)

@[simp] theorem utf8_append (s t : String) : utf8 (s ++ t) = utf8 s ++ utf8 t := by
  simp [utf8, String.toByteArray_append]

@[simp] theorem utf8_eq_nil {s : String} : utf8 s = [] ↔ s = "" :=
  ⟨fun h => utf8_injective h, fun h => by rw [h]; rfl⟩

theorem length_utf8 (s : String) : (utf8 s).length = s.utf8ByteSize := rfl

/-- Characters of the same size can be exchanged without changing the length. -/
theorem length_utf8_map {f : Char → Char} (hf : ∀ c, (f c).utf8Size = c.utf8Size) (cs : List Char) :
    (utf8 (String.ofList (cs.map f))).length = (utf8 (String.ofList cs)).length := by
  have hcons (c : Char) (cs : List Char) :
      (utf8 (String.ofList (c :: cs))).length = c.utf8Size + (utf8 (String.ofList cs)).length := by
    have happend : String.ofList (c :: cs) = String.singleton c ++ String.ofList cs := by simp
    rw [happend, utf8_append, List.length_append, length_utf8, String.utf8ByteSize_singleton]
  induction cs with
  | nil => rfl
  | cons c cs ih => rw [List.map_cons, hcons, hcons, hf, ih]

theorem utf8_intercalate (sep : String) (items : List String) :
    utf8 (String.intercalate sep items) = List.intercalate (utf8 sep) (items.map utf8) := by
  match items with
  | [] => simp
  | [item] => simp
  | first :: second :: rest =>
    rw [String.intercalate_cons_cons, utf8_append, utf8_append, utf8_intercalate]
    simp [List.intercalate_cons_cons]
