import Mathlib.Data.List.Basic

/-! Words with a separator between them, none of which contains it. -/

namespace Delimited

variable {α : Type} {sep : α} {fields fields' : List (List α)} {field : List α}

def join (sep : α) (fields : List (List α)) : List α := List.intercalate [sep] fields

/-- No word contains the separator. -/
def Free (sep : α) (fields : List (List α)) : Prop := ∀ field ∈ fields, sep ∉ field

theorem Free.append (h : Free sep fields) (h' : Free sep fields') : Free sep (fields ++ fields') :=
  fun field hmem => (List.mem_append.mp hmem).elim (h field) (h' field)

@[simp] theorem join_single (field : List α) : join sep [field] = field := List.intercalate_singleton

theorem join_cons (field : List α) (hne : fields ≠ []) :
    join sep (field :: fields) = field ++ sep :: join sep fields := by
  obtain ⟨first, rest, rfl⟩ := List.exists_cons_of_ne_nil hne
  simp [join, List.intercalate_cons_cons]

theorem join_append (hne : fields ≠ []) (hne' : fields' ≠ []) :
    join sep (fields ++ fields') = join sep fields ++ sep :: join sep fields' := by
  induction fields with
  | nil => exact absurd rfl hne
  | cons field fields ih =>
    by_cases hrest : fields = []
    · rw [hrest, join_single, List.cons_append, List.nil_append, join_cons field hne']
    · rw [List.cons_append, join_cons field (List.append_ne_nil_of_left_ne_nil hrest _),
        ih hrest, join_cons field hrest, List.append_assoc, List.cons_append]

/-- The words are read back from the text. -/
theorem join_injective [BEq α] [LawfulBEq α] (h : Free sep fields) (h' : Free sep fields')
    (hne : fields ≠ []) (hne' : fields' ≠ []) (heq : join sep fields = join sep fields') :
    fields = fields' := by
  rw [← List.splitOn_intercalate sep h hne, ← List.splitOn_intercalate sep h' hne']
  exact congrArg (List.splitOn sep) heq

end Delimited
