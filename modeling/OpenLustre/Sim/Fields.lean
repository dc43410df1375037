import Mathlib.Data.String.Basic
import OpenLustre.Lib.Stateful
import OpenLustre.Sim.Value

/-! The maps of record values: kept sorted by field name, so that two maps with the same
fields are the same. -/

namespace OpenLustre.Simulator

open OpenLustre.Ir

theorem lookup_cons_eq {β : Type} (k : String) (v : β) (m : List (String × β)) (x : String) :
    ((k, v) :: m).lookup x = if x = k then some v else m.lookup x := by
  rw [List.lookup_cons]
  by_cases hx : x = k
  · simp [hx]
  · rw [beq_eq_false_iff_ne.mpr hx, if_neg hx]

theorem lookup_insertField (name : String) (v : Value) (m : List (String × Value)) (x : String) :
    (insertField name v m).lookup x = if x = name then some v else m.lookup x := by
  induction m with
  | nil => exact lookup_cons_eq name v [] x
  | cons e rest ih =>
    obtain ⟨f, w⟩ := e
    unfold insertField
    split
    case isTrue hname =>
      subst hname
      simp only [lookup_cons_eq]
      split <;> rfl
    case isFalse hname =>
      split
      case isTrue => exact lookup_cons_eq name v ((f, w) :: rest) x
      case isFalse =>
        simp only [lookup_cons_eq, ih]
        by_cases hx : x = f
        · rw [if_pos hx, if_neg (hx ▸ Ne.symm hname), if_pos hx]
        · rw [if_neg hx, if_neg hx]

theorem length_insertField {name : String} {v : Value} {m : List (String × Value)}
    (h : m.lookup name = none) : (insertField name v m).length = m.length + 1 := by
  induction m with
  | nil => rfl
  | cons e rest ih =>
    obtain ⟨f, w⟩ := e
    rw [lookup_cons_eq] at h
    split at h
    · cases h
    case isFalse hname =>
      unfold insertField
      rw [if_neg hname]
      split
      · rfl
      · rw [List.length_cons, ih h, List.length_cons]

def Sorted (m : List (String × Value)) : Prop := m.Pairwise fun a b => a.1 < b.1

theorem mem_insertField {name : String} {v : Value} {m : List (String × Value)}
    {e : String × Value} (h : e ∈ insertField name v m) : e = (name, v) ∨ e ∈ m := by
  induction m with
  | nil => simpa [insertField] using h
  | cons f rest ih =>
    unfold insertField at h
    grind

theorem Sorted.insertField {m : List (String × Value)} (h : Sorted m) (name : String) (v : Value) :
    Sorted (Simulator.insertField name v m) := by
  induction m with
  | nil => exact List.pairwise_singleton _ _
  | cons e rest ih =>
    obtain ⟨f, w⟩ := e
    obtain ⟨hhead, htail⟩ := List.pairwise_cons.mp h
    unfold Simulator.insertField
    split
    case isTrue hname =>
      subst hname
      exact List.pairwise_cons.mpr ⟨hhead, htail⟩
    case isFalse hname =>
      split
      case isTrue hlt =>
        refine List.pairwise_cons.mpr ⟨List.forall_mem_cons.mpr ⟨hlt, fun e he => ?_⟩, h⟩
        exact hlt.trans (hhead e he)
      case isFalse hlt =>
        refine List.pairwise_cons.mpr ⟨fun e he => ?_, ih htail⟩
        rcases mem_insertField he with rfl | he
        · exact lt_of_le_of_ne (not_lt.mp hlt) (Ne.symm hname)
        · exact hhead e he

theorem mem_of_lookup {β : Type} {m : List (String × β)} {x : String} {v : β}
    (h : m.lookup x = some v) : (x, v) ∈ m := by
  induction m with
  | nil => cases h
  | cons e rest ih =>
    obtain ⟨f, w⟩ := e
    rw [lookup_cons_eq] at h
    split at h
    case isTrue hx =>
      cases h
      exact hx ▸ List.mem_cons_self
    case isFalse => exact List.mem_cons_of_mem _ (ih h)

theorem exists_lookup {β : Type} {m : List (String × β)} {x : String} (h : x ∈ m.map (·.1)) :
    ∃ v, m.lookup x = some v := by
  induction m with
  | nil => cases h
  | cons e rest ih =>
    obtain ⟨f, w⟩ := e
    rw [lookup_cons_eq]
    split
    case isTrue => exact ⟨w, rfl⟩
    case isFalse hne =>
      rcases List.mem_cons.mp h with heq | h
      · exact absurd heq hne
      · exact ih h

/-- A name below all names of a map is not in it. -/
theorem lookup_eq_none {m : List (String × Value)} {x : String} (h : ∀ e ∈ m, x < e.1) :
    m.lookup x = none := by
  cases hx : m.lookup x with
  | none => rfl
  | some v => exact absurd (h _ (mem_of_lookup hx)) (lt_irrefl x)

theorem Sorted.lookup {m : List (String × Value)} (h : Sorted m) {x : String} {v : Value}
    (hmem : (x, v) ∈ m) : m.lookup x = some v := by
  induction m with
  | nil => cases hmem
  | cons e rest ih =>
    obtain ⟨f, w⟩ := e
    obtain ⟨hhead, htail⟩ := List.pairwise_cons.mp h
    rw [lookup_cons_eq]
    rcases List.mem_cons.mp hmem with heq | hmem
    · cases heq
      rw [if_pos rfl]
    · have hlt : f < x := hhead _ hmem
      rw [if_neg hlt.ne', ih htail hmem]

theorem Sorted.ext {a b : List (String × Value)} (ha : Sorted a) (hb : Sorted b)
    (h : ∀ x, a.lookup x = b.lookup x) : a = b := by
  induction a generalizing b with
  | nil =>
    cases b with
    | nil => rfl
    | cons e rest =>
      have := h e.1
      rw [hb.lookup (v := e.2) List.mem_cons_self] at this
      cases this
  | cons e as ih =>
    obtain ⟨k, v⟩ := e
    obtain ⟨hahead, hatail⟩ := List.pairwise_cons.mp ha
    have hk : b.lookup k = some v := by rw [← h, lookup_cons_eq, if_pos rfl]
    cases b with
    | nil => cases hk
    | cons e bs =>
      obtain ⟨l, w⟩ := e
      obtain ⟨hbhead, hbtail⟩ := List.pairwise_cons.mp hb
      have hl : ((k, v) :: as).lookup l = some w := by rw [h, lookup_cons_eq, if_pos rfl]
      obtain rfl : k = l := by
        rcases List.mem_cons.mp (mem_of_lookup hk) with heq | hbs
        · cases heq
          rfl
        rcases List.mem_cons.mp (mem_of_lookup hl) with heq | has
        · cases heq
          rfl
        exact absurd ((hbhead _ hbs).trans (hahead _ has)) (lt_irrefl l)
      rw [lookup_cons_eq, if_pos rfl] at hk
      cases hk
      congr 1
      refine ih hatail hbtail fun x => ?_
      have hx := h x
      rw [lookup_cons_eq, lookup_cons_eq] at hx
      split at hx
      case isTrue heq =>
        subst heq
        rw [lookup_eq_none hahead, lookup_eq_none hbhead]
      case isFalse => exact hx

section Collect

variable {ε : Type} {value : RecordField → Except ε Value} {fields : List RecordField}
  {m m' : List (String × Value)}

/-- Fill a map with the values of the fields of a record. -/
def collectFields (value : RecordField → Except ε Value) (fields : List RecordField) :
    Except ε (List (String × Value)) :=
  fields.foldlM (fun m f => (value f).map fun v => insertField f.name v m) []

theorem foldlM_collect (hm : Sorted m)
    (h : fields.foldlM (fun m f => (value f).map fun v => insertField f.name v m) m = .ok m') :
    Sorted m' ∧ (∀ f ∈ fields, ∃ v, value f = .ok v) ∧
      ∀ x, (∃ f ∈ fields, f.name = x ∧ ∃ v, value f = .ok v ∧ m'.lookup x = some v) ∨
        x ∉ fields.map (·.name) ∧ m'.lookup x = m.lookup x := by
  induction fields generalizing m with
  | nil =>
    cases h
    exact ⟨hm, by simp, fun x => .inr ⟨by simp, rfl⟩⟩
  | cons f fields ih =>
    rw [List.foldlM_cons] at h
    obtain ⟨m₁, hm₁, h⟩ := Except.bind_eq_ok.mp h
    obtain ⟨v, hv, rfl⟩ := Except.map_eq_ok.mp hm₁
    obtain ⟨hsorted, hall, hlookup⟩ := ih (hm.insertField f.name v) h
    refine ⟨hsorted, List.forall_mem_cons.mpr ⟨⟨v, hv⟩, hall⟩, fun x => ?_⟩
    rcases hlookup x with ⟨g, hg, hname, w, hw, hx⟩ | ⟨hx, heq⟩
    · exact .inl ⟨g, List.mem_cons_of_mem _ hg, hname, w, hw, hx⟩
    · rw [lookup_insertField] at heq
      split at heq
      case isTrue hxf => exact .inl ⟨f, List.mem_cons_self, hxf.symm, v, hv, heq⟩
      case isFalse hxf =>
        refine .inr ⟨?_, heq⟩
        rw [List.map_cons, List.mem_cons, not_or]
        exact ⟨hxf, hx⟩

/-- A collected map is sorted; it has a value for each field, and nothing else. -/
theorem collectFields_spec (h : collectFields value fields = .ok m) :
    Sorted m ∧ (∀ f ∈ fields, ∃ v, value f = .ok v) ∧
      (∀ x v, m.lookup x = some v → ∃ f ∈ fields, f.name = x ∧ value f = .ok v) ∧
      ∀ f ∈ fields, (m.lookup f.name).isSome := by
  obtain ⟨hsorted, hall, hlookup⟩ := foldlM_collect List.Pairwise.nil h
  refine ⟨hsorted, hall, fun x v hv => ?_, fun f hf => ?_⟩
  · rcases hlookup x with ⟨f, hf, hname, w, hw, hx⟩ | ⟨-, hx⟩
    · rw [hv] at hx
      cases hx
      exact ⟨f, hf, hname, hw⟩
    · rw [hv] at hx
      cases hx
  · rcases hlookup f.name with ⟨g, hg, hname, w, hw, hx⟩ | ⟨hx, -⟩
    · rw [hx]
      rfl
    · exact absurd (List.mem_map_of_mem hf) hx

theorem foldlM_isOk (h : ∀ f ∈ fields, ∃ v, value f = .ok v) (m : List (String × Value)) :
    ∃ m', fields.foldlM (fun m f => (value f).map fun v => insertField f.name v m) m = .ok m' := by
  induction fields generalizing m with
  | nil => exact ⟨m, rfl⟩
  | cons f fields ih =>
    obtain ⟨⟨v, hv⟩, hrest⟩ := List.forall_mem_cons.mp h
    obtain ⟨m', hm'⟩ := ih hrest (insertField f.name v m)
    refine ⟨m', ?_⟩
    rw [List.foldlM_cons, hv]
    exact hm'

/-- The fields of a record value are collected to its map. -/
theorem collectFields_eq (hm : Sorted m)
    (hvalue : ∀ f ∈ fields, ∃ v, m.lookup f.name = some v ∧ value f = .ok v)
    (hnames : ∀ x, (m.lookup x).isSome → ∃ f ∈ fields, f.name = x) :
    collectFields value fields = .ok m := by
  obtain ⟨m', hm'⟩ := foldlM_isOk (fun f hf => (hvalue f hf).imp fun _ h => h.2) []
  obtain ⟨hsorted, -, hlookup, hsome⟩ := collectFields_spec hm'
  have heq : m' = m := by
    refine hsorted.ext hm fun x => ?_
    cases hx : m'.lookup x with
    | some v =>
      obtain ⟨f, hf, rfl, hv⟩ := hlookup x v hx
      obtain ⟨w, hw, hval⟩ := hvalue f hf
      rw [hv] at hval
      cases hval
      exact hw.symm
    | none =>
      cases hmx : m.lookup x with
      | none => rfl
      | some v =>
        obtain ⟨f, hf, rfl⟩ := hnames x (by rw [hmx]; rfl)
        have := hsome f hf
        rw [hx] at this
        cases this
  rw [← heq]
  exact hm'

end Collect

end OpenLustre.Simulator
