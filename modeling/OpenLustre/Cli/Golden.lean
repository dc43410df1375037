import OpenLustre.Cli.Scenario

/-! Which differences between a trace and its golden one the comparison sees. -/

namespace OpenLustre.Cli

namespace Csv

/-- The cell of a row in a column; one that is missing is empty. -/
def cell (row : List String) (i : Nat) : String := row[i]?.getD ""

/-- The cell of a row in the first column of a name. -/
def named (header row : List String) (col : String) : String := ((header.zip row).lookup col).getD ""

/-- A trace without the columns that are not asked for. -/
def restrict (g : Csv) (cols : List String) : Csv where
  header := g.header.filter fun col => cols.contains col
  rows := g.rows.map fun row =>
    ((g.header.zip row).filter fun x => cols.contains x.1).map (·.2)

/-- What a trace is to equal: the golden one, or its columns that the trace has. -/
def expected (projectColumns : Bool) (g a : Csv) : Csv :=
  if projectColumns then g.restrict a.header else g

/-- A trace equals the golden one, in the columns compared. -/
def Equal (projectColumns : Bool) (g a : Csv) : Prop :=
  (projectColumns = true → ∀ col ∈ a.header, col ∈ g.header) ∧ a = expected projectColumns g a

/-- One of two traces has a column the other one needs, or more rows, or a named cell differs. -/
def Shows (projectColumns : Bool) (g a : Csv) : Prop :=
  (∃ col ∈ a.header, col ∉ g.header) ∨
    (projectColumns = false ∧ ∃ col ∈ g.header, col ∉ a.header) ∨
    g.rows.length ≠ a.rows.length ∨
    ∃ rows ∈ g.rows.zip a.rows, ∃ i col, a.header[i]? = some col ∧
      named g.header rows.1 col ≠ cell rows.2 i

/-- Every cell of the second row is what the first row has in the first column of its name. -/
def Reads (header x y : List String) : Prop :=
  ∀ i col, header[i]? = some col → named header x col = cell y i

/-- Rows of one length, with the same cells past the header. -/
def SameShape (header x y : List String) : Prop :=
  x.length = y.length ∧ x.drop header.length = y.drop header.length

/-- One header, without columns of one name that differ, over rows of one shape. -/
structure LaidOutAlike (e a : Csv) : Prop where
  header : a.header = e.header
  shape : List.Forall₂ (SameShape e.header) e.rows a.rows
  consistent : ∀ row ∈ e.rows, Reads e.header row row

theorem cell_idxOf {header : List String} {col : String} (h : col ∈ header) (row : List String) :
    cell row (header.idxOf col) = named header row col := by
  induction header generalizing row with
  | nil => cases h
  | cons name header ih =>
    cases row with
    | nil => rfl
    | cons x row =>
      by_cases hname : name = col
      · simp [hname, cell, named]
      · have hne : (col == name) = false := by simpa using Ne.symm hname
        have hne' : (name == col) = false := by simpa using hname
        have hmem : col ∈ header := (List.mem_cons.mp h).resolve_left (Ne.symm hname)
        have hrest := ih hmem row
        simpa [cell, named, List.idxOf_cons, hne', List.lookup_cons, hne] using hrest

section

variable {p : String → Bool}

theorem zip_filter (header row : List String) :
    (header.filter p).zip (((header.zip row).filter fun x => p x.1).map (·.2)) =
      (header.zip row).filter fun x => p x.1 := by
  induction header generalizing row with
  | nil => simp
  | cons name header ih =>
    cases row with
    | nil => simp
    | cons x row => cases hp : p name <;> simp [hp, ih]

theorem lookup_filter {col : String} (h : p col = true) (cells : List (String × String)) :
    (cells.filter fun x => p x.1).lookup col = cells.lookup col := by
  induction cells with
  | nil => rfl
  | cons x cells ih =>
    obtain ⟨name, v⟩ := x
    by_cases hx : col = name
    · simp [← hx, h]
    · have hne : (col == name) = false := by simpa using hx
      cases hp : p name <;> simp [hp, ih, List.lookup_cons, hne]

end

/-- The columns kept read as they did. -/
theorem named_restrict {g : Csv} {cols : List String} {col : String} (h : col ∈ cols)
    (row : List String) :
    named (g.header.filter fun col => cols.contains col)
      (((g.header.zip row).filter fun x => cols.contains x.1).map (·.2)) col =
        named g.header row col := by
  rw [named, zip_filter, lookup_filter (by simpa using h), named]

end Csv

theorem mem_columnPairs {g a : Csv} {x : Nat × Nat × String} :
    x ∈ columnPairs g a ↔
      a.header[x.1]? = some x.2.2 ∧ x.2.2 ∈ g.header ∧ x.2.1 = g.header.idxOf x.2.2 := by
  obtain ⟨i, j, col⟩ := x
  simp only [columnPairs, List.mem_filterMap, List.contains_eq_mem, decide_eq_true_eq, Prod.exists,
    Option.ite_none_right_eq_some, Option.some.injEq, Prod.mk.injEq, List.mem_zipIdx_iff_getElem?]
  constructor
  · rintro ⟨_, _, h, hmem, rfl, rfl, rfl⟩
    exact ⟨h, hmem, rfl⟩
  · rintro ⟨h, hmem, rfl⟩
    exact ⟨col, i, h, hmem, rfl, rfl, rfl⟩

theorem cellDiff_eq_none {g a : List String} {r i j : Nat} {col : String} :
    cellDiff g a r (i, j, col) = none ↔ Csv.cell g j = Csv.cell a i := by
  simp [cellDiff, Csv.cell]

theorem isEmpty_getLast {messages : List String} (h : ∀ m ∈ messages, m ≠ "") :
    (messages.getLast?.getD "").isEmpty = true ↔ messages = [] := by
  cases hlast : messages.getLast? with
  | none => simpa using hlast
  | some m =>
    have hm := h m (List.mem_of_getLast? hlast)
    have hne : messages ≠ [] := by
      rintro rfl
      cases hlast
    simpa [hne] using hm

theorem status_eq_pass {diffs : List CellDiff} {messages : List String}
    (h : ∀ m ∈ messages, m ≠ "") :
    (if (diffs.take maxDiffs).isEmpty && (messages.getLast?.getD "").isEmpty then RunStatus.pass
      else .fail) = .pass ↔ diffs = [] ∧ messages = [] := by
  have hdiffs : (diffs.take maxDiffs).isEmpty = true ↔ diffs = [] := by simp [maxDiffs]
  rw [← hdiffs, ← isEmpty_getLast h, ← Bool.and_eq_true]
  split
  · next hpass => simp only [hpass]
  · next hfail => simp only [hfail, reduceCtorEq]

theorem cellDiffs_eq_nil {g a : Csv} :
    ((g.rows.zip a.rows).zipIdx.flatMap fun ((g', a'), r) =>
      (columnPairs g a).filterMap (cellDiff g' a' r)) = [] ↔
      ∀ rows ∈ g.rows.zip a.rows, ∀ i col, a.header[i]? = some col → col ∈ g.header →
        Csv.named g.header rows.1 col = Csv.cell rows.2 i := by
  simp only [List.flatMap_eq_nil_iff, List.filterMap_eq_nil_iff]
  constructor
  · intro h rows hrows i col hcol hmem
    obtain ⟨r, hr⟩ := List.mem_iff_getElem?.mp hrows
    have hpair := h (rows, r) (List.mem_zipIdx_iff_getElem?.mpr hr) (i, g.header.idxOf col, col)
      (mem_columnPairs.mpr ⟨hcol, hmem, rfl⟩)
    rw [← Csv.cell_idxOf hmem]
    exact cellDiff_eq_none.mp hpair
  · rintro h ⟨rows, r⟩ hrows ⟨i, j, col⟩ hpair
    obtain ⟨hcol, hmem, hj⟩ := mem_columnPairs.mp hpair
    obtain rfl : j = g.header.idxOf col := hj
    have hread := h rows (List.mem_of_getElem? (List.mem_zipIdx_iff_getElem?.mp hrows)) i col hcol hmem
    rw [← Csv.cell_idxOf hmem] at hread
    exact cellDiff_eq_none.mpr hread

/-- The comparison passes just when it is shown no difference. -/
theorem compareCsv_pass {golden actual name : String} {backend : Backend} {projectColumns : Bool} :
    (compareCsv golden actual name backend projectColumns).status = .pass ↔
      ¬ Csv.Shows projectColumns (parseCsv golden) (parseCsv actual) := by
  simp only [compareCsv, Csv.Shows]
  generalize parseCsv golden = g
  generalize parseCsv actual = a
  rw [status_eq_pass]
  · simp only [List.append_eq_nil_iff, List.map_eq_nil_iff, List.filter_eq_nil_iff, ite_eq_left_iff,
      ite_eq_right_iff, reduceCtorEq, imp_false, ne_eq, not_or, not_and, not_exists, not_not,
      Bool.not_eq_true, Bool.not_eq_false', List.contains_eq_mem, decide_eq_true_eq]
    constructor
    · rintro ⟨hdiffs, ⟨⟨hgolden, hactual⟩, hrows⟩, -⟩
      have hread := cellDiffs_eq_nil.mp hdiffs
      refine ⟨hgolden, hactual, hrows, fun rows hmem i col hcol => ?_⟩
      exact hread rows hmem i col hcol (hgolden col (List.mem_of_getElem? hcol))
    · rintro ⟨hgolden, hactual, hrows, hread⟩
      have hdiffs := cellDiffs_eq_nil.mpr fun rows hmem i col hcol _ => hread rows hmem i col hcol
      refine ⟨hdiffs, ⟨⟨hgolden, hactual⟩, hrows⟩, ?_⟩
      rw [hdiffs]
      decide
  · intro m hm
    have hnonempty : ∀ start rest : String, start ≠ "" → start ++ rest ≠ "" := by
      intro start rest h happ
      exact h (String.append_eq_empty_iff.mp happ).1
    simp only [List.mem_append, List.mem_map, List.mem_ite_nil_left, List.mem_ite_nil_right,
      List.mem_singleton] at hm
    obtain ((⟨col, -, rfl⟩ | ⟨-, col, -, rfl⟩) | ⟨-, rfl⟩) | ⟨-, rfl⟩ := hm
    · exact hnonempty _ _ (hnonempty _ _ (by decide))
    · exact hnonempty _ _ (hnonempty _ _ (by decide))
    · exact hnonempty _ _ (hnonempty _ _ (hnonempty _ _ (by decide)))
    · exact hnonempty _ _ (hnonempty _ _ (by decide))

namespace Csv

variable {projectColumns : Bool} {g a : Csv}

/-- The rows of what is expected read, in the columns compared, as the golden ones. -/
theorem expected_rows (projectColumns : Bool) (g a : Csv) :
    ∃ keep : List String → List String, (expected projectColumns g a).rows = g.rows.map keep ∧
      ∀ row, ∀ col ∈ a.header,
        named (expected projectColumns g a).header (keep row) col = named g.header row col := by
  cases projectColumns with
  | false => exact ⟨id, (List.map_id _).symm, fun _ _ _ => rfl⟩
  | true => exact ⟨_, rfl, fun row col hcol => named_restrict hcol row⟩

theorem expected_header (h : a.header = (expected projectColumns g a).header) :
    (∀ col ∈ a.header, col ∈ g.header) ∧
      (projectColumns = false → ∀ col ∈ g.header, col ∈ a.header) := by
  cases projectColumns with
  | false =>
    have hheader : a.header = g.header := h
    rw [hheader]
    exact ⟨fun _ hcol => hcol, fun _ _ hcol => hcol⟩
  | true =>
    refine ⟨fun col hcol => ?_, nofun⟩
    rw [h] at hcol
    exact List.mem_of_mem_filter hcol

/-- Under the header expected, the rows show no difference when they read alike. -/
theorem not_shows (h : a.header = (expected projectColumns g a).header) :
    ¬ Shows projectColumns g a ↔
      List.Forall₂ (Reads (expected projectColumns g a).header) (expected projectColumns g a).rows
        a.rows := by
  obtain ⟨hgolden, hactual⟩ := expected_header h
  obtain ⟨keep, hrows, hnamed⟩ := expected_rows projectColumns g a
  rw [hrows, List.forall₂_map_left_iff, List.forall₂_iff_zip]
  simp only [Shows, not_or, not_exists, not_and, not_not, ← h]
  have hread : ∀ row (i : Nat) (col : String), a.header[i]? = some col →
      named a.header (keep row) col = named g.header row col := by
    intro row i col hcol
    have hkeep := hnamed row col (List.mem_of_getElem? hcol)
    rwa [← h] at hkeep
  constructor
  · rintro ⟨-, -, hlength, hcells⟩
    refine ⟨hlength, fun hmem i col hcol => ?_⟩
    rw [hread _ i col hcol]
    exact hcells _ hmem i col hcol
  · rintro ⟨hlength, hcells⟩
    refine ⟨hgolden, hactual, hlength, fun rows hmem i col hcol => ?_⟩
    rw [← hread _ i col hcol]
    exact hcells hmem i col hcol

/-- A row that reads like a consistent one of its shape is that row. -/
theorem SameShape.eq {header x y : List String} (h : SameShape header x y)
    (hx : Reads header x x) (hy : Reads header x y) : x = y := by
  obtain ⟨hlength, hdrop⟩ := h
  apply List.ext_getElem hlength
  intro i hi hi'
  by_cases hcol : i < header.length
  · have hcell := (hx i _ (List.getElem?_eq_getElem hcol)).symm.trans
      (hy i _ (List.getElem?_eq_getElem hcol))
    simpa [cell, hi, hi'] using hcell
  · have hrest := congrArg (fun l => l[i - header.length]?) hdrop
    simp only [List.getElem?_drop, Nat.add_sub_cancel' (Nat.not_lt.mp hcol)] at hrest
    simpa [hi, hi'] using hrest

theorem LaidOutAlike.eq {e a : Csv} (h : LaidOutAlike e a)
    (hread : List.Forall₂ (Reads e.header) e.rows a.rows) : a = e := by
  obtain ⟨hlength, hshape⟩ := List.forall₂_iff_zip.mp h.shape
  have hrows : List.Forall₂ Eq e.rows a.rows := by
    refine List.forall₂_iff_zip.mpr ⟨hlength, fun hmem => ?_⟩
    exact (hshape hmem).eq (h.consistent _ (List.of_mem_zip hmem).1)
      ((List.forall₂_iff_zip.mp hread).2 hmem)
  rw [List.forall₂_eq_eq_eq] at hrows
  cases e
  cases a
  exact congrArg₂ Csv.mk h.header hrows.symm

end Csv

/-- The comparison passes on equal traces only, and on all of them, just when the traces are
laid out alike or a difference of theirs shows. -/
theorem compareCsv_exact (golden actual name : String) (backend : Backend) (projectColumns : Bool) :
    ((compareCsv golden actual name backend projectColumns).status = .pass ↔
        Csv.Equal projectColumns (parseCsv golden) (parseCsv actual)) ↔
      Csv.LaidOutAlike (Csv.expected projectColumns (parseCsv golden) (parseCsv actual))
          (parseCsv actual) ∨
        ¬ Csv.Equal projectColumns (parseCsv golden) (parseCsv actual) ∧
          Csv.Shows projectColumns (parseCsv golden) (parseCsv actual) := by
  rw [compareCsv_pass]
  generalize parseCsv golden = g
  generalize parseCsv actual = a
  constructor
  · intro h
    by_cases heq : Csv.Equal projectColumns g a
    · have hrows := congrArg Csv.rows heq.2
      have hread := (Csv.not_shows (congrArg Csv.header heq.2)).mp (h.mpr heq)
      rw [← hrows] at hread
      refine .inl ⟨congrArg Csv.header heq.2, ?_, ?_⟩
      · rw [← hrows]
        exact List.forall₂_same.mpr fun _ _ => ⟨rfl, rfl⟩
      · rw [← hrows]
        exact List.forall₂_same.mp hread
    · exact .inr ⟨heq, not_not.mp fun hnot => heq (h.mp hnot)⟩
  · rintro (h | ⟨heq, hshows⟩)
    · rw [Csv.not_shows h.header]
      constructor
      · exact fun hread => ⟨fun _ => (Csv.expected_header h.header).1, h.eq hread⟩
      · intro heq
        rw [congrArg Csv.rows heq.2]
        exact List.forall₂_same.mpr h.consistent
    · exact iff_of_false (not_not.mpr hshows) heq

/-- A trace with its columns in another order passes. -/
theorem compareCsv_reordered :
    ¬ ((compareCsv "x,y\n1,2\n" "y,x\n2,1\n" "s" .ir false).status = .pass ↔
      Csv.Equal false (parseCsv "x,y\n1,2\n") (parseCsv "y,x\n2,1\n")) := by
  intro h
  have hheader := congrArg Csv.header (h.mp (by decide +kernel)).2
  revert hheader
  decide +kernel

end OpenLustre.Cli
