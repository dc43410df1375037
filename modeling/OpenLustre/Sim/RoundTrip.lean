import OpenLustre.Sim.Written

/-! Printed values are read back, and typed inputs are values of their types. -/

namespace OpenLustre.Simulator

open OpenLustre.Ir Brackets

/-- Variants and fields are named by identifiers. -/
def identifiers (p : Project) : Nat → Ty → Bool :=
  everywhere p (fun _ => true) fun
    | .enum e => e.variants.all fun v => isIdentifier v.toList
    | .record _ fields => fields.all fun f => isIdentifier f.name.toList
    | .aliasOf _ _ => true

/-- An array of a single variant that is named like a JSON word. -/
inductive HoldsLiteral : Value → Prop
  | here {variant : String} : variant.toList ∈ Json.literals →
      HoldsLiteral (.array [.enum variant])
  | element {x : Value} {xs : List Value} : x ∈ xs → HoldsLiteral x → HoldsLiteral (.array xs)
  | field {k : String} {x : Value} {m : List (String × Value)} : (k, x) ∈ m → HoldsLiteral x →
      HoldsLiteral (.record m)

section Print

variable {io : InputIo} {p : Project}

theorem toCsvList_eq (xs : List Value) : Value.toCsvList io xs = xs.map (·.toCsv io) := by
  induction xs with
  | nil => rfl
  | cons x xs ih => rw [Value.toCsvList, ih, List.map_cons]

/-- The fields of a record as they are printed. -/
def printedField (io : InputIo) (e : String × Value) : FieldText :=
  ⟨e.1.toList, e.1, e.2.toCsv io, e.2⟩

theorem toCsvFields_eq (m : List (String × Value)) :
    Value.toCsvFields io m = (m.map (printedField io)).map (·.text) := by
  induction m with
  | nil => rfl
  | cons e m ih =>
    obtain ⟨k, v⟩ := e
    rw [Value.toCsvFields, ih, List.map_cons, List.map_cons]
    rfl

theorem toCsv_array (xs : List Value) : (Value.array xs).toCsv io =
    '[' :: List.intercalate [';'] (xs.map (·.toCsv io)) ++ [']'] := by
  rw [Value.toCsv, toCsvList_eq]

theorem toCsv_record (m : List (String × Value)) : (Value.record m).toCsv io =
    '{' :: List.intercalate [';'] ((m.map (printedField io)).map (·.text)) ++ ['}'] := by
  rw [Value.toCsv, toCsvFields_eq]

theorem Sorted.nodup {m : List (String × Value)} (h : Sorted m) : (m.map (·.1)).Nodup :=
  List.pairwise_map.mpr (h.imp fun hlt => hlt.ne)

variable {room : Nat} {ty : Ty} {v : Value}

theorem identifiers_enum {name variant : String} {e : EnumDef}
    (hname : findType p name = some (.enum e)) (hmem : variant ∈ e.variants)
    (h : identifiers p (room + 1) (.named name) = true) : isIdentifier variant.toList = true := by
  simp only [identifiers, everywhere, hname] at h
  exact List.all_eq_true.mp h variant hmem

theorem identifiers_record {name name' : String} {fields : List RecordField}
    (hname : findType p name = some (.record name' fields))
    (h : identifiers p (room + 1) (.named name) = true) :
    ∀ f ∈ fields, isIdentifier f.name.toList = true ∧ identifiers p room f.ty = true := by
  simp only [identifiers, everywhere, hname, Bool.and_eq_true, List.all_eq_true] at h
  exact fun f hf => ⟨h.1 f hf, h.2 f hf⟩

theorem identifiers_alias {name name' : String} {target : Ty}
    (hname : findType p name = some (.aliasOf name' target))
    (h : identifiers p (room + 1) (.named name) = true) : identifiers p room target = true := by
  simp only [identifiers, everywhere, hname, Bool.and_eq_true] at h
  exact h.2

/-- What is printed spells the value; strictly so if no array holds just a JSON word. -/
theorem toCsv_written (io : InputIo) (strict : Bool) (h : Conforms p room ty v)
    (hident : identifiers p room ty = true) (hliteral : strict = true → ¬HoldsLiteral v) :
    Written strict room (v.toCsv io) v ∧ Text.trimChars (v.toCsv io) = v.toCsv io := by
  induction h with
  | @bool room b =>
    have hvalue : Json.Value false (room + 1) ((Value.bool b).toCsv io) (.bool b) := by
      cases b
      · exact .false
      · exact .true
    exact ⟨.json hvalue.denotes .bool, hvalue.tight.trimChars⟩
  | @int room ty i lo hi hty hlo hhi =>
    have hrange := intRange_inI64 hty
    have hint : Json.isIntegral i = true := by
      simp only [minI64, maxI64] at hrange
      simp only [Json.isIntegral, decide_eq_true_eq]
      omega
    have hvalue : Json.Value false (room + 1) ((Value.int i).toCsv io) (.int i) := .int hint
    exact ⟨.json hvalue.denotes .int, hvalue.tight.trimChars⟩
  | @char room i hlo hhi =>
    have hint : Json.isIntegral i = true := by
      simp only [Json.isIntegral, decide_eq_true_eq]
      omega
    have hvalue : Json.Value false (room + 1) ((Value.int i).toCsv io) (.int i) := .int hint
    exact ⟨.json hvalue.denotes .int, hvalue.tight.trimChars⟩
  | @array room len elem xs hlen _ ih =>
    have htrim : Text.trimChars ((Value.array xs).toCsv io) = (Value.array xs).toCsv io := by
      rw [toCsv_array]
      exact (Json.tight_enclosed rfl rfl _).trimChars
    refine ⟨?_, htrim⟩
    cases xs with
    | nil => exact .emptyArray (w := []) (by simp) htrim
    | cons x xs =>
      refine .of_elements (·.toCsv io) (List.cons_ne_nil _ _) (by rw [htrim, toCsv_array])
        (fun y hy => (ih y hy hident fun hs hlit => hliteral hs (.element hy hlit)).1) ?_
      rintro hs y hy ⟨variant, rfl, -, hmem⟩
      exact hliteral hs (hy ▸ .here hmem)
  | @enum room name variant e hname hmem =>
    have hid := identifiers_enum hname hmem hident
    have htrim := (tight_of_isWord (isWord_of_isIdentifier hid)).trimChars
    exact ⟨.variant hid htrim, htrim⟩
  | @record room name name' fields m hname hsorted hnames hall ih =>
    have hids := identifiers_record hname hident
    have htrim : Text.trimChars ((Value.record m).toCsv io) = (Value.record m).toCsv io := by
      rw [toCsv_record]
      exact (Json.tight_enclosed rfl rfl _).trimChars
    refine ⟨?_, htrim⟩
    have hfield : ∀ e ∈ m, isWord e.1.toList = true ∧ Written strict room (e.2.toCsv io) e.2 := by
      intro e he
      have hlookup := hsorted.lookup he
      obtain ⟨f, hf, hfname⟩ := (hnames e.1).mp (by rw [hlookup]; rfl)
      rw [← hfname] at hlookup ⊢
      exact ⟨isWord_of_isIdentifier (hids f hf).1, (ih f hf e.2 hlookup (hids f hf).2
        fun hs hlit => hliteral hs (.field he hlit)).1⟩
    have hfields : (m.map (printedField io)).map (·.name) = m.map (·.1) := by
      rw [List.map_map]
      rfl
    cases m with
    | nil => exact .emptyRecord (w := []) (by simp) htrim
    | cons e m =>
      have htext := htrim.trans (toCsv_record (e :: m))
      refine .record (by simp) htext ?_ (hfields ▸ hsorted.nodup) ?_ ?_ ?_
      · intro f hf
        obtain ⟨e', he', rfl⟩ := List.mem_map.mp hf
        exact ⟨(hfield e' he').1, (tight_of_isWord (hfield e' he').1).trimChars⟩
      · intro f hf
        obtain ⟨e', he', rfl⟩ := List.mem_map.mp hf
        exact hsorted.lookup he'
      · intro k hk
        obtain ⟨v, hv⟩ := Option.isSome_iff_exists.mp hk
        rw [hfields]
        exact List.mem_map_of_mem (mem_of_lookup hv)
      · intro f hf
        obtain ⟨e', he', rfl⟩ := List.mem_map.mp hf
        exact (hfield e' he').2
  | @aliasOf room name name' target v hname _ ih =>
    obtain ⟨hwritten, htrim⟩ := ih (identifiers_alias hname hident) hliteral
    exact ⟨hwritten.mono (Nat.le_succ room), htrim⟩

theorem mem_intercalate {sep : Char} {texts : List (List Char)} {c : Char}
    (h : c ∈ List.intercalate [sep] texts) : c = sep ∨ ∃ t ∈ texts, c ∈ t := by
  induction texts with
  | nil => simp at h
  | cons t texts ih =>
    cases texts with
    | nil => exact .inr ⟨t, List.mem_cons_self, by simpa using h⟩
    | cons u texts =>
      rw [List.intercalate_cons_cons, List.append_assoc] at h
      rcases List.mem_append.mp h with h | h
      · exact .inr ⟨t, List.mem_cons_self, h⟩
      rcases List.mem_cons.mp h with h | h
      · exact .inl h
      · rcases ih h with h | ⟨t', ht', hc⟩
        · exact .inl h
        · exact .inr ⟨t', List.mem_cons_of_mem _ ht', hc⟩

/-- A character that does not end a cell of a trace. -/
def InCell (c : Char) : Prop := c ≠ ',' ∧ c ≠ '\n'

theorem inCell_of_isWordChar {c : Char} (h : isWordChar c = true) : InCell c := by
  constructor <;> rintro rfl <;> exact absurd h (by decide)

theorem inCell_of_isNumeric {c : Char} (h : Json.isNumeric c = true) : InCell c := by
  constructor <;> rintro rfl <;> exact absurd h (by decide)

theorem toCsv_inCell (h : Conforms p room ty v) (hident : identifiers p room ty = true) :
    ∀ c ∈ v.toCsv io, InCell c := by
  have henclosed {o c : Char} (ho : InCell o) (hc : InCell c) {texts : List (List Char)}
      (h : ∀ t ∈ texts, ∀ d ∈ t, InCell d) :
      ∀ d ∈ o :: List.intercalate [';'] texts ++ [c], InCell d := by
    intro d hd
    rcases List.mem_append.mp hd with hd | hd
    · rcases List.mem_cons.mp hd with rfl | hd
      · exact ho
      · rcases mem_intercalate hd with rfl | ⟨t, ht, hdt⟩
        · exact ⟨by decide, by decide⟩
        · exact h t ht d hdt
    · rw [List.mem_singleton.mp hd]
      exact hc
  induction h with
  | @bool room b => cases b <;> simp [Value.toCsv, InCell]
  | int _ _ _ => exact fun c hc => inCell_of_isNumeric (Json.isNumeric_of_mem_decimal hc)
  | char _ _ => exact fun c hc => inCell_of_isNumeric (Json.isNumeric_of_mem_decimal hc)
  | @array room len elem xs hlen _ ih =>
    rw [toCsv_array]
    refine henclosed ⟨by decide, by decide⟩ ⟨by decide, by decide⟩ fun t ht => ?_
    obtain ⟨x, hx, rfl⟩ := List.mem_map.mp ht
    exact ih x hx hident
  | @enum room name variant e hname hmem =>
    have hword := isWord_of_isIdentifier (identifiers_enum hname hmem hident)
    simp only [isWord, Bool.and_eq_true, List.all_eq_true] at hword
    exact fun c hc => inCell_of_isWordChar (hword.2 c hc)
  | @record room name name' fields m hname hsorted hnames hall ih =>
    have hids := identifiers_record hname hident
    rw [toCsv_record]
    refine henclosed ⟨by decide, by decide⟩ ⟨by decide, by decide⟩ fun t ht => ?_
    rw [List.map_map] at ht
    obtain ⟨e, he, rfl⟩ := List.mem_map.mp ht
    have hlookup := hsorted.lookup he
    obtain ⟨f, hf, hfname⟩ := (hnames e.1).mp (by rw [hlookup]; rfl)
    rw [← hfname] at hlookup
    have hword := isWord_of_isIdentifier (hids f hf).1
    simp only [isWord, Bool.and_eq_true, List.all_eq_true] at hword
    intro c hc
    rcases List.mem_append.mp hc with hc | hc
    · exact inCell_of_isWordChar (hword.2 c (hfname ▸ hc))
    rcases List.mem_cons.mp hc with rfl | hc
    · exact ⟨by decide, by decide⟩
    · exact ih f hf e.2 hlookup (hids f hf).2 c hc
  | @aliasOf room name name' target v hname _ ih => exact ih (identifiers_alias hname hident)

/-! ## Arrays of a single JSON word -/

theorem parseJson_array {j : Json} {path : String} {xs : List Value}
    (h : parseJson p room j ty path = .ok (.array xs)) : ∃ js, j = .array js ∧
      List.Forall₂ (fun j x => ∃ room ty path, parseJson p room j ty path = .ok x) js xs := by
  induction room generalizing ty path with
  | zero => cases h
  | succ room ih =>
    cases ty with
    | bool =>
      obtain ⟨b, -, hb⟩ := elim_expected h
      cases hb
    | float32 =>
      obtain ⟨b, -, hb⟩ := elim_expected h
      cases hb
    | float64 =>
      obtain ⟨b, -, hb⟩ := elim_expected h
      cases hb
    | char =>
      obtain ⟨b, -, hb⟩ := elim_expected h
      cases hb
    | array elem len =>
      simp only [parseJson] at h
      split at h
      case h_1 => cases h
      case h_2 values hvalues =>
        unfold readElements at h
        split at h
        case isTrue => cases h
        case isFalse =>
          obtain ⟨xs', hxs, heq⟩ := Except.map_eq_ok.mp h
          cases heq
          refine ⟨values, ?_, (Except.mapM_zipIdx_eq_ok hxs).imp fun a b hab => ?_⟩
          · cases j <;> cases hvalues
            rfl
          · obtain ⟨i, hi⟩ := hab
            exact ⟨room, elem, _, hi⟩
    | named name =>
      simp only [parseJson] at h
      obtain ⟨body, -, h⟩ := Except.bind_eq_ok.mp h
      cases body with
      | aliasOf _ target => exact ih h
      | enum e =>
        simp only at h
        split at h
        · cases h
        split at h
        · cases h
        · cases h
      | record name' fields =>
        simp only at h
        split at h
        · cases h
        split at h
        · cases h
        · obtain ⟨m, -, heq⟩ := Except.map_eq_ok.mp h
          cases heq
    | _ =>
      simp only [parseJson, readInteger, checkedInt] at h
      split at h
      · cases h
      split at h
      · split at h
        · cases h
        · cases h
      · cases h

theorem parseJson_enum {j : Json} {path variant : String}
    (h : parseJson p room j ty path = .ok (.enum variant)) : ∃ s, j = .string s := by
  induction room generalizing ty path with
  | zero => cases h
  | succ room ih =>
    cases ty with
    | bool =>
      obtain ⟨b, -, hb⟩ := elim_expected h
      cases hb
    | float32 =>
      obtain ⟨b, -, hb⟩ := elim_expected h
      cases hb
    | float64 =>
      obtain ⟨b, -, hb⟩ := elim_expected h
      cases hb
    | char =>
      obtain ⟨b, -, hb⟩ := elim_expected h
      cases hb
    | array elem len =>
      simp only [parseJson] at h
      split at h
      · cases h
      unfold readElements at h
      split at h
      · cases h
      obtain ⟨xs, -, heq⟩ := Except.map_eq_ok.mp h
      cases heq
    | named name =>
      simp only [parseJson] at h
      obtain ⟨body, -, h⟩ := Except.bind_eq_ok.mp h
      cases body with
      | aliasOf _ target => exact ih h
      | enum e =>
        simp only at h
        split at h
        case h_1 => cases h
        case h_2 s hs => cases j <;> cases hs; exact ⟨s, rfl⟩
      | record name' fields =>
        simp only at h
        split at h
        · cases h
        split at h
        · cases h
        · obtain ⟨m, -, heq⟩ := Except.map_eq_ok.mp h
          cases heq
    | _ =>
      simp only [parseJson, readInteger, checkedInt] at h
      split at h
      · cases h
      split at h
      · split at h
        · cases h
        · cases h
      · cases h

theorem isIdentifier_of_literal {name : List Char} (h : name ∈ Json.literals) :
    isIdentifier name = true := by
  simp only [Json.literals, List.mem_cons, List.not_mem_nil, or_false] at h
  obtain rfl | rfl | rfl := h <;> decide

/-- An array with a JSON word alone in it is not read back from JSON. -/
theorem parseJson_literal (h : Conforms p room ty v) (hident : identifiers p room ty = true)
    (hliteral : HoldsLiteral v) {reals : Bool} {depth : Nat} {j : Json}
    (hj : Json.Denotes reals depth (v.toCsv io) j) (room' : Nat) (ty' : Ty) (path : String) :
    parseJson p room' j ty' path ≠ .ok v := by
  induction h generalizing j depth room' ty' path with
  | bool => cases hliteral
  | int _ _ _ => cases hliteral
  | char _ _ => cases hliteral
  | enum _ _ => cases hliteral
  | @array room len elem xs hlen hconf ih =>
    intro hparse
    obtain ⟨js, rfl, hall⟩ := parseJson_array hparse
    obtain ⟨x, xs, rfl⟩ : ∃ x rest, xs = x :: rest := by
      cases hliteral with
      | here _ => exact ⟨_, _, rfl⟩
      | element hmem _ => exact List.exists_cons_of_ne_nil (List.ne_nil_of_mem hmem)
    rw [List.forall_mem_cons] at hconf ih
    have hx : Written false room (x.toCsv io) x :=
      (toCsv_written io false hconf.1 hident (by simp)).1
    have hvalue := hj.value
    rw [toCsv_array, (Json.tight_enclosed rfl rfl _).trimChars] at hvalue
    cases xs with
    | nil =>
      rw [List.map_cons, List.map_nil, List.intercalate_singleton] at hvalue
      rcases value_single hx.clean hvalue with ⟨hblank, -⟩ | ⟨d, j', -, heq, hden⟩
      · refine absurd (trimChars_blank fun c hc => ?_) hx.trim_ne_nil
        exact Json.isSpace_isWhitespace (hblank c hc)
      · cases heq
        obtain ⟨⟨room'', ty'', path'', hread⟩, -⟩ := List.forall₂_cons.mp hall
        cases hliteral with
        | @here variant hmem =>
          obtain ⟨s, rfl⟩ := parseJson_enum hread
          have hword := isIdentifier_of_literal hmem
          have hvariant := hden.value
          rw [Value.toCsv, (tight_of_isWord (isWord_of_isIdentifier hword)).trimChars] at hvariant
          exact (identifier_value hword hvariant).2 s rfl
        | element hmem hlit =>
          cases List.mem_singleton.mp hmem
          exact ih.1 hident hlit hden room'' ty'' path'' hread
    | cons y xs =>
      rw [List.map_cons, List.map_cons, List.intercalate_cons_cons, List.append_assoc,
        List.singleton_append, List.cons_append, List.append_assoc, List.cons_append] at hvalue
      exact not_value_semicolon (.inl rfl) hx.clean _ hvalue
  | @record room name name' fields m hname hsorted hnames hconf ih =>
    have hvalue := hj.value
    rw [toCsv_record, (Json.tight_enclosed rfl rfl _).trimChars] at hvalue
    have hids := identifiers_record hname hident
    cases m with
    | nil =>
      cases hliteral with
      | field hmem _ => cases hmem
    | cons e m =>
      have hlookup := hsorted.lookup (v := e.2) List.mem_cons_self
      obtain ⟨f, hf, hfname⟩ := (hnames e.1).mp (by rw [hlookup]; rfl)
      have hword : isWord e.1.toList = true := hfname ▸ isWord_of_isIdentifier (hids f hf).1
      exact absurd hvalue (not_value_fields (f := printedField io e) hword
        (tight_of_isWord hword).trimChars _)
  | @aliasOf room name name' target v hname _ ih =>
    exact ih (identifiers_alias hname hident) hliteral hj room' ty' path

/-- An array with a JSON word alone in it is not read back. -/
theorem parseText_literal (hparses : Json.Parses 127 io.fromJson) (h : Conforms p room ty v)
    (hroom : room ≤ 127) (hident : identifiers p room ty = true) (hliteral : HoldsLiteral v)
    (path : String) : parseText io p room (v.toCsv io) ty path ≠ .ok v := by
  induction h generalizing path with
  | bool => cases hliteral
  | int _ _ _ => cases hliteral
  | char _ _ => cases hliteral
  | enum _ _ => cases hliteral
  | @array room len elem xs hlen hconf ih =>
    intro hparse
    obtain ⟨hwritten, htrim⟩ := toCsv_written io false (.array hlen hconf) hident (by simp)
    simp only [parseText, htrim] at hparse
    split at hparse
    case h_1 j hj =>
      obtain ⟨d, hden⟩ := hparses.denotes hj
      exact parseJson_literal (.array hlen hconf) hident hliteral hden _ _ _ hparse
    case h_2 e he =>
      rw [toCsv_array] at he
      rw [toCsv_array, stripEnds_enclosed] at hparse
      have hparts : ∀ x ∈ xs, Clean separator (x.toCsv io) ∧ Text.trimChars (x.toCsv io) ≠ [] ∧
          Text.trimChars (x.toCsv io) = x.toCsv io := by
        intro x hx
        obtain ⟨hx, hxtrim⟩ := toCsv_written io false (hconf x hx) hident (by simp)
        exact ⟨hx.clean, hx.trim_ne_nil, hxtrim⟩
      have hne : xs.map (·.toCsv io) ≠ [] := by
        cases hliteral with
        | here _ => simp
        | element hmem _ => simpa using List.ne_nil_of_mem hmem
      have hsplit := splitItems_intercalate path hne fun t ht => by
        obtain ⟨x, hx, rfl⟩ := List.mem_map.mp ht
        exact ⟨(hparts x hx).1, (hparts x hx).2.1⟩
      have htexts : (xs.map (·.toCsv io)).map Text.trimChars = xs.map (·.toCsv io) := by
        rw [List.map_map]
        exact List.map_congr_left fun x hx => (hparts x hx).2.2
      rw [htexts] at hsplit
      simp only [hsplit, Except.ok_bind, readElements] at hparse
      split at hparse
      case isTrue => cases hparse
      case isFalse =>
        obtain ⟨xs', hxs, heq⟩ := Except.map_eq_ok.mp hparse
        cases heq
        have hall := Except.mapM_zipIdx_eq_ok hxs
        rw [List.forall₂_map_left_iff, List.forall₂_same] at hall
        cases hliteral with
        | @here variant hmem =>
          have hword := isIdentifier_of_literal hmem
          have hliteral : ∃ j, Json.Value false 126 variant.toList j := by
            simp only [Json.literals, List.mem_cons, List.not_mem_nil, or_false] at hmem
            obtain h | h | h := hmem <;> rw [h]
            · exact ⟨_, .null⟩
            · exact ⟨_, .true⟩
            · exact ⟨_, .false⟩
          obtain ⟨j, hj⟩ := hliteral
          have hjson : Json.Value false 127 ('[' :: variant.toList ++ [']']) (.array [j]) :=
            .singleton hj.denotes
          rw [List.map_cons, List.map_nil, List.intercalate_singleton, Value.toCsv,
            hparses.accepts hjson.denotes] at he
          cases he
        | @element x _ hmem hlit =>
          obtain ⟨i, hi⟩ := hall x hmem
          exact ih x hmem (Nat.le_of_succ_le hroom) hident hlit _ hi
  | @record room name name' fields m hname hsorted hnames hconf ih =>
    intro hparse
    have hids := identifiers_record hname hident
    obtain ⟨hwritten, htrim⟩ := toCsv_written io false (.record hname hsorted hnames hconf)
      hident (by simp)
    simp only [parseText, findNamed_ok hname, Except.ok_bind, htrim] at hparse
    split at hparse
    case h_1 j hj =>
      obtain ⟨d, hden⟩ := hparses.denotes hj
      exact parseJson_literal (.record hname hsorted hnames hconf) hident hliteral hden _ _ _ hparse
    case h_2 e he =>
      have hfield : ∀ e ∈ m, ∃ f ∈ fields, f.name = e.1 ∧ Conforms p room f.ty e.2 := by
        intro e he
        have hlookup := hsorted.lookup he
        obtain ⟨f, hf, hfname⟩ := (hnames e.1).mp (by rw [hlookup]; rfl)
        exact ⟨f, hf, hfname, hconf f hf e.2 (hfname ▸ hlookup)⟩
      have hprinted : ∀ e ∈ m, Clean separator (e.2.toCsv io) ∧
          Text.trimChars (e.2.toCsv io) ≠ [] ∧ Text.trimChars (e.2.toCsv io) = e.2.toCsv io := by
        intro e he
        obtain ⟨f, hf, -, he⟩ := hfield e he
        obtain ⟨he, hetrim⟩ := toCsv_written io false he (hids f hf).2 (by simp)
        exact ⟨he.clean, he.trim_ne_nil, hetrim⟩
      have hword : ∀ e ∈ m, isWord e.1.toList = true := by
        intro e he
        obtain ⟨f, hf, hfname, -⟩ := hfield e he
        exact hfname ▸ isWord_of_isIdentifier (hids f hf).1
      cases hliteral with
      | @field k x _ hmem hlit =>
        have hne : m.map (printedField io) ≠ [] := by simpa using List.ne_nil_of_mem hmem
        obtain ⟨hquote, hsplit, hentries⟩ := read_struct fields path name (.named name)
          hne
          (fun f hf => by
            obtain ⟨e, he, rfl⟩ := List.mem_map.mp hf
            exact ⟨hword e he, (tight_of_isWord (hword e he)).trimChars⟩)
          (fun f hf => by
            obtain ⟨e, he, rfl⟩ := List.mem_map.mp hf
            exact ⟨(hprinted e he).1, (hprinted e he).2.1⟩)
          (fun f hf => by
            obtain ⟨e, he, rfl⟩ := List.mem_map.mp hf
            obtain ⟨f, hf, hfname, -⟩ := hfield e he
            exact ⟨f, hf, hfname⟩)
          (by rw [List.map_map]; exact hsorted.nodup)
        rw [toCsv_record, stripEnds_enclosed] at hparse
        simp only [if_neg hquote, hsplit, Except.ok_bind, hentries] at hparse
        obtain ⟨m', hm', heq⟩ := Except.map_eq_ok.mp hparse
        cases heq
        have hlookup := hsorted.lookup hmem
        obtain ⟨f, hf, hfname, hread⟩ := (collectFields_spec hm').2.2.1 k x hlookup
        unfold readField at hread
        split at hread
        case h_1 => cases hread
        case h_2 a ha =>
          have hentry := mem_of_lookup ha
          rw [List.map_map] at hentry
          obtain ⟨e, he, heq⟩ := List.mem_map.mp hentry
          obtain ⟨hname', rfl⟩ := Prod.mk.inj heq
          have hsame : e.2 = x := by
            have he' := hsorted.lookup he
            change e.1 = f.name at hname'
            rw [hname', hfname, hlookup] at he'
            exact (Option.some.inj he').symm
          change parseText io p room (Text.trimChars (e.2.toCsv io)) f.ty _ = .ok x at hread
          rw [(hprinted e he).2.2, hsame] at hread
          exact ih f hf x (hfname ▸ hlookup) (Nat.le_of_succ_le hroom) (hids f hf).2 hlit _ hread
  | @aliasOf room name name' target v hname hconf ih =>
    intro hparse
    simp only [parseText, findNamed_ok hname, Except.ok_bind] at hparse
    have hident' := identifiers_alias hname hident
    rw [(toCsv_written io false hconf hident' (by simp)).2] at hparse
    exact ih (Nat.le_of_succ_le hroom) hident' hliteral path hparse

end Print

/-! ## Rows of a trace, and the gate of typed inputs -/

/-- A row of printed values. -/
def printRow (io : InputIo) (row : List (Ty × Value)) : List Char :=
  List.intercalate [','] (row.map fun c => c.2.toCsv io)

/-- The values of a row, split at its commas. -/
def readRow (io : InputIo) (p : Project) (tys : List Ty) (path : String) (line : List Char) :
    List (Except String Value) :=
  List.zipWith (fun ty cell => parse io p cell ty path) tys (line.splitOn ',')

/-- The cells of a row have no comma and no end of line, each is read back, and so is the
row. -/
structure RoundTrips (io : InputIo) (p : Project) (path : String) (row : List (Ty × Value)) :
    Prop where
  inCell : ∀ c ∈ row, ∀ d ∈ c.2.toCsv io, InCell d
  cell : ∀ c ∈ row, parse io p (c.2.toCsv io) c.1 path = .ok c.2
  row : readRow io p (row.map (·.1)) path (printRow io row) = row.map fun c => .ok c.2

/-- A row of values is read back exactly if no array holds just a JSON word. -/
theorem roundTrips_iff {io : InputIo} (hparses : Json.Parses 127 io.fromJson) (p : Project)
    (path : String) {row : List (Ty × Value)} (hne : row ≠ [])
    (hrow : ∀ c ∈ row, Conforms p maxRoom c.1 c.2 ∧ identifiers p maxRoom c.1 = true) :
    RoundTrips io p path row ↔ ∀ c ∈ row, ¬HoldsLiteral c.2 := by
  constructor
  · intro h c hc hliteral
    exact parseText_literal hparses (hrow c hc).1 (by decide) (hrow c hc).2 hliteral path
      (h.cell c hc)
  · intro h
    have hcell : ∀ c ∈ row, parse io p (c.2.toCsv io) c.1 path = .ok c.2 := by
      intro c hc
      have hwritten := (toCsv_written io true (hrow c hc).1 (hrow c hc).2
        fun _ => h c hc).1
      exact parseText_written hparses (hrow c hc).1 (by decide) hwritten path
    have hin : ∀ c ∈ row, ∀ d ∈ c.2.toCsv io, InCell d :=
      fun c hc => toCsv_inCell (hrow c hc).1 (hrow c hc).2
    refine ⟨hin, hcell, ?_⟩
    have hsplit : (printRow io row).splitOn ',' = row.map fun c => c.2.toCsv io := by
      refine List.splitOn_intercalate ',' (fun t ht hcomma => ?_) (by simpa using hne)
      obtain ⟨c, hc, rfl⟩ := List.mem_map.mp ht
      exact (hin c hc ',' hcomma).1 rfl
    rw [readRow, hsplit, List.zipWith_map, List.zipWith_self]
    exact List.map_congr_left hcell

/-- A reader without reals. -/
def integerIo : InputIo where
  fromJson := Json.read
  parseF32 _ := none
  parseF64 _ := none
  fmtReal _ _ := []

/-- An enum with a variant named like a JSON word, and a struct that declares a field twice. -/
def modeProject : Project where
  packages := [{
    name := "main"
    types := [⟨.enum ⟨"Mode", ["null", "on"]⟩⟩,
      ⟨.record "Twice" [⟨"x", .int8⟩, ⟨"x", .bool⟩]⟩] }]

theorem conforms_mode {variant : String} (h : variant ∈ ["null", "on"]) (room : Nat) :
    Conforms modeProject (room + 1) (.named "Mode") (.enum variant) :=
  .enum (e := ⟨"Mode", ["null", "on"]⟩) (by decide) h

theorem roundTrips_modes : RoundTrips integerIo modeProject "m"
    [(.array (.named "Mode") 2, .array [.enum "null", .enum "on"]), (.int8, .int (-128))] := by
  refine (roundTrips_iff Json.read_parses modeProject "m" (by simp) ?_).mpr ?_
  · rw [List.forall_mem_cons, List.forall_mem_singleton]
    refine ⟨⟨.array rfl ?_, by decide⟩, ⟨.int rfl (by decide) (by decide), by decide⟩⟩
    rw [List.forall_mem_cons, List.forall_mem_singleton]
    exact ⟨conforms_mode (by decide) 63, conforms_mode (by decide) 63⟩
  · rw [List.forall_mem_cons, List.forall_mem_singleton]
    constructor
    · rintro h
      cases h with
      | element hmem h =>
        simp only [List.mem_cons, List.not_mem_nil, or_false] at hmem
        rcases hmem with rfl | rfl <;> cases h
    · nofun

/-- The one-element array of the variant `null` is not read back: it is taken for JSON. -/
theorem null_variant_lost : Conforms modeProject maxRoom (.array (.named "Mode") 1)
      (.array [.enum "null"]) ∧
    identifiers modeProject maxRoom (.array (.named "Mode") 1) = true ∧
    ¬RoundTrips integerIo modeProject "m" [(.array (.named "Mode") 1, .array [.enum "null"])] := by
  refine ⟨.array rfl ?_, by decide, fun h => ?_⟩
  · rw [List.forall_mem_singleton]
    exact conforms_mode (by decide) 63
  · have hread : (parse integerIo modeProject ((Value.array [.enum "null"]).toCsv integerIo)
        (.array (.named "Mode") 1) "m").isOk = false := by decide +kernel
    rw [h.cell _ List.mem_cons_self] at hread
    cases hread

end OpenLustre.Simulator
