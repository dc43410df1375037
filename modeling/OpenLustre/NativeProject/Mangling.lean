import OpenLustre.Lib.PrefixFree
import OpenLustre.NativeProject.Symbols

/-! Generated names are read back: their fields are hexadecimal, and an underscore is none of the
digits. -/

namespace OpenLustre.NativeProject

open OpenLustre.Ir Delimited

section Hex

def unhexChar (c : Char) : UInt8 := unhexDigit (UInt8.ofNat c.toNat)

theorem unhexChar_hexDigit : ∀ n < 16,
    unhexChar (Char.ofNat (hexDigit (UInt8.ofNat n)).toNat) = UInt8.ofNat n := by
  decide

theorem unhexChar_of_lt {b : UInt8} (h : b < 16) :
    unhexChar (Char.ofNat (hexDigit b).toNat) = b := by
  have hb := unhexChar_hexDigit b.toNat (by simpa [UInt8.lt_iff_toNat_lt] using h)
  rwa [UInt8.ofNat_toNat] at hb

theorem high_lt (b : UInt8) : b / 16 < 16 := by
  rw [UInt8.lt_iff_toNat_lt, UInt8.toNat_div]
  exact Nat.div_lt_of_lt_mul b.toNat_lt

theorem low_lt (b : UInt8) : b % 16 < 16 := by
  rw [UInt8.lt_iff_toNat_lt, UInt8.toNat_mod]
  exact Nat.mod_lt _ (by decide)

theorem prefixFree_hexByte : PrefixFree Set.univ hexByte := by
  refine .of_length (fun a _ b _ heq => ?_) fun _ _ => rfl
  obtain ⟨hhigh, hrest⟩ := List.cons.inj heq
  obtain ⟨hlow, -⟩ := List.cons.inj hrest
  have hdiv : a / 16 = b / 16 := by
    rw [← unhexChar_of_lt (high_lt a), hhigh, unhexChar_of_lt (high_lt b)]
  have hmod : a % 16 = b % 16 := by
    rw [← unhexChar_of_lt (low_lt a), hlow, unhexChar_of_lt (low_lt b)]
  have hdivNat := congrArg UInt8.toNat hdiv
  have hmodNat := congrArg UInt8.toNat hmod
  rw [UInt8.toNat_div, UInt8.toNat_div] at hdivNat
  rw [UInt8.toNat_mod, UInt8.toNat_mod] at hmodNat
  apply UInt8.toNat_inj.mp
  rw [← Nat.div_add_mod a.toNat 16, ← Nat.div_add_mod b.toNat 16]
  exact congrArg₂ (16 * · + ·) hdivNat hmodNat

theorem hex_injective {s t : String} (h : hex s = hex t) : s = t := by
  have hbytes := String.ofList_injective h
  refine utf8_injective (prefixFree_hexByte.flatMap_injOn (fun _ => List.cons_ne_nil _ _) ?_ ?_ hbytes)
  · exact fun _ _ => trivial
  · exact fun _ _ => trivial

theorem hexDigit_alphanum : ∀ n < 16,
    (Char.ofNat (hexDigit (UInt8.ofNat n)).toNat).isAlphanum = true := by
  decide

theorem alphanum_of_mem_hex {s : String} {c : Char} (h : c ∈ (hex s).toList) :
    c.isAlphanum = true := by
  have hdigit {b : UInt8} (hb : b < 16) : (Char.ofNat (hexDigit b).toNat).isAlphanum = true := by
    have hall := hexDigit_alphanum b.toNat (by simpa [UInt8.lt_iff_toNat_lt] using hb)
    rwa [UInt8.ofNat_toNat] at hall
  rw [hex, String.toList_ofList, List.mem_flatMap] at h
  obtain ⟨b, -, hc⟩ := h
  rw [hexByte, List.mem_pair] at hc
  rcases hc with rfl | rfl
  · exact hdigit (high_lt b)
  · exact hdigit (low_lt b)

end Hex

section Fields

/-- A name of delimited fields. -/
def delimited (fields : List (List Char)) : String := String.ofList (join '_' fields)

def backendFields (owner : String) (kind : Kind) (localName : String) : List (List Char) :=
  [['o', 'l', 'p'], (hex owner).toList, kind.tag.toList, (hex localName).toList]

def variantFields (owner enumName variant : String) : List (List Char) :=
  [['o', 'l', 'p'], (hex owner).toList, ['v'], (hex enumName).toList, (hex variant).toList]

/-- A field of letters and digits. -/
def Plain (field : List Char) : Prop := ∀ c ∈ field, c.isAlphanum = true

theorem free_of_plain {fields : List (List Char)} (h : ∀ field ∈ fields, Plain field) :
    Free '_' fields :=
  fun field hmem hc => absurd (h field hmem '_' hc) (by decide)

theorem plain_hex (s : String) : Plain (hex s).toList := fun _ => alphanum_of_mem_hex

theorem plain_tag (kind : Kind) : Plain kind.tag.toList := by
  cases kind <;> simp [Plain, Kind.tag]

theorem plain_backendFields (owner : String) (kind : Kind) (localName : String) :
    ∀ field ∈ backendFields owner kind localName, Plain field := by
  simp only [backendFields, List.forall_mem_cons]
  exact ⟨by simp [Plain], plain_hex _, plain_tag _, plain_hex _, by simp⟩

theorem plain_variantFields (owner enumName variant : String) :
    ∀ field ∈ variantFields owner enumName variant, Plain field := by
  simp only [variantFields, List.forall_mem_cons]
  exact ⟨by simp [Plain], plain_hex _, by simp [Plain], plain_hex _, plain_hex _, by simp⟩

theorem backendName_eq (owner : String) (kind : Kind) (localName : String) :
    backendName owner kind localName = delimited (backendFields owner kind localName) := by
  apply String.toList_injective
  simp [backendName, delimited, backendFields, join_cons]

theorem variantName_eq (owner enumName variant : String) :
    variantName owner enumName variant = delimited (variantFields owner enumName variant) := by
  apply String.toList_injective
  simp [variantName, delimited, variantFields, join_cons]

/-- Names of plain fields are told apart by them. -/
theorem delimited_injective {fields fields' : List (List Char)} (h : ∀ field ∈ fields, Plain field)
    (h' : ∀ field ∈ fields', Plain field) (hne : fields ≠ []) (hne' : fields' ≠ [])
    (heq : delimited fields = delimited fields') : fields = fields' :=
  join_injective (free_of_plain h) (free_of_plain h') hne hne' (String.ofList_injective heq)

theorem tag_injective {kind kind' : Kind} (h : kind.tag.toList = kind'.tag.toList) : kind = kind' := by
  revert h
  cases kind <;> cases kind' <;> simp [Kind.tag]

theorem backendName_injective {owner owner' localName localName' : String} {kind kind' : Kind}
    (h : backendName owner kind localName = backendName owner' kind' localName') :
    owner = owner' ∧ kind = kind' ∧ localName = localName' := by
  rw [backendName_eq, backendName_eq] at h
  have hfields := delimited_injective (plain_backendFields _ _ _) (plain_backendFields _ _ _)
    (List.cons_ne_nil _ _) (List.cons_ne_nil _ _) h
  simp only [backendFields, List.cons.injEq, true_and, and_true] at hfields
  obtain ⟨howner, hkind, hlocal⟩ := hfields
  exact ⟨hex_injective (String.toList_injective howner), tag_injective hkind,
    hex_injective (String.toList_injective hlocal)⟩

theorem variantName_injective {owner owner' enumName enumName' variant variant' : String}
    (h : variantName owner enumName variant = variantName owner' enumName' variant') :
    owner = owner' ∧ enumName = enumName' ∧ variant = variant' := by
  rw [variantName_eq, variantName_eq] at h
  have hfields := delimited_injective (plain_variantFields _ _ _) (plain_variantFields _ _ _)
    (List.cons_ne_nil _ _) (List.cons_ne_nil _ _) h
  simp only [variantFields, List.cons.injEq, true_and, and_true] at hfields
  obtain ⟨howner, henum, hvariant⟩ := hfields
  exact ⟨hex_injective (String.toList_injective howner),
    hex_injective (String.toList_injective henum), hex_injective (String.toList_injective hvariant)⟩

end Fields

section Artifacts

variable {owner localName : String} {kind : Kind}

/-- A name with more words behind it, as something generated for a declaration has. -/
def Extends (name : String) (fields : List (List Char)) : Prop :=
  ∃ words, words ≠ [] ∧ (∀ word ∈ words, Plain word) ∧ name = delimited (fields ++ words)

theorem delimited_append {fields words : List (List Char)} (hne : fields ≠ []) (hwords : words ≠ []) :
    delimited (fields ++ words) = delimited fields ++ "_" ++ delimited words := by
  apply String.toList_injective
  simp [delimited, join_append hne hwords]

theorem extends_suffix {name suffix : String} {fields : List (List Char)} (hne : fields ≠ [])
    (hname : name = delimited fields) (words : List (List Char)) (hwords : words ≠ [])
    (hplain : ∀ word ∈ words, Plain word) (hsuffix : suffix = "_" ++ delimited words) :
    Extends (name ++ suffix) fields :=
  ⟨words, hwords, hplain, by rw [delimited_append hne hwords, hname, hsuffix, String.append_assoc]⟩

theorem nodeArtifacts_cases {name artifact : String} {fields : List (List Char)} (hne : fields ≠ [])
    (hname : name = delimited fields) (h : artifact ∈ Resolver.nodeArtifacts name) :
    artifact = name ∨ Extends artifact fields := by
  refine (List.mem_cons.mp h).imp_right fun hmem => ?_
  obtain ⟨suffix, hsuffix, rfl⟩ := List.mem_map.mp hmem
  simp only [List.mem_cons, List.not_mem_nil, or_false] at hsuffix
  rcases hsuffix with rfl | rfl | rfl | rfl | rfl
  · exact extends_suffix hne hname ["step".toList] (by simp) (by simp [Plain]) rfl
  · exact extends_suffix hne hname ["init".toList] (by simp) (by simp [Plain]) rfl
  · exact extends_suffix hne hname ["Input".toList] (by simp) (by simp [Plain]) rfl
  · exact extends_suffix hne hname ["Output".toList] (by simp) (by simp [Plain]) rfl
  · exact extends_suffix hne hname ["State".toList] (by simp) (by simp [Plain]) rfl

theorem Extends.more {name : String} {fields : List (List Char)} {word : List Char}
    (h : Extends name (fields ++ [word])) (hplain : Plain word) : Extends name fields := by
  obtain ⟨words, -, hwords, rfl⟩ := h
  exact ⟨word :: words, List.cons_ne_nil _ _, List.forall_mem_cons.mpr ⟨hplain, hwords⟩, by simp⟩

theorem monitorArtifacts_extends {name artifact : String} {fields : List (List Char)}
    (hne : fields ≠ []) (hname : name = delimited fields)
    (h : artifact ∈ Resolver.monitorArtifacts name) : Extends artifact fields := by
  obtain ⟨suffix, hsuffix, rfl⟩ := List.mem_map.mp h
  simp only [List.mem_cons, List.not_mem_nil, or_false] at hsuffix
  rcases hsuffix with rfl | rfl | rfl | rfl
  · exact extends_suffix hne hname ["monitor".toList] (by simp) (by simp [Plain]) rfl
  · exact extends_suffix hne hname ["monitor".toList, "State".toList] (by simp) (by simp [Plain]) rfl
  · exact extends_suffix hne hname ["monitor".toList, "reset".toList] (by simp) (by simp [Plain]) rfl
  · exact extends_suffix hne hname ["monitor".toList, "check".toList] (by simp) (by simp [Plain]) rfl

/-- What a declaration is generated as has its name, or more fields than it. -/
theorem artifacts_cases {artifact : String}
    (h : artifact ∈ Resolver.artifacts ((kind, localName), backendName owner kind localName)) :
    artifact = backendName owner kind localName ∨
      Extends artifact (backendFields owner kind localName) := by
  have hname := backendName_eq owner kind localName
  have hne : backendFields owner kind localName ≠ [] := List.cons_ne_nil _ _
  cases kind with
  | node => exact nodeArtifacts_cases hne hname h
  | type | constant => cases h
  | contract =>
    have hplain : Plain "observer".toList := by simp [Plain]
    have hobserver : backendName owner .contract localName ++ "_observer" =
        delimited (backendFields owner .contract localName ++
          ["observer".toList]) := by
      rw [delimited_append hne (List.cons_ne_nil _ _), ← hname, String.append_assoc]
      rfl
    right
    rcases List.mem_append.mp h with h | h
    · rcases nodeArtifacts_cases (by simp) hobserver h with rfl | hmore
      · exact ⟨[_], List.cons_ne_nil _ _, by simpa using hplain, hobserver⟩
      · exact hmore.more hplain
    · exact monitorArtifacts_extends hne hname h

theorem not_extends_backendName {owner' localName' : String} {kind' : Kind} :
    ¬ Extends (backendName owner kind localName) (backendFields owner' kind' localName') := by
  rintro ⟨words, hwords, hplain, heq⟩
  rw [backendName_eq] at heq
  have hfields := delimited_injective (plain_backendFields _ _ _)
    (List.forall_mem_append.mpr ⟨plain_backendFields _ _ _, hplain⟩) (List.cons_ne_nil _ _)
    (List.cons_ne_nil _ _) heq
  have hlength := congrArg List.length hfields
  rw [List.length_append] at hlength
  exact hwords (List.length_eq_zero_iff.mp (Nat.left_eq_add.mp hlength))

/-- The third field of a variant's name is the tag of no declaration. -/
theorem variantFields_ne {enumName variant owner' localName' : String} {kind' : Kind}
    {words : List (List Char)} :
    variantFields owner enumName variant ≠ backendFields owner' kind' localName' ++ words := by
  intro h
  have htag : ['v'] = kind'.tag.toList := (List.cons.inj (List.cons.inj (List.cons.inj h).2).2).1
  revert htag
  cases kind' <;> simp [Kind.tag]

theorem not_extends_variantName {enumName variant owner' localName' : String} {kind' : Kind} :
    ¬ Extends (variantName owner enumName variant) (backendFields owner' kind' localName') := by
  rintro ⟨words, -, hplain, heq⟩
  rw [variantName_eq] at heq
  exact variantFields_ne (delimited_injective (plain_variantFields _ _ _)
    (List.forall_mem_append.mpr ⟨plain_backendFields _ _ _, hplain⟩) (List.cons_ne_nil _ _)
    (List.cons_ne_nil _ _) heq)

theorem backendName_ne_variantName {owner' enumName variant : String} :
    backendName owner kind localName ≠ variantName owner' enumName variant := by
  rw [backendName_eq, variantName_eq]
  intro heq
  have hfields := delimited_injective (plain_backendFields _ _ _) (plain_variantFields _ _ _)
    (List.cons_ne_nil _ _) (List.cons_ne_nil _ _) heq
  exact variantFields_ne (hfields.symm.trans (List.append_nil _).symm)

end Artifacts

section Reserved

variable (r : Resolver)

/-- Some project of the graph has the declaration. -/
def Resolver.Declares (owner : String) (kind : Kind) (localName : String) : Prop :=
  ∃ inv, ⟨owner, inv⟩ ∈ r.inventories ∧ (kind, localName) ∈ inv.declarations.map (·.1)

def Resolver.DeclaresVariant (owner enumName variant : String) : Prop :=
  ∃ inv, ⟨owner, inv⟩ ∈ r.inventories ∧ (enumName, variant) ∈ inv.enumVariants.map (·.1)

variable {r}

/-- A reserved name is that of a declaration or a variant of the graph, or has more fields than
that of a declaration. -/
theorem mem_generatedIdentifiers {name : String} : name ∈ r.generatedIdentifiers →
    (∃ owner kind localName, r.Declares owner kind localName ∧
      (name = backendName owner kind localName ∨ Extends name (backendFields owner kind localName))) ∨
    ∃ owner enumName variant, r.DeclaresVariant owner enumName variant ∧
      name = variantName owner enumName variant := by
  intro h
  obtain ⟨⟨owner, inv⟩, hinv, hname⟩ := List.mem_flatMap.mp h
  rw [List.mem_append, List.mem_append] at hname
  obtain (hname | hname) | hname := hname
  · obtain ⟨⟨⟨kind, localName⟩, resolved⟩, hd, hname⟩ := List.mem_flatMap.mp hname
    have hresolved : resolved = backendName owner kind localName := inv.named _ hd
    rw [hresolved] at hname
    exact .inl ⟨owner, kind, localName, ⟨inv, hinv, List.mem_map_of_mem hd⟩, artifacts_cases hname⟩
  · obtain ⟨⟨⟨kind, localName⟩, resolved⟩, hd, rfl⟩ := List.mem_map.mp hname
    exact .inl ⟨owner, kind, localName, ⟨inv, hinv, List.mem_map_of_mem hd⟩, .inl (inv.named _ hd)⟩
  · obtain ⟨⟨⟨enumName, variant⟩, resolved⟩, hv, rfl⟩ := List.mem_map.mp hname
    exact .inr ⟨owner, enumName, variant, ⟨inv, hinv, List.mem_map_of_mem hv⟩,
      inv.namedVariants _ hv⟩

theorem backendName_reserved_iff {owner localName : String} {kind : Kind} :
    backendName owner kind localName ∈ r.generatedIdentifiers ↔ r.Declares owner kind localName := by
  constructor
  · intro h
    obtain ⟨owner', kind', localName', hdeclares, heq | hmore⟩ | ⟨_, _, _, -, heq⟩ :=
      mem_generatedIdentifiers h
    · obtain ⟨rfl, rfl, rfl⟩ := backendName_injective heq
      exact hdeclares
    · exact absurd hmore not_extends_backendName
    · exact absurd heq backendName_ne_variantName
  · rintro ⟨inv, hinv, hmem⟩
    obtain ⟨⟨key, resolved⟩, hd, rfl⟩ := List.mem_map.mp hmem
    refine List.mem_flatMap.mpr ⟨_, hinv, List.mem_append_left _ (List.mem_append_right _ ?_)⟩
    exact List.mem_map.mpr ⟨_, hd, inv.named _ hd⟩

theorem variantName_reserved_iff {owner enumName variant : String} :
    variantName owner enumName variant ∈ r.generatedIdentifiers ↔
      r.DeclaresVariant owner enumName variant := by
  constructor
  · intro h
    obtain ⟨_, _, _, -, heq | hmore⟩ | ⟨_, _, _, hdeclares, heq⟩ := mem_generatedIdentifiers h
    · exact absurd heq.symm backendName_ne_variantName
    · exact absurd hmore not_extends_variantName
    · obtain ⟨rfl, rfl, rfl⟩ := variantName_injective heq
      exact hdeclares
  · rintro ⟨inv, hinv, hmem⟩
    obtain ⟨⟨key, resolved⟩, hv, rfl⟩ := List.mem_map.mp hmem
    refine List.mem_flatMap.mpr ⟨_, hinv, List.mem_append_right _ ?_⟩
    exact List.mem_map.mpr ⟨_, hv, inv.namedVariants _ hv⟩

theorem validateLocals_iff {locals : List String} :
    r.validateLocals locals = .ok () ↔ ∀ name ∈ locals, name ∉ r.generatedIdentifiers := by
  unfold Resolver.validateLocals
  split
  case h_1 name hfind =>
    refine iff_of_false nofun fun h => h name (List.mem_of_find?_eq_some hfind) ?_
    simpa using List.find?_some hfind
  case h_2 hfind => simpa using hfind

end Reserved

section Identifiers

def cKeywords : List String :=
  ["auto", "break", "case", "char", "const", "continue", "default", "do", "double", "else", "enum",
    "extern", "float", "for", "goto", "if", "inline", "int", "long", "register", "restrict",
    "return", "short", "signed", "sizeof", "static", "struct", "switch", "typedef", "union",
    "unsigned", "void", "volatile", "while", "_Alignas", "_Alignof", "_Atomic", "_Bool", "_Complex",
    "_Generic", "_Imaginary", "_Noreturn", "_Static_assert", "_Thread_local"]

def lustreKeywords : List String :=
  ["and", "assert", "assume", "bool", "check", "condact", "const", "contract", "current", "div",
    "else", "end", "ensure", "enum", "extern", "false", "fby", "fold", "function", "guarantee", "if",
    "import", "imported", "in", "int", "let", "map", "merge", "mod", "mode", "node", "nor", "not",
    "of", "operator", "or", "package", "pre", "real", "require", "returns", "step", "struct",
    "subrange", "tel", "then", "true", "type", "unsafe", "var", "weakly", "when", "with", "xor"]

/-- A word of both languages that is no keyword of either. -/
structure IsIdentifier (name : String) : Prop where
  first : ∃ c ∈ name.toList.head?, c.isAlpha ∨ c = '_'
  rest : ∀ c ∈ name.toList, c.isAlphanum ∨ c = '_'
  keyword : name ∉ cKeywords ++ lustreKeywords

theorem no_keyword : ((cKeywords ++ lustreKeywords).all fun word =>
    !(['o', 'l', 'p', '_'].isPrefixOf word.toList)) = true := by
  decide

theorem mem_join {fields : List (List Char)} {c : Char} (h : c ∈ join '_' fields) :
    c = '_' ∨ ∃ field ∈ fields, c ∈ field := by
  induction fields with
  | nil => cases h
  | cons field fields ih =>
    by_cases hrest : fields = []
    · rw [hrest, join_single] at h
      exact .inr ⟨field, List.mem_cons_self, h⟩
    · rw [join_cons field hrest, List.mem_append, List.mem_cons] at h
      obtain h | rfl | h := h
      · exact .inr ⟨field, List.mem_cons_self, h⟩
      · exact .inl rfl
      · exact (ih h).imp_right fun ⟨other, hmem, hc⟩ => ⟨other, List.mem_cons_of_mem _ hmem, hc⟩

theorem isIdentifier_delimited {fields : List (List Char)} (hne : fields ≠ [])
    (h : ∀ field ∈ fields, Plain field) : IsIdentifier (delimited (['o', 'l', 'p'] :: fields)) := by
  have htext : (delimited (['o', 'l', 'p'] :: fields)).toList =
      ['o', 'l', 'p', '_'] ++ join '_' fields := by
    rw [delimited, String.toList_ofList, join_cons _ hne]
    rfl
  constructor
  case first => exact ⟨'o', by rw [htext]; rfl, .inl (by decide)⟩
  case rest =>
    intro c hc
    rw [delimited, String.toList_ofList] at hc
    refine (mem_join hc).symm.imp_left fun ⟨field, hmem, hc⟩ => ?_
    rcases List.mem_cons.mp hmem with rfl | hmem
    · simp only [List.mem_cons, List.not_mem_nil, or_false] at hc
      rcases hc with rfl | rfl | rfl <;> rfl
    · exact h field hmem c hc
  case keyword =>
    intro hmem
    have hword := List.all_eq_true.mp no_keyword _ hmem
    rw [htext] at hword
    simp at hword

end Identifiers

/-- Generated names tell what they are generated for: declarations and variants of different
projects, kinds or names have different ones, and none of them has that of something generated for
another.  In a graph of projects those of its own declarations and variants are reserved, so no
local that is accepted has one, and no others are. -/
theorem names_collision_free :
    (∀ owner kind localName owner' kind' localName',
      backendName owner kind localName = backendName owner' kind' localName' ↔
        owner = owner' ∧ kind = kind' ∧ localName = localName') ∧
    (∀ owner enumName variant owner' enumName' variant',
      variantName owner enumName variant = variantName owner' enumName' variant' ↔
        owner = owner' ∧ enumName = enumName' ∧ variant = variant') ∧
    (∀ owner kind localName owner' enumName variant,
      backendName owner kind localName ≠ variantName owner' enumName variant) ∧
    (∀ owner kind localName, ∀ artifact ∈ Resolver.artifacts
        ((kind, localName), backendName owner kind localName),
      artifact = backendName owner kind localName ∨
        (∀ owner' kind' localName', artifact ≠ backendName owner' kind' localName') ∧
          ∀ owner' enumName variant, artifact ≠ variantName owner' enumName variant) ∧
    (∀ (r : Resolver) owner kind localName,
      backendName owner kind localName ∈ r.generatedIdentifiers ↔ r.Declares owner kind localName) ∧
    (∀ (r : Resolver) owner enumName variant,
      variantName owner enumName variant ∈ r.generatedIdentifiers ↔
        r.DeclaresVariant owner enumName variant) ∧
    (∀ (r : Resolver) locals, r.validateLocals locals = .ok () ↔
      ∀ name ∈ locals, name ∉ r.generatedIdentifiers) ∧
    (∀ owner kind localName, IsIdentifier (backendName owner kind localName)) ∧
    ∀ owner enumName variant, IsIdentifier (variantName owner enumName variant) := by
  refine ⟨fun owner kind localName owner' kind' localName' => ⟨backendName_injective, ?_⟩,
    fun owner enumName variant owner' enumName' variant' => ⟨variantName_injective, ?_⟩,
    fun _ _ _ _ _ _ => backendName_ne_variantName, fun owner kind localName artifact h => ?_,
    fun _ _ _ _ => backendName_reserved_iff, fun _ _ _ _ => variantName_reserved_iff,
    fun _ _ => validateLocals_iff, fun owner kind localName => ?_,
    fun owner enumName variant => ?_⟩
  · rintro ⟨rfl, rfl, rfl⟩
    rfl
  · rintro ⟨rfl, rfl, rfl⟩
    rfl
  · refine (artifacts_cases h).imp_right fun hmore => ⟨fun _ _ _ heq => ?_, fun _ _ _ heq => ?_⟩
    · exact not_extends_backendName (heq ▸ hmore)
    · exact not_extends_variantName (heq ▸ hmore)
  · rw [backendName_eq]
    refine isIdentifier_delimited (List.cons_ne_nil _ _) ?_
    exact fun field hmem => plain_backendFields _ _ _ field (List.mem_cons_of_mem _ hmem)
  · rw [variantName_eq]
    refine isIdentifier_delimited (List.cons_ne_nil _ _) ?_
    exact fun field hmem => plain_variantFields _ _ _ field (List.mem_cons_of_mem _ hmem)

/-- A project with one node. -/
def oneNode : Resolver where
  owner := "p"
  inventories := [⟨"p", { declarations := [((.node, "N"), backendName "p" .node "N")] }⟩]

/-- The name of a node is reserved, and a local may have the name of a node of another graph. -/
theorem names_reserved_and_used :
    backendName "p" .node "N" ∈ oneNode.generatedIdentifiers ∧
      oneNode.validateLocals [backendName "q" .node "N"] = .ok () := by
  decide

end OpenLustre.NativeProject
