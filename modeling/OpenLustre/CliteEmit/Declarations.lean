import OpenLustre.Sim.Fields
import OpenLustre.Typecheck.Check

/-! The C declarations of typed variables, and the shape of what they hold. -/

namespace OpenLustre.CliteEmit

open OpenLustre.Ir OpenLustre.Simulator

/-- The built-in C types of declarations. -/
inductive Scalar
  | bool
  | int8
  | int16
  | int32
  | int64
  | uint8
  | uint16
  | uint32
  | uint64
  | float
  | double
  | char
  deriving DecidableEq, Repr

def Scalar.text : Scalar → String
  | .bool => "bool"
  | .int8 => "int8_t"
  | .int16 => "int16_t"
  | .int32 => "int32_t"
  | .int64 => "int64_t"
  | .uint8 => "uint8_t"
  | .uint16 => "uint16_t"
  | .uint32 => "uint32_t"
  | .uint64 => "uint64_t"
  | .float => "float"
  | .double => "double"
  | .char => "char"

inductive CName
  | builtin (s : Scalar)
  | typedef (name : String)
  deriving DecidableEq, Repr

def CName.text : CName → String
  | .builtin s => s.text
  | .typedef name => name

/-- The C name of a type; that of an array is its element's. -/
def cName : Ty → CName
  | .bool => .builtin .bool
  | .int8 => .builtin .int8
  | .int16 => .builtin .int16
  | .int32 => .builtin .int32
  | .int64 => .builtin .int64
  | .uint8 => .builtin .uint8
  | .uint16 => .builtin .uint16
  | .uint32 => .builtin .uint32
  | .uint64 => .builtin .uint64
  | .float32 => .builtin .float
  | .float64 => .builtin .double
  | .char => .builtin .char
  | .array elem _ => cName elem
  | .named name => .typedef name

/-- A C declarator, its array brackets after the name. -/
structure Declarator where
  base : CName
  name : String
  dims : List Nat
  deriving DecidableEq, Repr

def Declarator.text (d : Declarator) : String :=
  d.base.text ++ " " ++ d.name ++ String.join (d.dims.map fun n => "[" ++ toString n ++ "]")

def typeDecl (ty : Ty) (name : String) : Declarator :=
  match ty with
  | .array elem len => ⟨cName elem, name, [len]⟩
  | other => ⟨cName other, name, []⟩

inductive CTypedef
  | enum (variants : List String)
  | struct (members : List Declarator)
  | aliasOf (base : CName)
  deriving DecidableEq, Repr

/-- What a typedef of the generated header defines. -/
def emitTypedef (t : TypeBody) : CTypedef :=
  match t with
  | .enum e => .enum e.variants
  | .record _ fields => .struct (fields.map fun f => typeDecl f.ty f.name)
  | .aliasOf _ target => .aliasOf (cName target)

def CTypedef.text (name : String) : CTypedef → String
  | .enum variants => "typedef enum \x7b\n  " ++ String.intercalate ",\n  " variants ++ "\n\x7d " ++
      name ++ ";\n"
  | .struct members => "typedef struct \x7b\n" ++
      String.join (members.map fun d => "  " ++ d.text ++ ";\n") ++ "\x7d " ++ name ++ ";\n"
  | .aliasOf base => "typedef " ++ base.text ++ " " ++ name ++ ";\n"

/-- What one scalar cell ranges over. -/
inductive Cell
  | bool
  | int (lo hi : Int)
  | float
  | double
  | enum (variants : List String)
  deriving DecidableEq, Repr

def Cell.Holds : Cell → Value → Prop
  | .bool, .bool _ => True
  | .int lo hi, .int i => lo ≤ i ∧ i ≤ hi
  | .float, .float32 _ => True
  | .double, .float _ => True
  | .enum _, .enum _ => True
  | _, _ => False

/-- How the scalar cells of a variable are nested. -/
inductive Shape
  | cell (c : Cell)
  | array (len : Nat) (elem : Shape)
  | record (fields : List (String × Shape))

/-- A value has the cells of the shape, in the same nesting. -/
inductive HasShape : Value → Shape → Prop
  | cell {v : Value} {c : Cell} : c.Holds v → HasShape v (.cell c)
  | array {xs : List Value} {len : Nat} {elem : Shape} : xs.length = len →
    (∀ x ∈ xs, HasShape x elem) → HasShape (.array xs) (.array len elem)
  | record {m : List (String × Value)} {fields : List (String × Shape)} :
    m.length = fields.length → (∀ f ∈ fields, (m.lookup f.1).isSome) →
    (∀ f ∈ fields, ∀ v, m.lookup f.1 = some v → HasShape v f.2) → HasShape (.record m) (.record fields)

section

variable (charSigned : Bool)

/-- The range of a built-in type; whether a plain `char` is signed is up to the compiler. -/
def Scalar.cell : Scalar → Cell
  | .bool => .bool
  | .int8 => .int (-2 ^ 7) (2 ^ 7 - 1)
  | .int16 => .int (-2 ^ 15) (2 ^ 15 - 1)
  | .int32 => .int (-2 ^ 31) (2 ^ 31 - 1)
  | .int64 => .int (-2 ^ 63) (2 ^ 63 - 1)
  | .uint8 => .int 0 (2 ^ 8 - 1)
  | .uint16 => .int 0 (2 ^ 16 - 1)
  | .uint32 => .int 0 (2 ^ 32 - 1)
  | .uint64 => .int 0 (2 ^ 64 - 1)
  | .float => .float
  | .double => .double
  | .char => if charSigned then .int (-2 ^ 7) (2 ^ 7 - 1) else .int 0 (2 ^ 8 - 1)

section

variable (named : String → Option Shape)

def baseShape : CName → Option Shape
  | .builtin s => some (.cell (s.cell charSigned))
  | .typedef name => named name

/-- The shape of what a declaration declares. -/
def Declarator.shape (d : Declarator) : Option Shape :=
  (baseShape charSigned named d.base).map fun s => d.dims.foldr Shape.array s

/-- The members of a struct have different names. -/
def structShape (members : List Declarator) : Option Shape :=
  if (members.map (·.name)).Nodup then
    (members.mapM fun (d : Declarator) =>
      (d.shape charSigned named).map (d.name, ·)).map .record
  else none

end

variable (p : Project)

/-- The shape of a typedef of the project, whose typedefs nest to a depth. -/
def typedefShape : Nat → String → Option Shape
  | 0, _ => none
  | depth + 1, name =>
    match (findType p name).map emitTypedef with
    | none => none
    | some (.enum variants) => some (.cell (.enum variants))
    | some (.struct members) => structShape charSigned (typedefShape depth) members
    | some (.aliasOf base) => baseShape charSigned (typedefShape depth) base

end

section

variable (named : String → Option Shape)

/-- The shape of a type, by its own declaration. -/
def shapeWith : Ty → Option Shape
  | .bool => some (.cell .bool)
  | .int8 => some (.cell (.int (-2 ^ 7) (2 ^ 7 - 1)))
  | .int16 => some (.cell (.int (-2 ^ 15) (2 ^ 15 - 1)))
  | .int32 => some (.cell (.int (-2 ^ 31) (2 ^ 31 - 1)))
  | .int64 => some (.cell (.int (-2 ^ 63) (2 ^ 63 - 1)))
  | .uint8 => some (.cell (.int 0 (2 ^ 8 - 1)))
  | .uint16 => some (.cell (.int 0 (2 ^ 16 - 1)))
  | .uint32 => some (.cell (.int 0 (2 ^ 32 - 1)))
  | .uint64 => some (.cell (.int 0 (2 ^ 64 - 1)))
  | .float32 => some (.cell .float)
  | .float64 => some (.cell .double)
  | .char => some (.cell (.int 0 (2 ^ 8 - 1)))
  | .array elem len => (shapeWith elem).map (.array len)
  | .named name => named name

variable (p : Project)

def namedShape : Nat → String → Option Shape
  | 0, _ => none
  | depth + 1, name =>
    match findType p name with
    | none => none
    | some (.enum e) => some (.cell (.enum e.variants))
    | some (.record _ fields) =>
      (fields.mapM fun f => (shapeWith (namedShape depth) f.ty).map (f.name, ·)).map .record
    | some (.aliasOf _ target) => shapeWith (namedShape depth) target

end

section

variable (charSigned : Bool) (named : String → Bool)

def isArray : Ty → Bool
  | .array _ _ => true
  | _ => false

/-- A type whose declaration keeps all it says: no array is the element of an array or the
target of an alias, the fields of a record have different names, and a plain `char` is only
there when it is unsigned. -/
def plainWith : Ty → Bool
  | .char => !charSigned
  | .array elem _ => !isArray elem && plainWith elem
  | .named name => named name
  | _ => true

variable (p : Project)

def plainNamed : Nat → String → Bool
  | 0, _ => false
  | depth + 1, name =>
    match findType p name with
    | none => false
    | some (.enum _) => true
    | some (.record _ fields) =>
      decide (fields.map (·.name)).Nodup &&
        fields.all fun f => plainWith charSigned (plainNamed depth) f.ty
    | some (.aliasOf _ target) =>
      !isArray target && plainWith charSigned (plainNamed depth) target

end

/-- The declaration of a variable of the type has the shape of the type, and its initial
value has. -/
def Declares (charSigned : Bool) (p : Project) (depth : Nat) (ty : Ty) (name : String)
    (v : Value) : Prop :=
  ∃ s, (typeDecl ty name).shape charSigned (typedefShape charSigned p depth) = some s ∧
    shapeWith (namedShape p depth) ty = some s ∧ HasShape v s

section

variable {charSigned : Bool} {p : Project}

theorem shape_of_not_array {named : String → Option Shape} {ty : Ty} (h : isArray ty = false)
    (name : String) :
    (typeDecl ty name).shape charSigned named = baseShape charSigned named (cName ty) := by
  cases ty with
  | array elem len => cases h
  | _ => simp [typeDecl, Declarator.shape]

def Shape.isArray : Shape → Bool
  | .array _ _ => true
  | _ => false

theorem baseShape_not_array {named : String → Option Shape}
    (hnamed : ∀ name s, named name = some s → s.isArray = false) {base : CName} {s : Shape}
    (h : baseShape charSigned named base = some s) : s.isArray = false := by
  cases base with
  | builtin b =>
    cases h
    rfl
  | typedef name => exact hnamed name s h

/-- A typedef by itself has no array brackets. -/
theorem typedefShape_not_array (depth : Nat) :
    ∀ name s, typedefShape charSigned p depth name = some s → s.isArray = false := by
  induction depth with
  | zero => exact fun name s h => nomatch h
  | succ depth ih =>
    intro name s h
    unfold typedefShape at h
    split at h
    case h_1 => cases h
    case h_2 =>
      cases h
      rfl
    case h_3 =>
      unfold structShape at h
      split at h
      · obtain ⟨fields, -, rfl⟩ := Option.map_eq_some_iff.mp h
        rfl
      · cases h
    case h_4 => exact baseShape_not_array ih h

section

variable {cNamed tNamed : String → Option Shape} {plain : String → Bool}
  (harray : ∀ name s, cNamed name = some s → s.isArray = false)
  (hnamed : ∀ name, (∃ s, cNamed name = some s ∧ tNamed name = some s) ↔ plain name = true)
include harray hnamed

/-- A declaration has the shape of the type when nothing in it is lost. -/
theorem declares_iff (ty : Ty) (name : String) :
    (∃ s, (typeDecl ty name).shape charSigned cNamed = some s ∧ shapeWith tNamed ty = some s) ↔
      plainWith charSigned plain ty = true := by
  induction ty with
  | named name => simpa [typeDecl, Declarator.shape, cName, baseShape, shapeWith, plainWith]
      using hnamed name
  | char => cases charSigned <;>
      simp [typeDecl, Declarator.shape, cName, baseShape, shapeWith, plainWith, Scalar.cell]
  | array elem len ih =>
    have hshape : (typeDecl (.array elem len) name).shape charSigned cNamed =
        (baseShape charSigned cNamed (cName elem)).map (.array len) := rfl
    have hsame : (∃ s, (typeDecl (.array elem len) name).shape charSigned cNamed = some s ∧
        shapeWith tNamed (.array elem len) = some s) ↔
        ∃ s, baseShape charSigned cNamed (cName elem) = some s ∧ shapeWith tNamed elem = some s := by
      rw [hshape, shapeWith]
      constructor
      · rintro ⟨s, hs, hs'⟩
        obtain ⟨a, ha, rfl⟩ := Option.map_eq_some_iff.mp hs
        obtain ⟨b, hb, hab⟩ := Option.map_eq_some_iff.mp hs'
        cases hab
        exact ⟨a, ha, hb⟩
      · rintro ⟨s, hs, hs'⟩
        exact ⟨.array len s, by rw [hs]; rfl, by rw [hs']; rfl⟩
    rw [hsame]
    cases helem : isArray elem with
    | false =>
      rw [shape_of_not_array helem] at ih
      rw [ih]
      simp [plainWith, helem]
    | true =>
      -- the brackets of the inner array are lost
      simp only [plainWith, helem, Bool.not_true, Bool.false_and, Bool.false_eq_true, iff_false]
      rintro ⟨s, hs, hs'⟩
      have hflat := baseShape_not_array harray hs
      cases elem with
      | array inner k =>
        obtain ⟨_, _, rfl⟩ := Option.map_eq_some_iff.mp hs'
        cases hflat
      | _ => cases helem
  | _ => simp [typeDecl, Declarator.shape, cName, baseShape, shapeWith, plainWith, Scalar.cell]

theorem declares_fields_iff (fields : List RecordField) :
    (∃ shapes, (fields.map fun f => typeDecl f.ty f.name).mapM (fun (d : Declarator) =>
        (d.shape charSigned cNamed).map (d.name, ·)) = some shapes ∧
      fields.mapM (fun f => (shapeWith tNamed f.ty).map (f.name, ·)) = some shapes) ↔
      fields.all (fun f => plainWith charSigned plain f.ty) = true := by
  induction fields with
  | nil => simp
  | cons f fields ih =>
    have hname : (typeDecl f.ty f.name).name = f.name := by cases f.ty <;> rfl
    rw [List.all_cons, Bool.and_eq_true, ← declares_iff harray hnamed f.ty f.name, ← ih]
    simp only [List.map_cons, List.mapM_cons, hname, Option.bind_eq_bind, Option.bind_eq_some_iff,
      Option.map_eq_some_iff, Option.pure_def, Option.some.injEq]
    constructor
    · rintro ⟨_, ⟨x, ⟨s, hs, rfl⟩, xs, hxs, rfl⟩, ⟨y, ⟨t, ht, rfl⟩, ys, hys, heq⟩⟩
      cases heq
      exact ⟨⟨s, hs, ht⟩, xs, hxs, hys⟩
    · rintro ⟨⟨s, hs, ht⟩, xs, hxs, hys⟩
      exact ⟨(f.name, s) :: xs, ⟨(f.name, s), ⟨s, hs, rfl⟩, xs, hxs, rfl⟩,
        (f.name, s), ⟨s, ht, rfl⟩, xs, hys, rfl⟩

end

theorem typedef_declares_iff (depth : Nat) (name : String) :
    (∃ s, typedefShape charSigned p depth name = some s ∧ namedShape p depth name = some s) ↔
      plainNamed charSigned p depth name = true := by
  induction depth generalizing name with
  | zero => simp [typedefShape, plainNamed]
  | succ depth ih =>
    have harray : ∀ name s, typedefShape charSigned p depth name = some s → s.isArray = false :=
      typedefShape_not_array depth
    unfold typedefShape namedShape plainNamed
    rcases findType p name with _ | body
    · simp
    · cases body with
      | enum e => simp [emitTypedef]
      | record _ fields =>
        have hnames : (fields.map fun f => typeDecl f.ty f.name).map (·.name) =
            fields.map (·.name) := by
          rw [List.map_map]
          apply List.map_congr_left
          intro f _
          cases hty : f.ty <;> simp [typeDecl, hty]
        rw [Bool.and_eq_true, ← declares_fields_iff harray ih]
        simp only [Option.map_some, emitTypedef, structShape, hnames]
        by_cases hnodup : (fields.map (·.name)).Nodup
        · simp only [if_pos hnodup, decide_eq_true hnodup, true_and, Option.map_eq_some_iff]
          constructor
          · rintro ⟨_, ⟨a, ha, rfl⟩, b, hb, hab⟩
            cases hab
            exact ⟨a, ha, hb⟩
          · rintro ⟨a, ha, hb⟩
            exact ⟨.record a, ⟨a, ha, rfl⟩, a, hb, rfl⟩
        · simp [hnodup]
      | aliasOf _ target =>
        simp only [Option.map_some, emitTypedef]
        cases htarget : isArray target with
        | false =>
          rw [← shape_of_not_array htarget name, declares_iff harray ih]
          simp
        | true =>
          -- the brackets of the target are lost
          simp only [Bool.not_true, Bool.false_and, Bool.false_eq_true, iff_false]
          rintro ⟨s, hs, hs'⟩
          have hflat := baseShape_not_array harray hs
          cases target with
          | array inner k =>
            obtain ⟨_, _, rfl⟩ := Option.map_eq_some_iff.mp hs'
            cases hflat
          | _ => cases htarget

end

/-- A map filled from the fields of a record, each name once, has a value for each. -/
theorem foldlM_insertField {value : RecordField → Except Fault Value} {fields : List RecordField}
    {m m' : List (String × Value)} (hnodup : (fields.map (·.name)).Nodup)
    (hnew : ∀ f ∈ fields, m.lookup f.name = none)
    (h : fields.foldlM (fun m f => (value f).map fun v => insertField f.name v m) m = .ok m') :
    m'.length = m.length + fields.length ∧
      (∀ f ∈ fields, ∃ v, value f = .ok v ∧ m'.lookup f.name = some v) ∧
      ∀ x, x ∉ fields.map (·.name) → m'.lookup x = m.lookup x := by
  induction fields generalizing m with
  | nil =>
    cases h
    simp
  | cons f fields ih =>
    rw [List.foldlM_cons] at h
    obtain ⟨m₁, hm₁, h⟩ := Except.bind_eq_ok.mp h
    obtain ⟨v, hv, rfl⟩ := Except.map_eq_ok.mp hm₁
    rw [List.map_cons, List.nodup_cons] at hnodup
    obtain ⟨hf, hnew⟩ := List.forall_mem_cons.mp hnew
    have hnew : ∀ g ∈ fields, (insertField f.name v m).lookup g.name = none := by
      intro g hg
      have hne : g.name ≠ f.name := fun hne => hnodup.1 (hne ▸ List.mem_map_of_mem hg)
      rw [lookup_insertField, if_neg hne, hnew g hg]
    obtain ⟨hlen, hvalues, hrest⟩ := ih hnodup.2 hnew h
    refine ⟨?_, ?_, ?_⟩
    · rw [hlen, length_insertField hf, List.length_cons]
      omega
    · refine List.forall_mem_cons.mpr ⟨⟨v, hv, ?_⟩, hvalues⟩
      rw [hrest f.name hnodup.1, lookup_insertField, if_pos rfl]
    · intro x hx
      rw [List.map_cons, List.mem_cons, not_or] at hx
      rw [hrest x hx.2, lookup_insertField, if_neg hx.1]

theorem mapM_fields {shape : RecordField → Option Shape} {fields : List RecordField}
    {shapes : List (String × Shape)}
    (h : fields.mapM (fun f => (shape f).map (f.name, ·)) = some shapes) :
    shapes.length = fields.length ∧
      ∀ x ∈ shapes, ∃ f ∈ fields, x.1 = f.name ∧ shape f = some x.2 := by
  induction fields generalizing shapes with
  | nil =>
    obtain rfl : [] = shapes := by simpa using h
    simp
  | cons f fields ih =>
    simp only [List.mapM_cons, Option.bind_eq_bind, Option.bind_eq_some_iff, Option.map_eq_some_iff,
      Option.pure_def, Option.some.injEq] at h
    obtain ⟨_, ⟨s, hs, rfl⟩, rest, hrest, rfl⟩ := h
    obtain ⟨hlen, hmem⟩ := ih hrest
    refine ⟨by simp [hlen], List.forall_mem_cons.mpr ⟨⟨f, by simp, rfl, hs⟩, ?_⟩⟩
    intro x hx
    obtain ⟨g, hg, hname, hshape⟩ := hmem x hx
    exact ⟨g, List.mem_cons_of_mem _ hg, hname, hshape⟩

/-- The initial value of a variable has the shape of its type. -/
theorem defaultValue_hasShape {charSigned : Bool} {p : Project} (fuel : Nat) {depth : Nat} {ty : Ty}
    {v : Value} {s : Shape} (hv : defaultValue p fuel ty = .ok v)
    (hs : shapeWith (namedShape p depth) ty = some s)
    (hplain : plainWith charSigned (plainNamed charSigned p depth) ty = true) : HasShape v s := by
  induction fuel generalizing depth ty v s with
  | zero => cases hv
  | succ fuel ih =>
    cases ty with
    | array elem len =>
      obtain ⟨a, ha, rfl⟩ := Option.map_eq_some_iff.mp hs
      rw [plainWith, Bool.and_eq_true] at hplain
      obtain ⟨xs, hxs, rfl⟩ := Except.map_eq_ok.mp hv
      obtain ⟨hlen, hmem⟩ := Except.mapM_eq_ok hxs
      refine .array (by simpa using hlen) fun x hx => ?_
      obtain ⟨e, he, hx⟩ := hmem x hx
      obtain rfl := List.eq_of_mem_replicate he
      exact ih hx ha hplain.2
    | named name =>
      cases depth with
      | zero => cases hs
      | succ depth =>
        simp only [shapeWith, namedShape] at hs
        simp only [plainWith, plainNamed] at hplain
        simp only [defaultValue] at hv
        rcases hbody : findType p name with _ | body
        · simp only [hbody] at hs
          cases hs
        · simp only [hbody] at hs hplain hv
          cases body with
          | enum e =>
            cases hs
            cases hv
            exact .cell trivial
          | record _ fields =>
            rw [Bool.and_eq_true, decide_eq_true_iff, List.all_eq_true] at hplain
            obtain ⟨shapes, hshapes, rfl⟩ := Option.map_eq_some_iff.mp hs
            obtain ⟨m, hm, rfl⟩ := Except.map_eq_ok.mp hv
            obtain ⟨hlen, hvalues, -⟩ := foldlM_insertField hplain.1 (fun _ _ => rfl) hm
            obtain ⟨hlen', hmem⟩ := mapM_fields hshapes
            refine .record (by simp [hlen, hlen']) ?_ ?_
            · intro x hx
              obtain ⟨f, hf, hname, -⟩ := hmem x hx
              obtain ⟨w, -, hw⟩ := hvalues f hf
              rw [hname, hw]
              rfl
            · intro x hx w hw
              obtain ⟨f, hf, hname, hshape⟩ := hmem x hx
              obtain ⟨w', hw', hlookup⟩ := hvalues f hf
              rw [hname, hlookup] at hw
              obtain rfl := Option.some.inj hw
              exact ih hw' hshape (hplain.2 f hf)
          | aliasOf _ target =>
            rw [Bool.and_eq_true] at hplain
            exact ih hv hs hplain.2
    | _ =>
      cases hs
      cases hv
      refine .cell ?_
      simp [Cell.Holds]

/-- A function of two integers in a record, and of an array of them. -/
def pairProject : Project where
  packages := [{
    name := "main"
    types := [⟨.record "Pair" [⟨"lo", .int8⟩, ⟨"hi", .uint16⟩]⟩]
    nodes := [{
      name := "first"
      kind := .function
      inputs := [⟨"pairs", .array (.named "Pair") 2⟩]
      outputs := [⟨"y", .int8⟩]
      locals := []
      equations := [⟨["y"], .field (.index (.var "pairs") (.const (.int 0))) "lo"⟩] }] }]

/-- A function of a grid, an array whose elements are arrays. -/
def gridProject : Project where
  packages := [{
    name := "main"
    nodes := [{
      name := "corner"
      kind := .function
      inputs := [⟨"grid", .array (.array .int8 2) 3⟩]
      outputs := [⟨"y", .int8⟩]
      locals := []
      equations := [⟨["y"], .index (.index (.var "grid") (.const (.int 0))) (.const (.int 0))⟩] }] }]

end OpenLustre.CliteEmit
