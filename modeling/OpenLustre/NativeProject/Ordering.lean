import OpenLustre.Ir.Project
import OpenLustre.Lib.Kahn
import OpenLustre.Lib.Stateful

/-! The order of a native package's declarations.  Evaluators take constants in it, and
emitters take types in it; what a function's body reads has no part in it. -/

namespace OpenLustre.NativeProject

open OpenLustre.Ir Dependency

/-- The place of a name; the last one counts. -/
def indexOf (names : List String) (name : String) : Option Nat :=
  (names.zipIdx.reverse.find? (·.1 = name)).map (·.2)

/-- The declarations that declaration `i` refers to. -/
def dependenciesOf (names : List String) (dependencies : List (List String)) (i : Nat) : List Nat :=
  ((dependencies[i]?.getD []).filterMap (indexOf names)).dedup

/-- How a declaration is named in a report. -/
def reportedName (kind : String) (symbols : List NativeSymbol) (name : String) : String :=
  match symbols.find? fun s => s.kind = kind ∧ s.resolvedName = name with
  | some s => s.projectId ++ "::" ++ s.localName
  | none => name

def dependencyOrder (names : List String) (dependencies : List (List String)) (kind : String)
    (symbols : List NativeSymbol) : Except String (List Nat) :=
  let last := kahn (dependenciesOf names dependencies) names.length
  if last.order.length ≠ names.length then
    let blocked := (names.zipIdx.filter fun x => last.indegrees x.2 > 0).map fun x =>
      reportedName kind symbols x.1
    .error ("cyclic " ++ kind ++ " dependency prevents declaration of: " ++
      String.intercalate ", " blocked)
  else .ok last.order

def reorder {α : Type} (items : List α) (order : List Nat) : List α := order.filterMap (items[·]?)

def namedDependencies : Ty → List String
  | .named name => [name]
  | .array elem _ => namedDependencies elem
  | _ => []

def typeDependencies (t : TypeDef) : List String :=
  match t.body with
  | .record _ fields => fields.flatMap fun f => namedDependencies f.ty
  | .aliasOf _ target => namedDependencies target
  | .enum _ => []

def constantOrder (package : Package) (symbols : List NativeSymbol) : Except String (List Nat) :=
  dependencyOrder (package.constants.map (·.name)) (package.constants.map (·.value.freeVars))
    "constant" symbols

def typeOrder (package : Package) (symbols : List NativeSymbol) : Except String (List Nat) :=
  dependencyOrder (package.types.map (·.name)) (package.types.map typeDependencies) "type" symbols

def orderDeclarations (package : Package) (symbols : List NativeSymbol) : Except String Package := do
  let constants ← constantOrder package symbols
  let types ← typeOrder package symbols
  pure { package with
    constants := reorder package.constants constants
    types := reorder package.types types }

/-- Item `i` refers to item `j`. -/
def RefersTo {α : Type} (items : List α) (name : α → String) (refs : α → List String) (i j : Nat) :
    Prop :=
  ∃ item, items[i]? = some item ∧ ∃ x ∈ refs item, indexOf (items.map name) x = some j

/-- Every item comes after the items whose names it refers to. -/
def Follows {α : Type} (name : α → String) (refs : α → List String) (items : List α) : Prop :=
  ∀ before item after, items = before ++ item :: after →
    ∀ x ∈ refs item, x ∈ items.map name → x ∈ before.map name

section

variable {α : Type} {items : List α} {name : α → String} {refs : α → List String}

theorem indexOf_eq_some {names : List String} {x : String} {j : Nat}
    (h : indexOf names x = some j) : names[j]? = some x := by
  obtain ⟨⟨y, k⟩, hfind, rfl⟩ := Option.map_eq_some_iff.mp h
  obtain rfl : y = x := by simpa using List.find?_some hfind
  exact List.mem_zipIdx_iff_getElem?.mp (List.mem_reverse.mp (List.mem_of_find?_eq_some hfind))

theorem indexOf_isSome {names : List String} {x : String} (h : x ∈ names) :
    ∃ j, indexOf names x = some j := by
  obtain ⟨k, hk⟩ := List.getElem?_of_mem h
  have hfind : (names.zipIdx.reverse.find? (·.1 = x)).isSome := by
    refine List.find?_isSome.mpr ⟨(x, k), ?_, by simp⟩
    exact List.mem_reverse.mpr (List.mem_zipIdx_iff_getElem?.mpr hk)
  obtain ⟨y, hy⟩ := Option.isSome_iff_exists.mp hfind
  exact ⟨y.2, by simp [indexOf, hy]⟩

theorem mem_dependenciesOf {i j : Nat} :
    j ∈ dependenciesOf (items.map name) (items.map refs) i ↔ RefersTo items name refs i j := by
  unfold dependenciesOf RefersTo
  cases h : items[i]? <;> simp [h]

theorem refersTo_lt {i j : Nat} (h : RefersTo items name refs i j) :
    i < items.length ∧ j < items.length := by
  obtain ⟨item, hi, x, -, hj⟩ := h
  have hj := (List.getElem?_eq_some_iff.mp (indexOf_eq_some hj)).1
  exact ⟨(List.getElem?_eq_some_iff.mp hi).1, by simpa using hj⟩

/-- The order is found exactly when no declaration refers to itself, and then it has every
declaration once and after those it refers to. -/
theorem dependencyOrder_spec (items : List α) (name : α → String) (refs : α → List String) (kind : String) (symbols : List NativeSymbol) :
    ((∃ order, dependencyOrder (items.map name) (items.map refs) kind symbols = .ok order) ↔
      ¬ Cyclic (RefersTo items name refs)) ∧
    ∀ order, dependencyOrder (items.map name) (items.map refs) kind symbols = .ok order →
      order.Perm (List.range items.length) ∧
      ∀ i j, RefersTo items name refs i j → Before order j i := by
  have hrel : RefersTo items name refs =
      fun i j => j ∈ dependenciesOf (items.map name) (items.map refs) i :=
    funext₂ fun i j => propext mem_dependenciesOf.symm
  let deps := dependenciesOf (items.map name) (items.map refs)
  have hnodup (i : Nat) : (deps i).Nodup := List.nodup_dedup _
  have hdom (i j : Nat) (hj : j ∈ deps i) : i < items.length ∧ j < items.length :=
    refersTo_lt (mem_dependenciesOf.mp hj)
  obtain ⟨hplaced, hlen⟩ := kahn_spec hnodup hdom
  unfold dependencyOrder
  simp only [List.length_map]
  rw [hrel, ← hlen]
  constructor
  · split
    case isTrue h => simpa [deps] using h
    case isFalse h => simpa using h
  · intro order h
    split at h
    case isTrue => cases h
    case isFalse hfull =>
      cases h
      have hfull := not_not.mp hfull
      have hperm := hplaced.perm hfull.ge
      refine ⟨hperm, fun i j hij => hplaced.before (hperm.mem_iff.mpr ?_) hij⟩
      exact List.mem_range.mpr (refersTo_lt (mem_dependenciesOf.mp hij)).1

theorem filterMap_range : (List.range items.length).filterMap (items[·]?) = items := by
  induction items with
  | nil => rfl
  | cons item items ih =>
    rw [List.length_cons, List.range_succ_eq_map, List.filterMap_cons, List.filterMap_map]
    simpa [Function.comp_def] using ih

theorem reorder_perm {order : List Nat} (h : order.Perm (List.range items.length)) :
    (reorder items order).Perm items :=
  (h.filterMap _).trans (.of_eq filterMap_range)

theorem reorder_follows {order : List Nat} (h : order.Perm (List.range items.length))
    (hbefore : ∀ i j, RefersTo items name refs i j → Before order j i) :
    Follows name refs (reorder items order) := by
  intro before item after heq x hx hmem
  obtain ⟨is, rest, hsplit, rfl, hrest⟩ := List.filterMap_eq_append_iff.mp heq
  obtain ⟨missing, i, js, rfl, hmissing, hi, -⟩ := List.filterMap_eq_cons_iff.mp hrest
  have hmem : x ∈ items.map name := ((reorder_perm h).map name).mem_iff.mp hmem
  obtain ⟨j, hj⟩ := indexOf_isSome hmem
  have hnodup : order.Nodup := h.nodup_iff.mpr List.nodup_range
  have hsplit : order = (is ++ missing) ++ i :: js := by rw [hsplit, List.append_assoc]
  have hleft := (hsplit ▸ hbefore i j ⟨item, hi, x, hx, hj⟩).mem_left (hsplit ▸ hnodup)
  have hget := indexOf_eq_some hj
  rw [List.getElem?_map, Option.map_eq_some_iff] at hget
  obtain ⟨item', hitem, rfl⟩ := hget
  rcases List.mem_append.mp hleft with hleft | hleft
  · exact List.mem_map.mpr ⟨item', List.mem_filterMap.mpr ⟨j, hleft, hitem⟩, rfl⟩
  · simp [hmissing j hleft] at hitem

end

def constantRefersTo (package : Package) : Nat → Nat → Prop :=
  RefersTo package.constants (·.name) (·.value.freeVars)

def typeRefersTo (package : Package) : Nat → Nat → Prop :=
  RefersTo package.types (·.name) typeDependencies

/-- What a package gains: its declarations, each after those it refers to. -/
structure Ordered (package package' : Package) : Prop where
  constants : package'.constants.Perm package.constants
  types : package'.types.Perm package.types
  constants_follow : Follows (·.name) (·.value.freeVars) package'.constants
  types_follow : Follows (·.name) typeDependencies package'.types
  rest : package' = { package with constants := package'.constants, types := package'.types }

/-- A package is ordered exactly when neither its constants nor its types refer to
themselves. -/
theorem orderDeclarations_spec (package : Package) (symbols : List NativeSymbol) :
    ((∃ package', orderDeclarations package symbols = .ok package') ↔
      ¬ Cyclic (constantRefersTo package) ∧ ¬ Cyclic (typeRefersTo package)) ∧
    ∀ package', orderDeclarations package symbols = .ok package' → Ordered package package' := by
  obtain ⟨hconstant, hconstants⟩ :=
    dependencyOrder_spec package.constants (·.name) (·.value.freeVars) "constant" symbols
  obtain ⟨htype, htypes⟩ :=
    dependencyOrder_spec package.types (·.name) typeDependencies "type" symbols
  have heq (package' : Package) : orderDeclarations package symbols = .ok package' ↔
      ∃ constants, constantOrder package symbols = .ok constants ∧
      ∃ types, typeOrder package symbols = .ok types ∧
      package' = { package with
        constants := reorder package.constants constants
        types := reorder package.types types } := by
    rw [orderDeclarations, Except.bind_eq_ok]
    refine exists_congr fun constants => and_congr_right fun _ => ?_
    rw [Except.bind_eq_ok]
    refine exists_congr fun types => and_congr_right fun _ => ?_
    change Except.ok _ = Except.ok package' ↔ _
    rw [Except.ok.injEq, eq_comm]
  constructor
  · refine Iff.trans ?_ (and_congr hconstant htype)
    simp only [heq]
    constructor
    · rintro ⟨_, constants, hc, types, ht, -⟩
      exact ⟨⟨constants, hc⟩, ⟨types, ht⟩⟩
    · rintro ⟨⟨constants, hc⟩, ⟨types, ht⟩⟩
      exact ⟨_, constants, hc, types, ht, rfl⟩
  · intro package' h
    obtain ⟨constants, hc, types, ht, rfl⟩ := (heq package').mp h
    obtain ⟨hcperm, hcbefore⟩ := hconstants constants hc
    obtain ⟨htperm, htbefore⟩ := htypes types ht
    exact ⟨reorder_perm hcperm, reorder_perm htperm, reorder_follows hcperm hcbefore,
      reorder_follows htperm htbefore, rfl⟩

end OpenLustre.NativeProject
