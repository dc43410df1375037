import Mathlib.Data.List.Nodup
import OpenLustre.Sim.Input

/-! What a typed input accepts: values that conform to the type, in bracketed text and in
JSON. -/

namespace OpenLustre.Simulator

open OpenLustre.Ir

/-- A value of a type without reals, whose type nests at most `room` deep. -/
inductive Conforms (p : Project) : Nat → Ty → Value → Prop
  | bool {room : Nat} {b : Bool} : Conforms p (room + 1) .bool (.bool b)
  | int {room : Nat} {ty : Ty} {i lo hi : Int} : intRange ty = some (lo, hi) → lo ≤ i → i ≤ hi →
      Conforms p (room + 1) ty (.int i)
  | char {room : Nat} {i : Int} : 0 ≤ i → i ≤ 255 → Conforms p (room + 1) .char (.int i)
  | array {room len : Nat} {elem : Ty} {xs : List Value} : xs.length = len →
      (∀ x ∈ xs, Conforms p room elem x) → Conforms p (room + 1) (.array elem len) (.array xs)
  | enum {room : Nat} {name variant : String} {e : EnumDef} : findType p name = some (.enum e) →
      variant ∈ e.variants → Conforms p (room + 1) (.named name) (.enum variant)
  | record {room : Nat} {name name' : String} {fields : List RecordField}
      {m : List (String × Value)} : findType p name = some (.record name' fields) → Sorted m →
      (∀ x, (m.lookup x).isSome ↔ ∃ f ∈ fields, f.name = x) →
      (∀ f ∈ fields, ∀ v, m.lookup f.name = some v → Conforms p room f.ty v) →
      Conforms p (room + 1) (.named name) (.record m)
  | aliasOf {room : Nat} {name name' : String} {target : Ty} {v : Value} :
      findType p name = some (.aliasOf name' target) → Conforms p room target v →
      Conforms p (room + 1) (.named name) v

/-- A property of all scalar types and all declarations that a type is built from, `room`
levels deep. -/
def everywhere (p : Project) (scalar : Ty → Bool) (body : TypeBody → Bool) : Nat → Ty → Bool
  | 0, _ => true
  | room + 1, ty =>
    match ty with
    | .array elem _ => everywhere p scalar body room elem
    | .named name =>
      match findType p name with
      | none => true
      | some (.enum e) => body (.enum e)
      | some (.record name fields) =>
        body (.record name fields) && fields.all fun f => everywhere p scalar body room f.ty
      | some (.aliasOf name target) =>
        body (.aliasOf name target) && everywhere p scalar body room target
    | ty => scalar ty

/-- Without reals. -/
def floatFree (p : Project) : Nat → Ty → Bool := everywhere p (fun ty => !ty.isFloat) fun _ => true

/-- Every record declares each field once. -/
def fieldsOnce (p : Project) : Nat → Ty → Bool :=
  everywhere p (fun _ => true) fun
    | .record _ fields => decide (fields.map (·.name)).Nodup
    | _ => true

section Sound

variable {io : InputIo} {p : Project} {room : Nat}

theorem elim_expected {α : Type} {o : Option α} {path : String} {ty : Ty} {detail : String}
    {f : α → Except String Value} {v : Value} (h : o.elim (expected path ty detail) f = .ok v) :
    ∃ a, o = some a ∧ f a = .ok v := by
  cases o with
  | none => cases h
  | some a => exact ⟨a, rfl, h⟩

theorem readInteger_conforms {i : Option Int} {detail path : String} {ty : Ty} {v : Value}
    {lo hi : Int} (hty : intRange ty = some (lo, hi)) (h : readInteger i detail ty path = .ok v) :
    Conforms p (room + 1) ty v := by
  cases i with
  | none => cases h
  | some i =>
    rw [readInteger, checkedInt, hty] at h
    simp only at h
    split at h
    case isTrue => cases h
    case isFalse hrange =>
      cases h
      rw [not_or, not_lt, not_lt] at hrange
      exact .int hty hrange.1 hrange.2

theorem readElements_conforms {α : Type} {sub : α → String → Except String Value} {ty elem : Ty}
    {len : Nat} {path : String} {items : List α} {v : Value}
    (hsub : ∀ a path v, sub a path = .ok v → Conforms p room elem v)
    (h : readElements sub ty len path items = .ok v) :
    Conforms p (room + 1) (.array elem len) v := by
  unfold readElements at h
  split at h
  case isTrue => cases h
  case isFalse hlen =>
    obtain ⟨xs, hxs, rfl⟩ := Except.map_eq_ok.mp h
    have hall := Except.mapM_zipIdx_eq_ok hxs
    refine .array (by rw [← hall.length_eq]; exact not_not.mp hlen) fun x hx => ?_
    obtain ⟨a, -, i, ha⟩ := Except.exists_mem_of_forall₂ hall hx
    exact hsub a _ x ha

/-- Where each field is declared once, the value of a field is the one that was read for it. -/
theorem readFields_conforms {α : Type} {sub : α → Ty → String → Except String Value}
    {fields : List RecordField} {name name' path : String} {entries : List (String × α)} {v : Value}
    (hname : findType p name = some (.record name' fields))
    (honce : (fields.map (·.name)).Nodup)
    (hsub : ∀ f ∈ fields, ∀ a path v, sub a f.ty path = .ok v → Conforms p room f.ty v)
    (h : readFields sub fields name path entries = .ok v) :
    Conforms p (room + 1) (.named name) v := by
  obtain ⟨m, hm, rfl⟩ := Except.map_eq_ok.mp h
  obtain ⟨hsorted, -, hlookup, hsome⟩ := collectFields_spec hm
  refine .record hname hsorted (fun x => ⟨fun hx => ?_, ?_⟩) fun f hf v hv => ?_
  · obtain ⟨v, hv⟩ := Option.isSome_iff_exists.mp hx
    obtain ⟨f, hf, hname, -⟩ := hlookup x v hv
    exact ⟨f, hf, hname⟩
  · rintro ⟨f, hf, rfl⟩
    exact hsome f hf
  · obtain ⟨g, hg, hname, hvalue⟩ := hlookup f.name v hv
    obtain rfl : g = f := List.inj_on_of_nodup_map honce hg hf hname
    unfold readField at hvalue
    split at hvalue
    · cases hvalue
    case h_2 a _ => exact hsub g hf a _ v hvalue

theorem chooseVariant_ne {path : String} {ty : Ty} {e : EnumDef} {v : Value} :
    chooseVariant path ty e ≠ .ok v := nofun

theorem enum_conforms {name variant path : String} {e : EnumDef} {ty : Ty} {v : Value}
    (hname : findType p name = some (.enum e))
    (h : (if e.variants.contains variant then .ok (.enum variant) else chooseVariant path ty e) =
      Except.ok v) : Conforms p (room + 1) (.named name) v := by
  split at h
  case isTrue hmem =>
    cases h
    exact .enum hname (List.contains_iff_mem.mp hmem)
  case isFalse => cases h

theorem findNamed_eq_ok {name path : String} {body : TypeBody}
    (h : findNamed p name path = .ok body) : findType p name = some body := by
  unfold findNamed at h
  split at h
  case h_1 heq =>
    cases h
    exact heq
  case h_2 => cases h

theorem parseJson_conforms {j : Json} {ty : Ty} {path : String} {v : Value}
    (hfloat : floatFree p room ty = true) (honce : fieldsOnce p room ty = true)
    (h : parseJson p room j ty path = .ok v) : Conforms p room ty v := by
  induction room generalizing j ty path v with
  | zero => cases h
  | succ room ih =>
    cases ty with
    | bool =>
      obtain ⟨b, -, hb⟩ := elim_expected h
      cases hb
      exact .bool
    | float32 => cases hfloat
    | float64 => cases hfloat
    | char =>
      obtain ⟨i, hi, hv⟩ := elim_expected h
      cases hv
      rw [Option.filter_eq_some_iff, decide_eq_true_eq] at hi
      refine .char ?_ hi.2
      obtain ⟨hi, -⟩ := hi
      cases j with
      | int k =>
        simp only [Json.asU64, Option.ite_none_right_eq_some, Option.some.injEq] at hi
        omega
      | _ => cases hi
    | array elem len =>
      simp only [parseJson] at h
      split at h
      case h_1 => cases h
      case h_2 => exact readElements_conforms (fun _ _ _ => ih hfloat honce) h
    | named name =>
      simp only [parseJson] at h
      obtain ⟨body, hbody, h⟩ := Except.bind_eq_ok.mp h
      have hname := findNamed_eq_ok hbody
      simp only [floatFree, fieldsOnce, everywhere, hname] at hfloat honce
      cases body with
      | aliasOf _ target =>
        rw [Bool.and_eq_true] at hfloat honce
        exact .aliasOf hname (ih hfloat.2 honce.2 h)
      | enum e =>
        simp only at h
        split at h
        case h_1 => cases h
        case h_2 => exact enum_conforms hname h
      | record name' fields =>
        simp only [Bool.and_eq_true, List.all_eq_true, decide_eq_true_eq] at hfloat honce
        simp only at h
        split at h
        case h_1 => cases h
        case h_2 entries _ =>
          split at h
          case h_1 => cases h
          case h_2 =>
            exact readFields_conforms hname honce.1
              (fun f hf _ _ _ => ih (hfloat.2 f hf) (honce.2 f hf)) h
    | _ => exact readInteger_conforms rfl h

theorem parseText_conforms {raw : List Char} {ty : Ty} {path : String} {v : Value}
    (hfloat : floatFree p room ty = true) (honce : fieldsOnce p room ty = true)
    (h : parseText io p room raw ty path = .ok v) : Conforms p room ty v := by
  induction room generalizing raw ty path v with
  | zero => cases h
  | succ room ih =>
    cases ty with
    | bool =>
      simp only [parseText] at h
      split at h
      · cases h
        exact .bool
      split at h
      · cases h
        exact .bool
      · cases h
    | float32 => cases hfloat
    | float64 => cases hfloat
    | char =>
      obtain ⟨i, hi, hv⟩ := elim_expected h
      cases hv
      rw [parseU8, Option.filter_eq_some_iff, decide_eq_true_eq] at hi
      exact .char (Int.natCast_nonneg i) (by exact_mod_cast hi.2)
    | array elem len =>
      simp only [parseText] at h
      split at h
      case h_1 => exact parseJson_conforms hfloat honce h
      case h_2 =>
        split at h
        case h_1 => cases h
        case h_2 =>
          obtain ⟨parts, -, h⟩ := Except.bind_eq_ok.mp h
          exact readElements_conforms (fun _ _ _ => ih hfloat honce) h
    | named name =>
      simp only [parseText] at h
      obtain ⟨body, hbody, h⟩ := Except.bind_eq_ok.mp h
      have hname := findNamed_eq_ok hbody
      have hwhole := And.intro hfloat honce
      simp only [floatFree, fieldsOnce, everywhere, hname] at hfloat honce
      cases body with
      | aliasOf _ target =>
        rw [Bool.and_eq_true] at hfloat honce
        exact .aliasOf hname (ih hfloat.2 honce.2 h)
      | enum e => exact enum_conforms hname h
      | record name' fields =>
        simp only [Bool.and_eq_true, List.all_eq_true, decide_eq_true_eq] at hfloat honce
        simp only at h
        split at h
        case h_1 => exact parseJson_conforms hwhole.1 hwhole.2 h
        case h_2 =>
          split at h
          case h_1 => cases h
          case h_2 =>
            split at h
            case isTrue => cases h
            case isFalse =>
              obtain ⟨items, -, h⟩ := Except.bind_eq_ok.mp h
              obtain ⟨entries, -, h⟩ := Except.bind_eq_ok.mp h
              exact readFields_conforms hname honce.1
                (fun f hf _ _ _ => ih (hfloat.2 f hf) (honce.2 f hf)) h
    | _ => exact readInteger_conforms rfl h

end Sound

end OpenLustre.Simulator
