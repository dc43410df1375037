import OpenLustre.Lib.Json
import OpenLustre.Sim.Fields

/-! Values in the text of traces: how they are printed, and how typed inputs are read, in
the bracketed syntax and as JSON. -/

namespace OpenLustre.Simulator

open OpenLustre.Ir

/-- What reading and printing take from libraries: the JSON parser, and the notation of
reals. -/
structure InputIo where
  fromJson : List Char → Except String Json
  parseF32 : List Char → Option F32
  parseF64 : List Char → Option F64
  fmtReal : F64 → Bool → List Char

section Print

variable (io : InputIo)

mutual

/-- The text of a value in a trace.  It has semicolons, so that commas can separate cells. -/
def Value.toCsv : Value → List Char
  | .bool b => if b then ['t', 'r', 'u', 'e'] else ['f', 'a', 'l', 's', 'e']
  | .int i => Text.decimal i
  | .float x => io.fmtReal x false
  | .float32 x => io.fmtReal (x.convert _) true
  | .tuple items => List.intercalate ['|'] (toCsvList items)
  | .record fields => '{' :: List.intercalate [';'] (toCsvFields fields) ++ ['}']
  | .array items => '[' :: List.intercalate [';'] (toCsvList items) ++ [']']
  | .enum variant => variant.toList

def Value.toCsvList : List Value → List (List Char)
  | [] => []
  | v :: items => v.toCsv :: toCsvList items

def Value.toCsvFields : List (String × Value) → List (List Char)
  | [] => []
  | (k, v) :: fields => (k.toList ++ '=' :: v.toCsv) :: toCsvFields fields

end

end Print

/-! ## JSON values -/

end OpenLustre.Simulator

namespace Json

open OpenLustre.Simulator OpenLustre.Ir

def asBool : Json → Option Bool
  | .bool b => some b
  | _ => none

def asI64 : Json → Option Int
  | .int i => if i ≤ maxI64 then some i else none
  | _ => none

def asU64 : Json → Option Int
  | .int i => if 0 ≤ i then some i else none
  | _ => none

def asF64 : Json → Option F64
  | .int i => some (.ofInt _ i)
  | .float x => some x
  | _ => none

def asStr : Json → Option String
  | .string s => some s
  | _ => none

def asElements : Json → Option (List Json)
  | .array items => some items
  | _ => none

def asObject : Json → Option (List (String × Json))
  | .object entries => some entries
  | _ => none

def kind : Json → String
  | .null => "null"
  | .bool _ => "Boolean"
  | .int _ | .float _ => "number"
  | .string _ => "string"
  | .array _ => "array"
  | .object _ => "object"

end Json

namespace OpenLustre.Simulator

open OpenLustre.Ir

/-! ## Reading -/

def typeName : Ty → String
  | .bool => "bool"
  | .int8 => "int8"
  | .int16 => "int16"
  | .int32 => "int32"
  | .int64 => "int64"
  | .uint8 => "uint8"
  | .uint16 => "uint16"
  | .uint32 => "uint32"
  | .uint64 => "uint64"
  | .float32 => "float32"
  | .float64 => "float64"
  | .char => "char"
  | .array elem len => typeName elem ++ "[" ++ toString len ++ "]"
  | .named name => name

def expected {α : Type} (path : String) (ty : Ty) (detail : String) : Except String α :=
  .error ("input `" ++ path ++ "`: expected " ++ typeName ty ++ "; " ++ detail)

def depthExceeded {α : Type} (path : String) : Except String α :=
  .error ("input `" ++ path ++
    "`: type nesting exceeds 64; recursive or deeper input types are unsupported")

/-- The type nesting a value may have: 64 levels below the first. -/
def maxRoom : Nat := 65

/-- The integers a type accepts; of `uint64` those that fit an `i64`. -/
def intRange : Ty → Option (Int × Int)
  | .int8 => some (-128, 127)
  | .int16 => some (-32768, 32767)
  | .int32 => some (-2147483648, 2147483647)
  | .int64 => some (minI64, maxI64)
  | .uint8 => some (0, 255)
  | .uint16 => some (0, 65535)
  | .uint32 => some (0, 4294967295)
  | .uint64 => some (0, maxI64)
  | _ => none

/-- An integer checked against the declared width. -/
def checkedInt (v : Int) (ty : Ty) (path : String) : Except String Value :=
  match intRange ty with
  | some (lo, hi) =>
    if v < lo ∨ v > hi then
      expected path ty (toString v ++ " is outside the declared range; enter an integer from " ++
        toString lo ++ " to " ++ toString hi)
    else .ok (.int v)
  | none => .ok (.int v)

def parseI64 (raw : List Char) : Option Int := (Text.readInt raw).filter inI64

def parseU8 (raw : List Char) : Option Nat := (Text.readUnsigned raw).filter (· ≤ 255)

/-- The scanner of `splitItems`: the open brackets and quotes, the item so far, backwards,
and the items before it. -/
def scanItems (path : String) : Brackets.Level → List Char → List (List Char) → List Char →
    Except String (List (List Char))
  | s, item, parts, [] =>
    if s.quoted || !s.stack.isEmpty then
      .error ("input `" ++ path ++ "`: unclosed quote or struct/array bracket")
    else .ok (parts ++ [Text.trimChars item.reverse])
  | s, item, parts, c :: rest =>
    if !s.quoted && s.stack.isEmpty && c = ';' then
      scanItems path s [] (parts ++ [Text.trimChars item.reverse]) rest
    else
      match Brackets.step (fun _ _ => false) s c with
      | some s => scanItems path s (c :: item) parts rest
      | none => .error ("input `" ++ path ++ "`: mismatched struct/array brackets")

/-- Split at the semicolons outside of brackets and quotes. -/
def splitItems (inner : List Char) (path : String) : Except String (List (List Char)) :=
  if Text.trimChars inner = [] then .ok []
  else scanItems path (.outside []) [] [] inner

/-- The text between two characters. -/
def stripEnds (first last : Char) (raw : List Char) : Option (List Char) :=
  if raw.head? = some first ∧ raw.tail.getLast? = some last then some raw.tail.dropLast else none

/-- Split at the first equals sign. -/
def splitOnce (item : List Char) : Option (List Char × List Char) :=
  if '=' ∈ item then some (item.takeWhile (· ≠ '='), (item.dropWhile (· ≠ '=')).tail) else none

def findNamed (p : Project) (name : String) (path : String) : Except String TypeBody :=
  match findType p name with
  | some body => .ok body
  | none => .error ("input `" ++ path ++ "`: named type `" ++ name ++ "` is not defined")

def unexpectedField {α : Type} (path name key : String) : Except String α :=
  .error ("input `" ++ path ++ "." ++ key ++ "`: unexpected field in struct `" ++ name ++ "`")

def chooseVariant {α : Type} (path : String) (ty : Ty) (e : EnumDef) : Except String α :=
  expected path ty ("choose an enum variant: " ++ ", ".intercalate e.variants)

def fieldPath (path : String) (f : RecordField) : String := path ++ "." ++ f.name

def elementPath (path : String) (i : Nat) : String := path ++ "[" ++ toString i ++ "]"

/-- An integer, if there is one, checked against the declared width. -/
def readInteger (i : Option Int) (detail : String) (ty : Ty) (path : String) :
    Except String Value :=
  match i with
  | none => expected path ty detail
  | some v => checkedInt v ty path

/-- The elements of an array, each read by `sub`. -/
def readElements {α : Type} (sub : α → String → Except String Value) (ty : Ty) (len : Nat)
    (path : String) (items : List α) : Except String Value :=
  if items.length ≠ len then
    expected path ty ("array requires " ++ toString len ++ " elements, got " ++
      toString items.length)
  else (items.zipIdx.mapM fun (x : α × Nat) => sub x.1 (elementPath path x.2)).map .array

/-- A declared field of a struct, read by `sub` from its entry. -/
def readField {α : Type} (sub : α → Ty → String → Except String Value) (name path : String)
    (entries : List (String × α)) (f : RecordField) : Except String Value :=
  match entries.lookup f.name with
  | none =>
    .error ("input `" ++ fieldPath path f ++ "`: missing required field of type " ++
      typeName f.ty ++ " in struct `" ++ name ++ "`")
  | some x => sub x f.ty (fieldPath path f)

def readFields {α : Type} (sub : α → Ty → String → Except String Value) (fields : List RecordField)
    (name path : String) (entries : List (String × α)) : Except String Value :=
  (collectFields (readField sub name path entries) fields).map .record

/-- The name of a variant, in quotes as JSON or bare. -/
def variantName (io : InputIo) (raw : List Char) : String :=
  match io.fromJson raw with
  | .ok (.string s) => s
  | _ => String.ofList raw

section Parse

variable (io : InputIo) (p : Project)

/-- A value of a type from JSON; `room` levels of the type may be entered. -/
def parseJson : Nat → Json → Ty → String → Except String Value
  | 0, _, _, path => depthExceeded path
  | room + 1, value, ty, path =>
    let wrong : Except String Value :=
      expected path ty ("got JSON " ++ value.kind ++ "; use the declared field type")
    match ty with
    | .bool => value.asBool.elim wrong fun b => .ok (.bool b)
    | .float32 =>
      ((value.asF64.map fun x => x.convert Ieee.Format.binary32).filter (·.isFinite)).elim
        (expected path ty ("JSON value must be a finite float32 number; strings, NaN, " ++
          "infinity and overflow are unsupported inputs")) fun x => .ok (.float32 x)
    | .float64 =>
      (value.asF64.filter (·.isFinite)).elim
        (expected path ty ("JSON value must be a finite float64 number; strings, NaN and " ++
          "infinity are unsupported inputs")) fun x => .ok (.float x)
    | .char =>
      (value.asU64.filter fun v => decide (v ≤ 255)).elim
        (expected path ty "JSON value must be a character byte from 0 to 255")
        fun v => .ok (.int v)
    | .array elem len =>
      match value.asElements with
      | none => wrong
      | some values =>
        readElements (fun value path => parseJson room value elem path) ty len path values
    | .named name => do
      match ← findNamed p name path with
      | .aliasOf _ target => parseJson room value target path
      | .enum e =>
        match value.asStr with
        | none => wrong
        | some variant =>
          if e.variants.contains variant then .ok (.enum variant) else chooseVariant path ty e
      | .record _ fields =>
        match value.asObject with
        | none =>
          expected path ty ("struct requires a JSON object with named fields; got JSON " ++
            value.kind)
        | some entries =>
          match entries.find? fun e => !fields.any fun f => f.name = e.1 with
          | some e => unexpectedField path name e.1
          | none =>
            readFields (fun value ty path => parseJson room value ty path) fields name path entries
    | ty =>
      readInteger value.asI64 ("JSON value must be an integer representable as signed 64-bit; " ++
        "strings, fractions and larger uint64 inputs are unsupported") ty path

/-- The fields of a struct in brackets: each at most once, and declared. -/
def structEntries (fields : List RecordField) (path name : String) (ty : Ty)
    (entries : List (String × List Char)) (item : List Char) :
    Except String (List (String × List Char)) :=
  match splitOnce item with
  | none => expected path ty "each struct field needs field=value"
  | some (key, value) =>
    let key := String.ofList (Text.trimChars key)
    if !fields.any fun f => f.name = key then unexpectedField path name key
    else if (entries.lookup key).isSome then
      .error ("input `" ++ path ++ "." ++ key ++ "`: duplicate field in struct `" ++ name ++ "`")
    else .ok (entries ++ [(key, Text.trimChars value)])

/-- A value of a type from a text; `room` levels of the type may be entered. -/
def parseText : Nat → List Char → Ty → String → Except String Value
  | 0, _, _, path => depthExceeded path
  | room + 1, raw, ty, path =>
    let raw := Text.trimChars raw
    match ty with
    | .bool =>
      let word := String.ofList (raw.map Char.toLower)
      if word = "true" ∨ word = "1" ∨ word = "t" then .ok (.bool true)
      else if word = "false" ∨ word = "0" ∨ word = "f" then .ok (.bool false)
      else expected path ty "enter true or false"
    | .float32 =>
      ((io.parseF32 raw).filter (·.isFinite)).elim
        (expected path ty ("enter a finite float32 number; NaN, infinity and overflow are " ++
          "unsupported inputs")) fun x => .ok (.float32 x)
    | .float64 =>
      ((io.parseF64 raw).filter (·.isFinite)).elim
        (expected path ty ("enter a finite float64 number; NaN, infinity and overflow are " ++
          "unsupported inputs")) fun x => .ok (.float x)
    | .char =>
      (parseU8 raw).elim
        (expected path ty "enter a character byte as an integer from 0 to 255")
        fun v => .ok (.int v)
    | .array elem len =>
      match io.fromJson raw with
      | .ok value => parseJson p (room + 1) value ty path
      | .error _ =>
        match stripEnds '[' ']' raw with
        | none => expected path ty "enter an array [value;...] or a JSON array"
        | some inner => do
          let parts ← splitItems inner path
          readElements (fun raw path => parseText room raw elem path) ty len path parts
    | .named name => do
      match ← findNamed p name path with
      | .aliasOf _ target => parseText room raw target path
      | .enum e =>
        let name := variantName io raw
        if e.variants.contains name then .ok (.enum name) else chooseVariant path ty e
      | .record _ fields =>
        match io.fromJson raw with
        | .ok value => parseJson p (room + 1) value ty path
        | .error error =>
          match stripEnds '{' '}' raw with
          | none =>
            expected path ty ("enter a struct with named fields, as a JSON object or " ++
              "\x7bfield=value;...\x7d")
          | some inner =>
            if (inner.dropWhile Text.isWhitespace).head? = some '"' then
              expected path ty ("invalid struct JSON: " ++ error)
            else do
              let items ← splitItems inner path
              let entries ← items.foldlM (structEntries fields path name ty) []
              readFields (fun raw ty path => parseText room raw ty path) fields name path entries
    | ty =>
      readInteger (parseI64 raw) ("enter an integer representable as signed 64-bit; larger " ++
        "uint64 inputs are unsupported") ty path

/-- A typed input. -/
def parse (raw : List Char) (ty : Ty) (path : String) : Except String Value :=
  parseText io p maxRoom raw ty path

end Parse

end OpenLustre.Simulator
