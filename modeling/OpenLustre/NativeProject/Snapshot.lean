import OpenLustre.NativeProject.Files

/-! The bytes whose hash is the snapshot of a project. -/

namespace OpenLustre.NativeProject

open OpenLustre.Ir

def hexDigit (n : UInt8) : UInt8 := if n < 10 then 48 + n else 87 + n

/-- A byte of a string in JSON text. -/
def escapeByte (b : UInt8) : List UInt8 :=
  if b = 34 then [92, 34]
  else if b = 92 then [92, 92]
  else if b = 8 then [92, 98]
  else if b = 9 then [92, 116]
  else if b = 10 then [92, 110]
  else if b = 12 then [92, 102]
  else if b = 13 then [92, 114]
  else if b < 32 then [92, 117, 48, 48, hexDigit (b / 16), hexDigit (b % 16)]
  else [b]

def jsonString (s : String) : List UInt8 := 34 :: ((utf8 s).flatMap escapeByte ++ [34])

def jsonArray {α : Type} (json : α → List UInt8) (items : List α) : List UInt8 :=
  91 :: (List.intercalate [44] (items.map json) ++ [93])

def jsonDependency (dep : NativeDependency) : List UInt8 :=
  utf8 "\x7b\"alias\":" ++ jsonString dep.aliasName ++
    utf8 ",\"project\":" ++ jsonString dep.project ++
    utf8 ",\"project_id\":" ++ jsonString dep.projectId ++
    utf8 ",\"snapshot_sha256\":" ++ jsonString dep.snapshotSha256 ++ utf8 "\x7d"

def jsonExports (exports : NativeExports) : List UInt8 :=
  utf8 "\x7b\"nodes\":" ++ jsonArray jsonString exports.nodes ++
    utf8 ",\"types\":" ++ jsonArray jsonString exports.types ++
    utf8 ",\"constants\":" ++ jsonArray jsonString exports.constants ++
    utf8 ",\"contracts\":" ++ jsonArray jsonString exports.contracts ++ utf8 "\x7d"

/-- The canonical JSON of a manifest. -/
def jsonManifest (manifest : NativeManifest) : List UInt8 :=
  utf8 "\x7b\"format\":" ++ jsonString manifest.format ++
    utf8 ",\"project_id\":" ++ jsonString manifest.projectId ++
    utf8 ",\"model\":" ++ jsonString manifest.model ++
    utf8 ",\"entrypoint\":" ++ jsonString manifest.entrypoint ++
    utf8 ",\"dependencies\":" ++ jsonArray jsonDependency manifest.dependencies ++
    utf8 ",\"exports\":" ++ jsonExports manifest.exports ++ utf8 "\x7d"

/-- The low bytes of a number, the last one at the end. -/
def beBytes : Nat → Nat → List UInt8
  | 0, _ => []
  | width + 1, n => beBytes width (n / 256) ++ [UInt8.ofNat n]

def frame (data : List UInt8) : List UInt8 := beBytes 8 data.length ++ data

def fileFrame (file : String × List UInt8) : List UInt8 := frame (utf8 file.1) ++ frame file.2

def snapshotDomain : List UInt8 := utf8 "OpenLustre native project snapshot v1\x00"

def snapshotBytes (manifest : NativeManifest) (files : List (String × List UInt8)) : List UInt8 :=
  snapshotDomain ++ frame (jsonManifest manifest) ++ files.flatMap fileFrame

/-- The buffer that is hashed holds no more bytes than the system can address. -/
def snapshot (L : Loader) (manifest : NativeManifest) (files : List (String × List UInt8)) :
    Except LoadError String :=
  let bytes := snapshotBytes manifest files
  if bytes.length < 2 ^ 63 then .ok (L.digest bytes) else .error .capacity

def unhexDigit (b : UInt8) : UInt8 := if b < 58 then b - 48 else b - 87

/-- The byte an escape at the front of a text stands for. -/
def unescape : List UInt8 → Option (UInt8 × List UInt8)
  | 92 :: 117 :: _ :: _ :: high :: low :: rest => some (unhexDigit high * 16 + unhexDigit low, rest)
  | 92 :: 98 :: rest => some (8, rest)
  | 92 :: 116 :: rest => some (9, rest)
  | 92 :: 110 :: rest => some (10, rest)
  | 92 :: 102 :: rest => some (12, rest)
  | 92 :: 114 :: rest => some (13, rest)
  | 92 :: b :: rest => some (b, rest)
  | b :: rest => some (b, rest)
  | [] => none

theorem unhex_hexDigit : ∀ n < 32, unhexDigit (hexDigit (UInt8.ofNat n / 16)) * 16 +
    unhexDigit (hexDigit (UInt8.ofNat n % 16)) = UInt8.ofNat n := by
  decide

theorem unescape_escapeByte (b : UInt8) (rest : List UInt8) :
    unescape (escapeByte b ++ rest) = some (b, rest) := by
  unfold escapeByte
  split_ifs with h34 h92 h8 h9 h10 h12 h13 h32
  · rw [h34]; rfl
  · rw [h92]; rfl
  · rw [h8]; rfl
  · rw [h9]; rfl
  · rw [h10]; rfl
  · rw [h12]; rfl
  · rw [h13]; rfl
  · have hb := unhex_hexDigit b.toNat (by simpa [UInt8.lt_iff_toNat_lt] using h32)
    rw [UInt8.ofNat_toNat] at hb
    simp [unescape, hb]
  · simp [unescape, h92]

theorem prefixFree_escapeByte : PrefixFree Set.univ escapeByte :=
  .of_read unescape unescape_escapeByte

theorem escapeByte_head (b : UInt8) : (escapeByte b).head? ≠ some 34 := by
  unfold escapeByte
  split_ifs with h34 <;> simp [h34]

theorem escapeByte_ne_nil (b : UInt8) : escapeByte b ≠ [] := by
  unfold escapeByte
  split_ifs <;> exact List.cons_ne_nil _ _

theorem prefixFree_jsonString : PrefixFree Set.univ jsonString := by
  intro a _ b _ r s h
  have hbytes := (prefixFree_escapeByte.terminated escapeByte_ne_nil escapeByte_head).comap
    (fun _ _ => utf8_injective)
  exact hbytes a trivial b trivial r s (List.cons.inj h).2

theorem prefixFree_jsonArray {α : Type} {json : α → List UInt8} (h : PrefixFree Set.univ json)
    (hne : ∀ a, json a ≠ []) (hhead : ∀ a, (json a).head? ≠ some 93) :
    PrefixFree Set.univ (jsonArray json) := by
  intro a _ b _ r s heq
  exact h.separated hne hhead (by decide) a trivial b trivial r s (List.cons.inj heq).2

theorem prefixFree_jsonStrings : PrefixFree Set.univ (jsonArray jsonString) :=
  prefixFree_jsonArray prefixFree_jsonString (fun _ => List.cons_ne_nil _ _) fun _ => by
    simp [jsonString]

theorem prefixFree_jsonDependency : PrefixFree Set.univ jsonDependency := by
  intro a _ b _ r s h
  obtain ⟨aliasName, project, projectId, pin⟩ := a
  obtain ⟨aliasName', project', projectId', pin'⟩ := b
  simp only [jsonDependency, List.append_assoc] at h
  obtain ⟨rfl, h₁⟩ := prefixFree_jsonString.after h
  obtain ⟨rfl, h₂⟩ := prefixFree_jsonString.after h₁
  obtain ⟨rfl, h₃⟩ := prefixFree_jsonString.after h₂
  obtain ⟨rfl, h₄⟩ := prefixFree_jsonString.after h₃
  exact ⟨rfl, List.append_cancel_left h₄⟩

theorem prefixFree_jsonExports : PrefixFree Set.univ jsonExports := by
  intro a _ b _ r s h
  obtain ⟨nodes, types, constants, contracts⟩ := a
  obtain ⟨nodes', types', constants', contracts'⟩ := b
  simp only [jsonExports, List.append_assoc] at h
  obtain ⟨rfl, h₁⟩ := prefixFree_jsonStrings.after h
  obtain ⟨rfl, h₂⟩ := prefixFree_jsonStrings.after h₁
  obtain ⟨rfl, h₃⟩ := prefixFree_jsonStrings.after h₂
  obtain ⟨rfl, h₄⟩ := prefixFree_jsonStrings.after h₃
  exact ⟨rfl, List.append_cancel_left h₄⟩

theorem jsonDependency_head (dep : NativeDependency) : (jsonDependency dep).head? = some 123 := by
  simp only [jsonDependency, List.append_assoc]
  rfl

theorem prefixFree_jsonManifest : PrefixFree Set.univ jsonManifest := by
  have hdependencies : PrefixFree Set.univ (jsonArray jsonDependency) :=
    prefixFree_jsonArray prefixFree_jsonDependency
      (fun dep h => by simpa [h] using jsonDependency_head dep)
      (fun dep => by rw [jsonDependency_head]; decide)
  intro a _ b _ r s h
  obtain ⟨format, projectId, model, entrypoint, dependencies, exports⟩ := a
  obtain ⟨format', projectId', model', entrypoint', dependencies', exports'⟩ := b
  simp only [jsonManifest, List.append_assoc] at h
  obtain ⟨rfl, h₁⟩ := prefixFree_jsonString.after h
  obtain ⟨rfl, h₂⟩ := prefixFree_jsonString.after h₁
  obtain ⟨rfl, h₃⟩ := prefixFree_jsonString.after h₂
  obtain ⟨rfl, h₄⟩ := prefixFree_jsonString.after h₃
  obtain ⟨rfl, h₅⟩ := hdependencies.after h₄
  obtain ⟨rfl, h₆⟩ := prefixFree_jsonExports.after h₅
  exact ⟨rfl, List.append_cancel_left h₆⟩

theorem length_beBytes (width n : Nat) : (beBytes width n).length = width := by
  induction width generalizing n with
  | zero => rfl
  | succ width ih => simp [beBytes, ih]

theorem beBytes_injOn (width : Nat) : Set.InjOn (beBytes width) {n | n < 256 ^ width} := by
  induction width with
  | zero =>
    intro a ha b hb _
    simp only [Set.mem_ofPred_eq, pow_zero, Nat.lt_one_iff] at ha hb
    rw [ha, hb]
  | succ width ih =>
    intro a ha b hb h
    simp only [Set.mem_ofPred_eq, pow_succ] at ha hb
    obtain ⟨hhigh, hlow⟩ := List.append_inj h (by rw [length_beBytes, length_beBytes])
    have hdiv : a / 256 = b / 256 := ih (Nat.div_lt_of_lt_mul (by rwa [mul_comm]))
      (Nat.div_lt_of_lt_mul (by rwa [mul_comm])) hhigh
    have hmod : a % 256 = b % 256 := by
      simpa [UInt8.toNat_ofNat'] using congrArg UInt8.toNat (List.cons.inj hlow).1
    rw [← Nat.div_add_mod a 256, ← Nat.div_add_mod b 256, hdiv, hmod]

theorem prefixFree_frame : PrefixFree {data : List UInt8 | data.length < 256 ^ 8} frame :=
  (PrefixFree.of_length (beBytes_injOn 8) fun a b => by
    rw [length_beBytes, length_beBytes]).framed

theorem prefixFree_fileFrame :
    PrefixFree {file | (utf8 file.1).length < 256 ^ 8 ∧ file.2.length < 256 ^ 8} fileFrame := by
  rintro ⟨a, bytes⟩ ⟨ha, hbytes⟩ ⟨b, bytes'⟩ ⟨hb, hbytes'⟩ r s h
  simp only [fileFrame, List.append_assoc] at h
  obtain ⟨hpath, hrest⟩ := prefixFree_frame _ ha _ hb _ _ h
  obtain ⟨hsame, hrest⟩ := prefixFree_frame _ hbytes _ hbytes' _ _ hrest
  exact ⟨Prod.ext (utf8_injective hpath) hsame, hrest⟩

theorem length_lt_of_snapshotBytes {manifest : NativeManifest} {files : List (String × List UInt8)}
    (h : (snapshotBytes manifest files).length < 2 ^ 63) :
    (jsonManifest manifest).length < 256 ^ 8 ∧
      ∀ file ∈ files, (utf8 file.1).length < 256 ^ 8 ∧ file.2.length < 256 ^ 8 := by
  have hpow : 2 ^ 63 ≤ 256 ^ 8 := by decide
  simp only [snapshotBytes, frame, List.length_append] at h
  constructor
  · omega
  · intro file hfile
    have hle : (fileFrame file).length ≤ (files.flatMap fileFrame).length :=
      (List.sublist_flatten_of_mem (List.mem_map_of_mem hfile)).length_le
    simp only [fileFrame, frame, List.length_append] at hle
    constructor <;> omega

/-- The bytes that are hashed tell the manifest and the files. -/
theorem snapshotBytes_injective {manifest manifest' : NativeManifest}
    {files files' : List (String × List UInt8)}
    (hlen : (snapshotBytes manifest files).length < 2 ^ 63)
    (h : snapshotBytes manifest files = snapshotBytes manifest' files') :
    manifest = manifest' ∧ files = files' := by
  have hlen' : (snapshotBytes manifest' files').length < 2 ^ 63 := by rwa [← h]
  obtain ⟨hjson, hfiles⟩ := length_lt_of_snapshotBytes hlen
  obtain ⟨hjson', hfiles'⟩ := length_lt_of_snapshotBytes hlen'
  simp only [snapshotBytes, List.append_assoc, List.append_cancel_left_eq] at h
  obtain ⟨hmanifest, h⟩ := prefixFree_frame _ hjson _ hjson' _ _ h
  refine ⟨prefixFree_jsonManifest.injOn trivial trivial hmanifest, ?_⟩
  apply prefixFree_fileFrame.flatMap_injOn ?_ hfiles hfiles' h
  intro file hnil
  simpa [fileFrame, frame, length_beBytes] using congrArg List.length hnil

end OpenLustre.NativeProject
