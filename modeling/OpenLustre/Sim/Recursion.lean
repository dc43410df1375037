import OpenLustre.CliteEmit.NodeOrder
import OpenLustre.NativeProject.Ordering
import OpenLustre.Sim.Faults
import OpenLustre.Sim.Refusal
import OpenLustre.Typecheck.Check

/-! The recursions over declared types and over calls.  They keep no record of where they have
been, so they end when the declarations they follow do not lead back. -/

namespace OpenLustre.Simulator

open OpenLustre.Ir OpenLustre.NativeProject OpenLustre.ContractIr
open Dependency (Cyclic)

/-- The recursion did not run out of stack. -/
def Fault.InStack (f : Fault) : Prop := f ≠ .panic .stackOverflow

/-- The declaration of type `a` refers to type `b`. -/
def TypeRefers (p : Project) (a b : String) : Prop :=
  ∃ body, findType p a = some body ∧ b ∈ typeDependencies ⟨body⟩

/-- The names in a type of which a value holds at least one cell. -/
def cellNames : Ty → List String
  | .named name => [name]
  | .array elem len => if len = 0 then [] else cellNames elem
  | _ => []

def heldNames : TypeBody → List String
  | .record _ fields => fields.flatMap fun f => cellNames f.ty
  | .aliasOf _ target => cellNames target
  | .enum _ => []

/-- A value of type `a` holds one of type `b`. -/
def TypeHolds (p : Project) (a b : String) : Prop :=
  ∃ body, findType p a = some body ∧ b ∈ heldNames body

section

variable {p : Project}

theorem inStack_of_isPlain (f : Fault) (h : f.IsPlain) : f.InStack := by
  rintro rfl
  exact h

theorem inStack_error (e : EvalError) : (Fault.error e).InStack := nofun

/-- Finitely many bounds are bounded by one. -/
theorem exists_bound {α : Type} {Q : α → Nat → Prop} (hmono : ∀ x k k', k ≤ k' → Q x k → Q x k')
    {xs : List α} (h : ∀ x ∈ xs, ∃ k, Q x k) : ∃ k, ∀ x ∈ xs, Q x k := by
  induction xs with
  | nil => exact ⟨0, nofun⟩
  | cons x xs ih =>
    obtain ⟨hx, hxs⟩ := List.forall_mem_cons.mp h
    obtain ⟨k, hk⟩ := hx
    obtain ⟨k', hk'⟩ := ih hxs
    refine ⟨max k k', List.forall_mem_cons.mpr ⟨hmono x _ _ (le_max_left k k') hk, ?_⟩⟩
    exact fun y hy => hmono y _ _ (le_max_right k k') (hk' y hy)

theorem findType_mem {a : String} {body : TypeBody} (h : findType p a = some body) :
    ∃ t ∈ p.allTypes, t.name = a := by
  obtain ⟨t, ht, -⟩ := Option.map_eq_some_iff.mp h
  exact ⟨t, List.mem_of_find?_eq_some ht, by simpa using List.find?_some ht⟩

theorem findType_isSome {t : TypeDef} (ht : t ∈ p.allTypes) :
    ∃ body, findType p t.name = some body := by
  have hfind : (p.allTypes.find? (·.name = t.name)).isSome :=
    List.find?_isSome.mpr ⟨t, ht, by simp⟩
  obtain ⟨t', ht'⟩ := Option.isSome_iff_exists.mp hfind
  exact ⟨t'.body, by simp [findType, ht']⟩

theorem finite_declared (refs : TypeBody → List String) :
    {a | ∃ b, ∃ body, findType p a = some body ∧ b ∈ refs body}.Finite := by
  refine (p.allTypes.map (·.name)).finite_toSet.subset ?_
  rintro a ⟨-, body, hbody, -⟩
  obtain ⟨t, ht, rfl⟩ := findType_mem hbody
  exact List.mem_map_of_mem ht

theorem cellNames_subset (ty : Ty) : cellNames ty ⊆ namedDependencies ty := by
  induction ty with
  | array elem len ih =>
    simp only [cellNames, namedDependencies]
    split
    · exact List.nil_subset _
    · exact ih
  | named name => exact List.Subset.refl _
  | _ => exact List.nil_subset _

theorem TypeHolds.refers {a b : String} (h : TypeHolds p a b) : TypeRefers p a b := by
  obtain ⟨body, hbody, hb⟩ := h
  refine ⟨body, hbody, ?_⟩
  cases body with
  | enum => exact hb
  | record name fields =>
    obtain ⟨f, hf, hb⟩ := List.mem_flatMap.mp hb
    exact List.mem_flatMap.mpr ⟨f, hf, cellNames_subset _ hb⟩
  | aliasOf name target => exact cellNames_subset _ hb

/-! ## Default values -/

/-- Default values of the type fit in a stack of `k`. -/
def DefaultFits (p : Project) (ty : Ty) (k : Nat) : Prop :=
  ∀ k', k ≤ k' → (defaultValue p k' ty).Fails Fault.InStack

theorem DefaultFits.mono {ty : Ty} {k k' : Nat} (hk : k ≤ k') (h : DefaultFits p ty k) :
    DefaultFits p ty k' :=
  fun k'' hk' => h k'' (hk.trans hk')

theorem exists_defaultFits_of_names {ty : Ty}
    (h : ∀ b ∈ cellNames ty, ∃ k, DefaultFits p (.named b) k) : ∃ k, DefaultFits p ty k := by
  induction ty with
  | named name => exact h name List.mem_cons_self
  | array elem len ih =>
    by_cases hlen : len = 0
    · refine ⟨1, fun k' hk' => ?_⟩
      obtain ⟨k', rfl⟩ := Nat.exists_eq_add_of_le' hk'
      subst hlen
      exact .ok _
    · rw [cellNames, if_neg hlen] at h
      obtain ⟨k, hk⟩ := ih h
      refine ⟨k + 1, fun k' hk' => ?_⟩
      obtain ⟨k', rfl⟩ := Nat.exists_eq_add_of_le' (Nat.le_of_add_left_le hk')
      refine (Except.Fails.mapM fun ty hty => ?_).map _
      rw [List.eq_of_mem_replicate hty]
      exact hk k' (by omega)
  | _ =>
    refine ⟨1, fun k' hk' => ?_⟩
    obtain ⟨k', rfl⟩ := Nat.exists_eq_add_of_le' hk'
    exact .ok _

/-- One more level of the recursion. -/
theorem defaultFits_succ {ty : Ty} {k : Nat}
    (h : ∀ k', k ≤ k' → (defaultValue p (k' + 1) ty).Fails Fault.InStack) :
    DefaultFits p ty (k + 1) := by
  intro k' hk'
  obtain ⟨k', rfl⟩ := Nat.exists_eq_add_of_le' (Nat.le_of_add_left_le hk')
  exact h k' (by omega)

theorem exists_defaultFits (acyclic : ¬ Cyclic (TypeHolds p)) (ty : Ty) :
    ∃ k, DefaultFits p ty k := by
  have hwf := Dependency.wellFounded_of_acyclic (finite_declared heldNames) acyclic
  refine exists_defaultFits_of_names fun a ha => ?_
  clear ha
  induction a using hwf.induction with
  | _ a ih =>
    cases hbody : findType p a with
    | none => exact ⟨1, defaultFits_succ fun k' _ => by simp only [defaultValue, hbody]; exact .ok _⟩
    | some body =>
      have ih {b : String} (hb : b ∈ heldNames body) : ∃ k, DefaultFits p (.named b) k :=
        ih b ⟨body, hbody, hb⟩
      cases body with
      | enum e => exact ⟨1, defaultFits_succ fun k' _ => by simp only [defaultValue, hbody]; exact .ok _⟩
      | aliasOf name target =>
        obtain ⟨k, hk⟩ := exists_defaultFits_of_names fun b hb => ih hb
        exact ⟨k + 1, defaultFits_succ fun k' hk' => by
          simp only [defaultValue, hbody]
          exact hk k' hk'⟩
      | record name fields =>
        have hfields : ∀ f ∈ fields, ∃ k, DefaultFits p f.ty k := fun f hf =>
          exists_defaultFits_of_names fun b hb => ih (List.mem_flatMap.mpr ⟨f, hf, hb⟩)
        obtain ⟨k, hk⟩ := exists_bound (Q := fun f : RecordField => DefaultFits p f.ty)
          (fun _ _ _ hk h => h.mono hk) hfields
        refine ⟨k + 1, defaultFits_succ fun k' hk' => ?_⟩
        simp only [defaultValue, hbody]
        exact (Except.Fails.foldlM (fun m f hf => (hk f hf k' hk').map _) []).map _

/-- A default value that is built holds default values that are built, one level down. -/
theorem defaultValue_cell {k : Nat} {ty : Ty} {v : Value} (h : defaultValue p k ty = .ok v)
    {b : String} (hb : b ∈ cellNames ty) : ∃ k' ≤ k, ∃ v, defaultValue p k' (.named b) = .ok v := by
  induction k generalizing ty v with
  | zero => cases h
  | succ k ih =>
    cases ty with
    | named name =>
      obtain rfl := List.mem_singleton.mp hb
      exact ⟨k + 1, le_rfl, v, h⟩
    | array elem len =>
      rw [cellNames] at hb
      split at hb
      case isTrue => cases hb
      case isFalse hlen =>
        obtain ⟨vs, hvs, -⟩ := Except.map_eq_ok.mp h
        obtain ⟨hlength, hmem⟩ := Except.mapM_eq_ok hvs
        have hne : vs ≠ [] := by
          rintro rfl
          rw [List.length_replicate] at hlength
          exact hlen hlength.symm
        obtain ⟨x, hx⟩ := List.exists_mem_of_ne_nil vs hne
        obtain ⟨ty, hty, hxv⟩ := hmem x hx
        rw [List.eq_of_mem_replicate hty] at hxv
        obtain ⟨k', hk', hv⟩ := ih hxv hb
        exact ⟨k', Nat.le_succ_of_le hk', hv⟩
    | _ => cases hb

theorem foldlM_mem {α β : Type} {f : β → α → Except Fault β} {xs : List α} {b b' : β}
    (h : xs.foldlM f b = .ok b') {x : α} (hx : x ∈ xs) : ∃ c c', f c x = .ok c' := by
  induction xs generalizing b with
  | nil => cases hx
  | cons y xs ih =>
    rw [List.foldlM_cons] at h
    obtain ⟨c, hc, h⟩ := Except.bind_eq_ok.mp h
    rcases List.mem_cons.mp hx with rfl | hx
    · exact ⟨b, c, hc⟩
    · exact ih h hx

theorem defaultValue_holds {k : Nat} {a b : String} {v : Value}
    (h : defaultValue p k (.named a) = .ok v) (hab : TypeHolds p a b) :
    ∃ k' < k, ∃ v, defaultValue p k' (.named b) = .ok v := by
  obtain ⟨body, hbody, hb⟩ := hab
  cases k with
  | zero => cases h
  | succ k =>
    simp only [defaultValue, hbody] at h
    cases body with
    | enum e => cases hb
    | aliasOf name target =>
      obtain ⟨k', hk', hv⟩ := defaultValue_cell h hb
      exact ⟨k', Nat.lt_succ_of_le hk', hv⟩
    | record name fields =>
      obtain ⟨f, hf, hb⟩ := List.mem_flatMap.mp hb
      obtain ⟨r, hr, -⟩ := Except.map_eq_ok.mp h
      obtain ⟨c, c', hc⟩ := foldlM_mem hr hf
      obtain ⟨w, hw, -⟩ := Except.map_eq_ok.mp hc
      obtain ⟨k', hk', hv⟩ := defaultValue_cell hw hb
      exact ⟨k', Nat.lt_succ_of_le hk', hv⟩

/-- Every declared type has a default value exactly when no value holds one of its own type. -/
theorem defaultValues_iff : (∀ t ∈ p.allTypes, ∃ k v, defaultValue p k (.named t.name) = .ok v) ↔
    ¬ Cyclic (TypeHolds p) := by
  constructor
  · rintro h ⟨a, ha⟩
    have hdown {b c : String} (hbc : Relation.TransGen (TypeHolds p) b c) : ∀ {k v},
        defaultValue p k (.named b) = .ok v → ∃ k' < k, ∃ v, defaultValue p k' (.named c) = .ok v := by
      induction hbc with
      | single hbc => exact fun h => defaultValue_holds h hbc
      | tail _ hcd ih =>
        intro k v h
        obtain ⟨k', hk', v', h'⟩ := ih h
        obtain ⟨k'', hk'', hv⟩ := defaultValue_holds h' hcd
        exact ⟨k'', hk''.trans hk', hv⟩
    have hnone (k : Nat) : ∀ v, defaultValue p k (.named a) ≠ .ok v := by
      induction k using Nat.strong_induction_on with
      | _ k ih =>
        intro v hv
        obtain ⟨k', hk', v', hv'⟩ := hdown ha hv
        exact ih k' hk' v' hv'
    obtain ⟨b, ⟨body, hbody, -⟩, -⟩ := Relation.TransGen.head'_iff.mp ha
    obtain ⟨t, ht, rfl⟩ := findType_mem hbody
    obtain ⟨k, v, hv⟩ := h t ht
    exact hnone k v hv
  · intro acyclic t _
    obtain ⟨k, hk⟩ := exists_defaultFits acyclic (.named t.name)
    refine ⟨k, ?_⟩
    have hfails : (defaultValue p k (.named t.name)).Fails (fun f => f = .panic .stackOverflow) :=
      fails_defaultValue (P := fun f => f = .panic .stackOverflow) rfl _ _
    cases hv : defaultValue p k (.named t.name) with
    | ok v => exact ⟨v, rfl⟩
    | error e => exact absurd (hfails e hv) (hk k le_rfl e hv)

/-! ## Stored values -/

/-- Values are stored in a variable of the type within a stack of `k`. -/
def StoreFits (p : Project) (ty : Ty) (k : Nat) : Prop :=
  ∀ k', k ≤ k' → ∀ v, (fitTo p k' ty v).Fails Fault.InStack

theorem StoreFits.mono {ty : Ty} {k k' : Nat} (hk : k ≤ k') (h : StoreFits p ty k) :
    StoreFits p ty k' :=
  fun k'' hk' => h k'' (hk.trans hk')

theorem storeFits_succ {ty : Ty} {k : Nat}
    (h : ∀ k', k ≤ k' → ∀ v, (fitTo p (k' + 1) ty v).Fails Fault.InStack) :
    StoreFits p ty (k + 1) := by
  intro k' hk'
  obtain ⟨k', rfl⟩ := Nat.exists_eq_add_of_le' (Nat.le_of_add_left_le hk')
  exact h k' (by omega)

theorem exists_storeFits_of_names {ty : Ty}
    (h : ∀ b ∈ namedDependencies ty, ∃ k, StoreFits p (.named b) k) : ∃ k, StoreFits p ty k := by
  induction ty with
  | named name => exact h name List.mem_cons_self
  | array elem len ih =>
    obtain ⟨k, hk⟩ := ih h
    refine ⟨k + 1, storeFits_succ fun k' hk' v => ?_⟩
    cases v with
    | array xs => exact (Except.Fails.mapM fun x _ => hk k' hk' x).map _
    | _ => exact .ok _
  | _ => exact ⟨1, storeFits_succ fun k' _ v => by cases v <;> exact .ok _⟩

theorem exists_storeFits (acyclic : ¬ Cyclic (TypeRefers p)) (ty : Ty) : ∃ k, StoreFits p ty k := by
  have hwf := Dependency.wellFounded_of_acyclic
    (finite_declared fun body => typeDependencies ⟨body⟩) acyclic
  refine exists_storeFits_of_names fun a ha => ?_
  clear ha
  induction a using hwf.induction with
  | _ a ih =>
    cases hbody : findType p a with
    | none => exact ⟨1, storeFits_succ fun k' _ v => by simp only [fitTo, hbody]; exact .ok _⟩
    | some body =>
      have ih {b : String} (hb : b ∈ typeDependencies ⟨body⟩) : ∃ k, StoreFits p (.named b) k :=
        ih b ⟨body, hbody, hb⟩
      cases body with
      | enum e => exact ⟨1, storeFits_succ fun k' _ v => by simp only [fitTo, hbody]; exact .ok _⟩
      | aliasOf name target =>
        obtain ⟨k, hk⟩ := exists_storeFits_of_names fun b hb => ih hb
        exact ⟨k + 1, storeFits_succ fun k' hk' v => by
          simp only [fitTo, hbody]
          exact hk k' hk' v⟩
      | record name fields =>
        have hfields : ∀ f ∈ fields, ∃ k, StoreFits p f.ty k := fun f hf =>
          exists_storeFits_of_names fun b hb => ih (List.mem_flatMap.mpr ⟨f, hf, hb⟩)
        obtain ⟨k, hk⟩ := exists_bound (Q := fun f : RecordField => StoreFits p f.ty)
          (fun _ _ _ hk h => h.mono hk) hfields
        refine ⟨k + 1, storeFits_succ fun k' hk' v => ?_⟩
        simp only [fitTo, hbody]
        cases v with
        | record m =>
          refine (Except.Fails.foldlM (fun r f hf => ?_) m).map _
          split
          · exact (hk f hf k' hk' _).map _
          · exact .ok _
        | _ => exact .ok _

/-! ## Calls -/

/-- A body runs within a stack of `k`, with as much left for calls, whatever it starts from. -/
def BodyFits (p : Project) (n : NodeDef) (k : Nat) : Prop :=
  ∀ m : Machine, k ≤ m.stack → ∀ depth, k ≤ depth → ∀ consts,
    SoundBody m p Fault.InStack (callees m p depth) consts n

theorem BodyFits.mono {n : NodeDef} {k k' : Nat} (hk : k ≤ k') (h : BodyFits p n k) :
    BodyFits p n k' :=
  fun m hm depth hdepth => h m (hk.trans hm) depth (hk.trans hdepth)

theorem nodeCalls_iff {n c : NodeDef} : NodeCalls p n c ↔
    c ∈ (n.equations.flatMap (·.rhs.applied)).filterMap p.findNode := by
  simp only [NodeCalls, List.mem_filterMap, List.mem_flatMap]
  constructor
  · rintro ⟨eq, heq, f, hf, hc⟩
    exact ⟨f, ⟨eq, heq, hf⟩, hc⟩
  · rintro ⟨f, ⟨eq, heq, hf⟩, hc⟩
    exact ⟨eq, heq, f, hf, hc⟩

theorem exists_bodyFits_of_callees (htypes : ¬ Cyclic (TypeRefers p)) {n : NodeDef}
    (h : ∀ c, NodeCalls p n c → ∃ k, BodyFits p c k) : ∃ k, BodyFits p n k := by
  have hholds : ¬ Cyclic (TypeHolds p) := fun hc => htypes (hc.mono fun _ _ h => h.refers)
  obtain ⟨kd, hkd⟩ := exists_bound (Q := fun port : Port => DefaultFits p port.ty)
    (fun _ _ _ hk h => h.mono hk) fun port (_ : port ∈ n.declared) =>
      exists_defaultFits hholds port.ty
  obtain ⟨ks, hks⟩ := exists_bound (Q := fun port : Port => StoreFits p port.ty)
    (fun _ _ _ hk h => h.mono hk) fun port (_ : port ∈ n.declared) =>
      exists_storeFits htypes port.ty
  obtain ⟨kc, hkc⟩ := exists_bound (Q := BodyFits p) (fun _ _ _ hk h => h.mono hk)
    fun c hc => h c (nodeCalls_iff.mpr hc)
  refine ⟨max (max kd ks) (kc + 1), fun m hm depth hdepth consts => ⟨fun port hport => ?_, ?_, ?_, ?_⟩⟩
  · exact ⟨hkd port hport m.stack (by omega), hks port hport m.stack (by omega)⟩
  · exact fun eq heq x hx => .inr (.inr (.inr (inStack_error _)))
  · intro eq heq f args hx c hc _ env _ site vs hlen
    obtain ⟨depth, rfl⟩ := Nat.exists_eq_add_of_le' (show 1 ≤ depth by omega)
    have hcall : NodeCalls p n c := ⟨eq, heq, f, List.mem_filterMap.mpr ⟨_, hx, rfl⟩, hc⟩
    have hbody := hkc c (nodeCalls_iff.mp hcall) m (by omega) depth (by omega) env
    exact fails_stepInstance inStack_of_isPlain hbody hlen (fun _ _ h => h) site
  · intro eq heq kind f init arrays hx c hc _ env _ vs
    obtain ⟨depth, rfl⟩ := Nat.exists_eq_add_of_le' (show 1 ≤ depth by omega)
    have hcall : NodeCalls p n c := ⟨eq, heq, f, List.mem_filterMap.mpr ⟨_, hx, rfl⟩, hc⟩
    have hbody := hkc c (nodeCalls_iff.mp hcall) m (by omega) depth (by omega) env
    exact fails_callFunctionValues inStack_of_isPlain hbody vs fun _ _ h => h

/-- Every body runs within some stack, also that of a node the project does not hold. -/
theorem exists_bodyFits (htypes : ¬ Cyclic (TypeRefers p)) (hcalls : ¬ Cyclic (NodeCalls p))
    (n : NodeDef) : ∃ k, BodyFits p n k := by
  let r (n c : NodeDef) : Prop := n ∈ p.allNodes ∧ NodeCalls p n c
  have hfin : {n | ∃ c, r n c}.Finite :=
    p.allNodes.finite_toSet.subset fun n ⟨_, hn, _⟩ => hn
  have hwf := Dependency.wellFounded_of_acyclic hfin fun hc => hcalls (hc.mono fun _ _ h => h.2)
  have hnodes (c : NodeDef) (hc : c ∈ p.allNodes) : ∃ k, BodyFits p c k := by
    induction c using hwf.induction with
    | _ c ih =>
      refine exists_bodyFits_of_callees htypes fun d hd => ih d ⟨hc, hd⟩ ?_
      obtain ⟨eq, _, f, _, hf⟩ := hd
      exact Project.mem_of_findNode hf
  refine exists_bodyFits_of_callees htypes fun c hc => hnodes c ?_
  obtain ⟨eq, _, f, _, hf⟩ := hc
  exact Project.mem_of_findNode hf

/-! ## Simulations -/

/-- The constants as the locals of a node, as the checker types them. -/
def constantsNode (p : Project) : NodeDef where
  name := "<consts>"
  kind := .function
  inputs := []
  outputs := []
  locals := p.allConstants.map fun c => ⟨c.name, c.ty⟩
  equations := p.allConstants.map fun c => ⟨[c.name], c.value⟩

/-- The bodies that a simulation of the project, and the observers of its contracts, run. -/
def bodies (p : Project) : List NodeDef :=
  constantsNode p :: p.allNodes ++
    (p.packages.flatMap (·.contracts)).map fun c => (ContractDef.observer c).node

variable {m : Machine}

theorem inBody (n : NodeDef) (env : Env) : InBody p Fault.InStack n (fun _ => none) env where
  constants _ _ h := nomatch h
  declared _ _ := .inr (inStack_error _)

theorem fails_evalConstants_of_fits {k : Nat} (h : BodyFits p (constantsNode p) k)
    (hm : k ≤ m.stack) : (evalConstants m p).Fails Fault.InStack := by
  have hbody := h m hm m.stack hm fun _ => none
  refine Except.Fails.foldlM (fun env c hc => ?_) _
  have hsound : Sound p Fault.InStack (callees m p m.stack) ⟨env, .initial, []⟩ c.value := by
    have heq : (⟨[c.name], c.value⟩ : Equation) ∈ (constantsNode p).equations :=
      List.mem_map_of_mem hc
    exact hbody.sound (inBody _ env) heq .initial []
  have hstore := (hbody.types ⟨c.name, c.ty⟩ (by
    simp only [constantsNode, NodeDef.declared, List.nil_append]
    exact List.mem_map.mpr ⟨c, hc, rfl⟩)).2
  have heval := fails_eval (m := m) inStack_of_isPlain _ hsound ⟨c.name, 0, []⟩ Calls.empty
  unfold evalConstant
  split
  · exact (hstore _).map _
  · exact .error (inStack_error _)
  case h_3 f hf => exact .error (heval _ hf)

theorem fails_simNew {k : Nat} (h : BodyFits p (constantsNode p) k) (hm : k ≤ m.stack)
    (name : String) : (Sim.new m p name).Fails Fault.InStack := by
  unfold Sim.new
  split
  · exact .error (inStack_error _)
  · refine .bind (fails_evalConstants_of_fits h hm) fun consts _ => ?_
    refine .bind ?_ fun order _ => .ok _
    intro e he
    cases horder : evaluationOrder _ with
    | ok order =>
      rw [horder] at he
      cases he
    | error msg =>
      rw [horder] at he
      cases he
      exact inStack_error _

theorem mem_declared_of_out {n : NodeDef} {port : Port} (h : port ∈ n.outputs ++ n.locals) :
    port ∈ n.declared := by
  simp only [NodeDef.declared, List.append_assoc, List.mem_append] at h ⊢
  exact .inr h

theorem fails_stepEnv {k : Nat} {sim : Sim} (h : BodyFits p sim.node k) (hm : k ≤ m.stack)
    (inputs : Env) : (Sim.stepEnv m p inputs sim).1.Fails Fault.InStack := by
  have hbody := h m hm m.stack hm fun _ => none
  have hseed : (sim.seed m p inputs).Fails Fault.InStack := by
    refine Except.Fails.foldlM (fun env port hport => ?_) _
    unfold Sim.seedPort
    split
    · exact .ok _
    · split
      · exact .ok _
      · exact (hbody.types port (mem_declared_of_out hport)).1.map _
  unfold Sim.stepEnv
  split
  case h_1 e he => exact .error (hseed e he)
  case h_2 env henv =>
    have hsteps := fails_equationSteps inStack_of_isPlain hbody sim.clockInfo sim.state sim.eqOrder
      (inBody sim.node env) sim.callStates
    split
    case h_1 e _ he => exact .error (hsteps e (by rw [he]))
    case h_2 env' _ _ =>
      have htick := fails_tickChains inStack_of_isPlain env' sim.clockInfo.chains sim.state.clockTicks
      split
      case h_1 e _ he => exact .error (htick e (by rw [he]))
      case h_2 => exact .ok _

theorem fails_step {k : Nat} {sim : Sim} (h : BodyFits p sim.node k) (hm : k ≤ m.stack)
    (inputs : Env) : (Sim.step m p inputs sim).1.Fails Fault.InStack := by
  have hbody := h m hm m.stack hm fun _ => none
  have hstep := fails_stepEnv h hm inputs
  have hnode : (Sim.stepEnv m p inputs sim).2.node = sim.node := (Sim.stepEnv_sameNode inputs).node
  unfold Sim.step
  rw [Stateful.bind_apply]
  revert hstep hnode
  rcases Sim.stepEnv m p inputs sim with ⟨e | env, sim'⟩
  · exact fun hstep _ => .error (hstep e rfl)
  · intro _ hnode
    refine Except.Fails.foldlM (fun out port hport => ?_) _
    split
    · exact .ok _
    · have hport : port ∈ sim.node.outputs := hnode ▸ hport
      exact (hbody.types port (mem_declared_of_out (List.mem_append_left _ hport))).1.map _

/-! ## Monitored simulations -/

theorem fails_signalsOf {n : NodeDef} {k : Nat} (h : BodyFits p n k) (hm : k ≤ m.stack)
    (env : Env) : (MonitoredSim.signalsOf m p n env).Fails Fault.InStack := by
  have hbody := h m hm m.stack hm fun _ => none
  have hvalue {port : Port} (hport : port ∈ n.declared) :
      (MonitoredSim.valueOf m p env port).Fails Fault.InStack := by
    unfold MonitoredSim.valueOf
    split
    · exact .ok _
    · exact (hbody.types port hport).1.map _
  have hports (port : Port) : port ∈ n.declared ↔
      port ∈ n.inputs ++ n.locals ∨ port ∈ n.outputs := by
    simp only [NodeDef.declared, List.mem_append]
    tauto
  refine .bind (.mapM fun port hport => hvalue ((hports port).mpr (.inl hport))) fun signals _ => ?_
  refine .bind (.mapM fun port hport => hvalue ((hports port).mpr (.inr hport))) fun outputs _ => ?_
  exact .ok _

theorem fails_observe {c : ContractDef} {obs : Observer} {k : Nat} (h : BodyFits p obs.node k)
    (hm : k ≤ m.stack) (consts inputs outputs : Env) :
    (MonitoredSim.observe m p c obs consts inputs outputs).Fails Fault.InStack := by
  have hbody := h m hm m.stack hm consts
  refine .bind ?_ fun values _ => .pure _
  refine .bind (.lift (.mapM fun port _ => ?_)) fun args hargs => ?_
  · unfold MonitoredSim.observerArg
    split
    · exact .ok _
    · exact .error (inStack_error _)
  · obtain ⟨_, _, hargs⟩ := hargs
    have hlen := (Except.mapM_eq_ok (Stateful.lift_eq_ok.mp hargs).1).1
    split
    · exact .pure _
    · exact .bind (fails_stepInstance inStack_of_isPlain hbody hlen (fun _ _ h => h) _)
        fun out _ => .pure _

/-- The bodies that a monitored simulation runs fit in a stack of `k`. -/
structure MonitoredFits (p : Project) (k : Nat) (ms : MonitoredSim) : Prop where
  node : BodyFits p ms.sim.node k
  monitor : ∀ c obs, ms.monitor = some (c, obs) → BodyFits p obs.node k

theorem fails_stepObserved {k : Nat} {ms : MonitoredSim} (h : MonitoredFits p k ms)
    (hm : k ≤ m.stack) (inputs : Env) :
    (MonitoredSim.stepObserved m p inputs ms).1.Fails Fault.InStack := by
  have hstep := fails_stepEnv h.node hm inputs
  have hnode : (Sim.stepEnv m p inputs ms.sim).2.node = ms.sim.node :=
    (Sim.stepEnv_sameNode inputs).node
  unfold MonitoredSim.stepObserved
  split
  case h_1 e _ he => exact .error (hstep e (by rw [he]))
  case h_2 env sim henv =>
    rw [henv] at hnode
    have hsignals := fails_signalsOf (m := m) (hnode.symm ▸ h.node : BodyFits p sim.node k) hm env
    split
    case h_1 e he => exact .error (hsignals e he)
    case h_2 signals outputs _ =>
      split
      case h_1 => exact .ok _
      case h_2 c obs hmon =>
        have hobserve := fails_observe (c := c) (h.monitor c obs hmon) hm sim.consts inputs
          (MonitoredSim.bindings outputs) ms.observerCalls
        split
        case h_1 e _ he => exact .error (hobserve e (by rw [he]))
        case h_2 => exact .ok _

theorem fails_submit {k : Nat} {ms : MonitoredSim} (h : MonitoredFits p k ms) (hm : k ≤ m.stack)
    (s : Submission) : (MonitoredSim.submit m p s ms).1.Fails Fault.InStack ∧
      MonitoredFits p k (MonitoredSim.submit m p s ms).2 := by
  cases s with
  | step inputs =>
    refine ⟨(fails_step h.node hm inputs).map _, ?_, h.monitor⟩
    have hnode : (Sim.step m p inputs ms.sim).2.node = ms.sim.node := by
      rw [Sim.step_state]
      exact (Sim.stepEnv_sameNode inputs).node
    exact hnode.symm ▸ h.node
  | stepObserved inputs =>
    refine ⟨(fails_stepObserved h hm inputs).map _, ?_, ?_⟩
    · have hnode : (MonitoredSim.stepObserved m p inputs ms).2.sim.node = ms.sim.node := by
        rw [MonitoredSim.stepObserved_sim]
        exact (Sim.stepEnv_sameNode inputs).node
      exact hnode.symm ▸ h.node
    · intro c obs hmon
      exact h.monitor c obs ((MonitoredSim.stepObserved_monitor inputs ms).symm.trans hmon)

theorem fails_run {k : Nat} {ms : MonitoredSim} (h : MonitoredFits p k ms) (hm : k ≤ m.stack)
    (subs : List Submission) :
    ∀ cycle ∈ MonitoredSim.run m p ms subs, cycle.result.Fails Fault.InStack := by
  induction subs generalizing ms with
  | nil => simp [MonitoredSim.run]
  | cons s subs ih =>
    obtain ⟨hfails, hnext⟩ := fails_submit h hm s
    rw [MonitoredSim.run]
    revert hfails hnext
    generalize MonitoredSim.submit m p s ms = r
    intro hfails hnext
    exact List.forall_mem_cons.mpr ⟨hfails, ih hnext⟩

theorem monitoredNew_eq_ok {name : String} {ms : MonitoredSim}
    (h : MonitoredSim.new m p name = .ok ms) : ms.sim.node ∈ p.allNodes ∧
      ∀ c obs, ms.monitor = some (c, obs) →
        c ∈ p.packages.flatMap (·.contracts) ∧ obs = ContractDef.observer c := by
  obtain ⟨sim, hsim, h⟩ := Except.bind_eq_ok.mp h
  cases h
  refine ⟨Project.mem_of_findNode (Sim.new_eq_ok hsim).1, fun c obs hmon => ?_⟩
  obtain ⟨c, hc, heq⟩ := Option.map_eq_some_iff.mp hmon
  cases heq
  obtain ⟨cname, -, hc⟩ := Option.bind_eq_some_iff.mp hc
  obtain ⟨pkg, hpkg, hc⟩ := List.exists_of_findSome?_eq_some hc
  exact ⟨List.mem_flatMap.mpr ⟨pkg, hpkg, List.mem_of_find?_eq_some hc⟩, rfl⟩

theorem fails_monitoredNew {k : Nat} (h : BodyFits p (constantsNode p) k) (hm : k ≤ m.stack)
    (name : String) : (MonitoredSim.new m p name).Fails Fault.InStack :=
  .bind (fails_simNew h hm name) fun _ _ => .ok _

end

/-- In a stack that is large enough, every simulation is made and takes every step, monitored
or not, whatever its inputs. -/
def RunsInStack (p : Project) : Prop :=
  ∃ stack, ∀ m : Machine, stack ≤ m.stack → ∀ name,
    (MonitoredSim.new m p name).Fails Fault.InStack ∧
    ∀ ms, MonitoredSim.new m p name = .ok ms → ∀ subs, ∀ cycle ∈ MonitoredSim.run m p ms subs,
      cycle.result.Fails Fault.InStack

/-- Every declared type has a default value exactly when no value holds one of its own type.
Where no declaration of a type refers to itself and no node calls itself, there is a stack in
which every simulation of the project is made and takes every step, monitored or not; and the
emitter's walk over the nodes ends on every project. -/
theorem recursion_ends (p : Project) :
    ((∀ t ∈ p.allTypes, ∃ k v, defaultValue p k (.named t.name) = .ok v) ↔
      ¬ Cyclic (TypeHolds p)) ∧
    (¬ Cyclic (TypeRefers p) → ¬ Cyclic (NodeCalls p) → RunsInStack p) ∧
    ∃ order, CliteEmit.topoSortNodes p = some order := by
  refine ⟨defaultValues_iff, fun htypes hcalls => ?_, CliteEmit.topoSortNodes_ends p⟩
  obtain ⟨k, hk⟩ := exists_bound (Q := BodyFits p) (fun _ _ _ hk h => h.mono hk)
    fun n (_ : n ∈ bodies p) => exists_bodyFits htypes hcalls n
  have hconstants : BodyFits p (constantsNode p) k := hk _ List.mem_cons_self
  have hnode {n : NodeDef} (hn : n ∈ p.allNodes) : BodyFits p n k :=
    hk n (List.mem_append_left _ (List.mem_cons_of_mem _ hn))
  refine ⟨k, fun m hm name => ⟨fails_monitoredNew hconstants hm name, fun ms hms subs => ?_⟩⟩
  obtain ⟨hroot, hmon⟩ := monitoredNew_eq_ok hms
  refine fails_run ⟨hnode hroot, fun c obs h => ?_⟩ hm subs
  obtain ⟨hc, rfl⟩ := hmon c obs h
  exact hk _ (List.mem_append_right _ (List.mem_map_of_mem hc))

/-- A node that passes its input on. -/
def passing : NodeDef where
  name := "N"
  kind := .operator
  inputs := [⟨"x", .named "R"⟩]
  outputs := [⟨"y", .named "R"⟩]
  locals := []
  equations := [⟨["y"], .var "x"⟩]

/-- The node on records that hold themselves. -/
def holdingProject : Project where
  packages := [{
    name := "main"
    types := [⟨.record "R" [⟨"next", .named "R"⟩]⟩]
    nodes := [passing] }]

/-- The node on records of integers. -/
def holdingIntegers : Project where
  packages := [{
    name := "main"
    types := [⟨.record "R" [⟨"next", .int32⟩]⟩]
    nodes := [passing] }]

theorem recursion_ends_integers : RunsInStack holdingIntegers := by
  refine (recursion_ends holdingIntegers).2.1 ?_ ?_
  · rintro ⟨a, ha⟩
    obtain ⟨b, ⟨body, hbody, hb⟩, -⟩ := Relation.TransGen.head'_iff.mp ha
    obtain ⟨t, ht, rfl⟩ := Option.map_eq_some_iff.mp hbody
    have hmem := List.mem_of_find?_eq_some ht
    rw [List.mem_singleton.mp hmem] at hb
    cases hb
  · rintro ⟨n, hn⟩
    obtain ⟨b, -, eq, -, f, -, hf⟩ := Relation.TransGen.tail'_iff.mp hn
    obtain ⟨c, ⟨eq', heq, g, hg, -⟩, -⟩ := Relation.TransGen.head'_iff.mp hn
    rw [List.mem_singleton.mp (Project.mem_of_findNode hf)] at heq
    rw [List.mem_singleton.mp heq] at hg
    cases hg

/-- A function that applies itself. -/
def calling : NodeDef where
  name := "F"
  kind := .function
  inputs := []
  outputs := [⟨"y", .int32⟩]
  locals := []
  equations := [⟨["y"], .call "F" []⟩]

def callingProject : Project where packages := [{ name := "main", nodes := [calling] }]

theorem holding_default (k : Nat) :
    defaultValue holdingProject k (.named "R") = .error (.panic .stackOverflow) := by
  induction k with
  | zero => rfl
  | succ k ih =>
    have hbody : findType holdingProject "R" = some (.record "R" [⟨"next", .named "R"⟩]) := by decide
    simp only [defaultValue, hbody, List.foldlM_cons, ih]
    rfl

/-- A node of the project, simulated from the start. -/
def started (n : NodeDef) : MonitoredSim where
  sim := {
    node := n, state := .initial, callStates := Calls.empty, consts := fun _ => none
    eqOrder := [0], clockInfo := {} }
  monitor := none
  observerCalls := Calls.empty

theorem holding_stepEnv (m : Machine) : (Sim.stepEnv m holdingProject (fun _ => none)
    (started passing).sim).1 = .error (.panic .stackOverflow) := by
  have hdefault := holding_default m.stack
  have hseed : (started passing).sim.seed m holdingProject (fun _ => none) =
      .error (.panic .stackOverflow) := by
    simp only [Sim.seed, started, passing, List.append_nil, List.foldlM_cons, Sim.seedPort,
      Env.extend, State.initial, Option.or_none, hdefault]
    rfl
  simp only [Sim.stepEnv, hseed]

theorem new_holding (m : Machine) : MonitoredSim.new m holdingProject "N" = .ok (started passing) := by
  rfl

theorem callee_calling : callee callingProject "F" 0 = .ok calling := by rfl

/-- One cycle of the function is one call of it. -/
theorem calling_body (m : Machine) (cs : Callees) (env : Env) (calls calls' : Calls)
    (h : cs.stepInstance ⟨"F", 0, []⟩ calling [] env calls = (.error (.panic .stackOverflow), calls')) :
    equationSteps m callingProject cs calling {} .initial [0] env calls =
      (.error (.panic .stackOverflow), calls') := by
  refine Stateful.bind_error ?_
  change (Stateful.lift (.ok true) >>= _) calls = _
  rw [Stateful.bind_ok (Stateful.lift_apply _ _)]
  refine Stateful.bind_error ?_
  rw [eval_call (by decide)]
  change (Stateful.lift (.ok calling) >>= _) calls = _
  rw [Stateful.bind_ok (Stateful.lift_apply _ _)]
  exact h

theorem calling_overflows {m : Machine} (hm : 0 < m.stack) (d : Nat) (site : Site) (env : Env)
    (calls : Calls) : ∃ calls', (callees m callingProject d).stepInstance site calling [] env calls =
      (.error (.panic .stackOverflow), calls') := by
  obtain ⟨checks, stack⟩ := m
  obtain ⟨stack, rfl⟩ := Nat.exists_eq_add_of_le' hm
  induction d generalizing site env calls with
  | zero => exact ⟨calls, rfl⟩
  | succ d ih =>
    obtain ⟨calls', h⟩ := ih ⟨"F", 0, []⟩ (Env.set env "y" (.int 0)) calls
    refine ⟨calls', ?_⟩
    change (Stateful.lift (.ok (Env.set env "y" (.int 0))) >>= _) calls = _
    rw [Stateful.bind_ok (Stateful.lift_apply _ _)]
    change (Stateful.lift (.ok [0]) >>= _) calls = _
    rw [Stateful.bind_ok (Stateful.lift_apply _ _)]
    exact Stateful.bind_error (calling_body _ _ _ _ _ h)

theorem new_calling (m : Machine) : MonitoredSim.new m callingProject "F" = .ok (started calling) := by
  rfl

theorem calling_stepEnv {m : Machine} (hm : 0 < m.stack) : (Sim.stepEnv m callingProject
    (fun _ => none) (started calling).sim).1 = .error (.panic .stackOverflow) := by
  obtain ⟨checks, stack⟩ := m
  obtain ⟨stack, rfl⟩ := Nat.exists_eq_add_of_le' hm
  let env : Env := Env.set (fun _ => none) "y" (.int 0)
  obtain ⟨calls', h⟩ := calling_overflows hm (stack + 1) ⟨"F", 0, []⟩ env Calls.empty
  have hsteps := calling_body ⟨checks, stack + 1⟩ _ env _ _ h
  have hseed : (started calling).sim.seed ⟨checks, stack + 1⟩ callingProject (fun _ => none) =
      .ok env := rfl
  simp only [Sim.stepEnv, hseed]
  erw [hsteps]

theorem not_runsInStack {p : Project} {name : String} {ms : MonitoredSim} {inputs : Env}
    (hnew : ∀ m, MonitoredSim.new m p name = .ok ms) (hstep : ∀ m : Machine, 0 < m.stack →
      (Sim.stepEnv m p inputs ms.sim).1 = .error (.panic .stackOverflow)) : ¬ RunsInStack p := by
  rintro ⟨stack, h⟩
  let m : Machine := ⟨true, stack + 1⟩
  have hrun := (h m (Nat.le_succ stack) name).2 ms (hnew m) [.step inputs]
  have hfirst : (Sim.step m p inputs ms.sim).1 = .error (.panic .stackOverflow) := by
    have hm := hstep m (Nat.succ_pos stack)
    rw [Sim.step, Stateful.bind_apply]
    revert hm
    rcases Sim.stepEnv m p inputs ms.sim with ⟨r, sim⟩
    rintro rfl
    rfl
  have hresult : (MonitoredSim.submit m p (.step inputs) ms).1 = .error (.panic .stackOverflow) := by
    rw [MonitoredSim.submit]
    revert hfirst
    rcases Sim.step m p inputs ms.sim with ⟨r, sim⟩
    rintro rfl
    rfl
  refine hrun ⟨ms, _, _⟩ List.mem_cons_self (.panic .stackOverflow) hresult rfl

/-- The checker accepts a record that holds itself, and a function that applies itself. -/
theorem exists_endless :
    (Typecheck.Accepted holdingProject ∧ ¬ RunsInStack holdingProject) ∧
    Typecheck.Accepted callingProject ∧ ¬ RunsInStack callingProject :=
  ⟨⟨by decide, not_runsInStack new_holding fun m _ => holding_stepEnv m⟩,
    by decide, not_runsInStack new_calling fun m hm => calling_stepEnv hm⟩

end OpenLustre.Simulator
