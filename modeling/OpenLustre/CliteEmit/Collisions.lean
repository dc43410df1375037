import Mathlib.Data.List.Nodup
import Mathlib.Data.List.Lattice
import OpenLustre.CliteEmit.Identifiers

/-! When two identifiers of one scope of the C code are the same, or one is a keyword. -/

namespace OpenLustre.CliteEmit

open OpenLustre.Ir OpenLustre.Typecheck

section Text

theorem append_right_cancel {a b s : String} (h : a ++ s = b ++ s) : a = b := by
  rw [← String.toList_inj, String.toList_append, String.toList_append] at h
  exact String.toList_inj.mp (List.append_cancel_right h)

theorem append_left_cancel {a b s : String} (h : s ++ a = s ++ b) : a = b := by
  rw [← String.toList_inj, String.toList_append, String.toList_append] at h
  exact String.toList_inj.mp (List.append_cancel_left h)

/-- Two texts with the same ending have endings of which one ends in the other. -/
theorem suffix_of_append_eq {a b s t : String} (h : a ++ s = b ++ t) :
    s.toList <:+ t.toList ∨ t.toList <:+ s.toList := by
  rw [← String.toList_inj, String.toList_append, String.toList_append] at h
  exact List.suffix_or_suffix_of_suffix ⟨a.toList, h⟩ ⟨b.toList, rfl⟩

theorem toList_toString (i : Nat) : (toString i).toList = Nat.toDigits 10 i := by
  rw [Nat.toString_eq_repr, Nat.repr_eq_ofList_toDigits, String.toList_ofList]

theorem toDigits_injective : Function.Injective (Nat.toDigits 10) := by
  intro i j h
  rw [← Nat.ofDigitChars_toDigits (n := i) (b := 10) (by decide) (by decide), h,
    Nat.ofDigitChars_toDigits (by decide) (by decide)]

theorem toString_injective : Function.Injective (toString : Nat → String) := fun i j h =>
  toDigits_injective (by rw [← toList_toString, h, toList_toString])

theorem takeWhile_digits {i : Nat} {s : List Char} (hs : ∀ c ∈ s.head?, c.isDigit = false) :
    (Nat.toDigits 10 i ++ s).takeWhile Char.isDigit = Nat.toDigits 10 i := by
  have hdigits : ∀ c ∈ Nat.toDigits 10 i, c.isDigit = true := fun c hc =>
    Nat.isDigit_of_mem_toDigits (by decide) (by decide) hc
  rw [List.takeWhile_append_of_pos hdigits]
  cases s with
  | nil => simp
  | cons c s => simp [hs c rfl]

/-- A number ends where the first character is that is no digit. -/
theorem toDigits_append_inj {i j : Nat} {s t : List Char} (hs : ∀ c ∈ s.head?, c.isDigit = false)
    (ht : ∀ c ∈ t.head?, c.isDigit = false)
    (h : Nat.toDigits 10 i ++ s = Nat.toDigits 10 j ++ t) : i = j ∧ s = t := by
  have hij : i = j := toDigits_injective (by rw [← takeWhile_digits hs, h, takeWhile_digits ht])
  subst hij
  exact ⟨rfl, List.append_cancel_left h⟩

theorem nodup_eraseDups {α : Type} [DecidableEq α] (l : List α) : l.eraseDups.Nodup := by
  induction hn : l.length using Nat.strong_induction_on generalizing l with
  | _ n ih =>
    cases l with
    | nil => simp
    | cons a l =>
      rw [List.eraseDups_cons, List.nodup_cons]
      refine ⟨by simp [List.mem_eraseDups], ih _ ?_ _ rfl⟩
      rw [← hn, List.length_cons]
      exact Nat.lt_succ_of_le (List.length_filter_le _ _)

end Text

section Temporaries

/-- The characters of a temporary's name: a mark, a number, and what follows it. -/
theorem Temporary.toList_name (t : Temporary) : t.name.toList =
    match t with
    | .callInput idx => '_' :: '_' :: 'i' :: 'n' :: Nat.toDigits 10 idx
    | .callOutput idx => '_' :: '_' :: 'o' :: 'u' :: 't' :: Nat.toDigits 10 idx
    | .iterAcc seq => '_' :: '_' :: 'i' :: 't' :: (Nat.toDigits 10 seq ++ ['a', 'c', 'c'])
    | .iterIndex seq => '_' :: '_' :: 'i' :: 't' :: (Nat.toDigits 10 seq ++ ['i'])
    | .iterInput seq => '_' :: '_' :: 'i' :: 't' :: (Nat.toDigits 10 seq ++ ['i', 'n'])
    | .iterOutput seq => '_' :: '_' :: 'i' :: 't' :: (Nat.toDigits 10 seq ++ ['o', 'u', 't']) := by
  cases t <;> simp [name]

theorem Temporary.name_injective : Function.Injective Temporary.name := by
  intro s t h
  have h := congrArg String.toList h
  rw [toList_name, toList_name] at h
  cases s <;> cases t <;> simp at h
  all_goals first
    | rw [toDigits_injective h]
    | obtain ⟨rfl, hrest⟩ := toDigits_append_inj (by simp) (by simp) h
      first | rfl | simp at hrest

end Temporaries

section Calls

/-- Different numbers, of `count` from `base` on. -/
structure Numbers (base count : Nat) (l : List Nat) : Prop where
  nodup : l.Nodup
  mem : ∀ i ∈ l, base ≤ i ∧ i < base + count

variable {base count : Nat} {l : List Nat}

theorem Numbers.nil : Numbers base count [] := ⟨List.nodup_nil, by simp⟩

theorem Numbers.append {count' : Nat} {l' : List Nat} (h : Numbers base count l)
    (h' : Numbers (base + count) count' l') : Numbers base (count + count') (l ++ l') where
  nodup := by
    refine List.nodup_append.mpr ⟨h.nodup, h'.nodup, fun i hi j hj heq => ?_⟩
    have hi := (h.mem i hi).2
    have hj := (h'.mem j hj).1
    omega
  mem := by
    intro i hi
    rcases List.mem_append.mp hi with hi | hi
    · have := h.mem i hi
      omega
    · have := h'.mem i hi
      omega

theorem calls_eq (e : Expr) : calls e = (callee e).toList ++ e.children.flatMap calls := by
  rw [calls, Expr.subterms_eq, List.filterMap_cons, List.filterMap_flatMap]
  cases callee e <;> rfl

theorem lowerArgs_numbers {es : List Expr}
    (h : ∀ e ∈ es, ∀ base, Numbers base (calls e).length (lowerAnf base e)) (base : Nat) :
    Numbers base (es.flatMap calls).length (lowerArgs base es) := by
  induction es generalizing base with
  | nil => exact .nil
  | cons e es ih =>
    rw [List.flatMap_cons, List.length_append]
    exact (h e List.mem_cons_self base).append
      (ih (fun e he => h e (List.mem_cons_of_mem _ he)) _)

theorem lowerFields_eq (base : Nat) (fields : List (String × Expr)) :
    lowerFields base fields = lowerArgs base (fields.map (·.2)) := by
  induction fields generalizing base with
  | nil => rfl
  | cons f fields ih => exact congrArg (lowerAnf base f.2 ++ ·) (ih _)

/-- The calls written out for an expression have different numbers, of its own calls. -/
theorem lowerAnf_numbers (e : Expr) :
    ∀ base, Numbers base (calls e).length (lowerAnf base e) := by
  induction e with
  | const | var | pre | tuple | array | iterate => exact fun _ => .nil
  | unary op arg ih | cast target arg ih | field arg f ih | when arg c on ih =>
    intro base
    rw [calls_eq]
    simpa [callee, Expr.children, lowerAnf] using ih base
  | binary op lhs rhs ihl ihr | arrow lhs rhs ihl ihr | index lhs rhs ihl ihr
  | merge c lhs rhs ihl ihr =>
    intro base
    rw [calls_eq]
    simpa [callee, Expr.children, lowerAnf] using (ihl base).append (ihr _)
  | ifThenElse c t e ihc iht ihe =>
    intro base
    rw [calls_eq]
    simpa [callee, Expr.children, lowerAnf] using (ihc base).append ((iht _).append (ihe _))
  | call node args ih =>
    intro base
    have hargs := lowerArgs_numbers ih (base + 1)
    rw [calls_eq, lowerAnf]
    refine ⟨List.nodup_append.mpr ⟨hargs.nodup, List.nodup_singleton base, ?_⟩, ?_⟩
    · intro i hi j hj heq
      have hi := (hargs.mem i hi).1
      rw [heq, List.mem_singleton.mp hj] at hi
      omega
    · intro i hi
      simp only [callee, Expr.children, Option.toList_some, List.singleton_append, List.length_cons]
      rcases List.mem_append.mp hi with hi | hi
      · have := hargs.mem i hi
        omega
      · rw [List.mem_singleton.mp hi]
        omega
  | struct ty fields ih =>
    intro base
    rw [calls_eq, lowerAnf, lowerFields_eq]
    refine lowerArgs_numbers (fun e he => ?_) base
    obtain ⟨f, hf, rfl⟩ := List.mem_map.mp he
    exact ih f hf

theorem Numbers.mono {more : Nat} (h : Numbers base count l) (hle : count ≤ more) :
    Numbers base more l := ⟨h.nodup, fun i hi => by have := h.mem i hi; omega⟩

theorem equationCalls_numbers (base : Nat) (eq : Equation) :
    Numbers base (calls eq.rhs).length (equationCalls base eq) := by
  unfold equationCalls
  split
  next items hlhs hrhs =>
    have hitems : Numbers base (items.flatMap calls).length (lowerArgs base items) :=
      lowerArgs_numbers (fun e _ => lowerAnf_numbers e) base
    rwa [hrhs, calls_eq]
  next hlhs hrhs =>
    rw [hrhs]
    exact lowerAnf_numbers _ base
  next => exact .nil
  next => exact lowerAnf_numbers _ base

/-- The call or the iterator a temporary belongs to. -/
def Temporary.source : Temporary → Nat ⊕ Nat
  | .callInput idx | .callOutput idx => .inl idx
  | .iterAcc seq | .iterIndex seq | .iterInput seq | .iterOutput seq => .inr seq

theorem source_callBlocks {t : Temporary} (ht : t ∈ l.flatMap callBlock) :
    ∃ i ∈ l, t.source = .inl i := by
  obtain ⟨i, hi, ht⟩ := List.mem_flatMap.mp ht
  rw [callBlock, List.mem_pair] at ht
  rcases ht with rfl | rfl
  · exact ⟨i, hi, rfl⟩
  · exact ⟨i, hi, rfl⟩

theorem callBlocks_nodup (h : l.Nodup) : (l.flatMap callBlock).Nodup := by
  induction h with
  | nil => exact List.nodup_nil
  | @cons i l hi _ ih =>
    rw [List.flatMap_cons]
    refine List.nodup_append.mpr ⟨by simp [callBlock], ih, fun s hs t ht heq => ?_⟩
    obtain ⟨j, hj, hsource⟩ := source_callBlocks ht
    obtain ⟨k, hk, hsource'⟩ := source_callBlocks (l := [i]) (by simpa using hs)
    rw [heq, hsource] at hsource'
    cases hsource'
    exact hi j hj (List.mem_singleton.mp hk).symm

/-- The temporaries of one equation are different, and belong to its calls or its iterator. -/
theorem emitEquationBody_nodup (p : Project) (base seq : Nat) (eq : Equation) :
    (emitEquationBody p base seq eq).Nodup ∧ ∀ t ∈ emitEquationBody p base seq eq,
      (∃ i, t.source = .inl i ∧ base ≤ i ∧ i < base + (calls eq.rhs).length) ∨
        (t.source = .inr seq ∧ isIterate eq.rhs) := by
  have hblocks {l : List Nat} (h : Numbers base (calls eq.rhs).length l) :
      (l.flatMap callBlock).Nodup ∧ ∀ t ∈ l.flatMap callBlock,
        ∃ i, t.source = .inl i ∧ base ≤ i ∧ i < base + (calls eq.rhs).length := by
    refine ⟨callBlocks_nodup h.nodup, fun t ht => ?_⟩
    obtain ⟨i, hi, hsource⟩ := source_callBlocks ht
    exact ⟨i, hsource, h.mem i hi⟩
  unfold emitEquationBody
  split
  next kind node init arrays hrhs =>
    rw [hrhs] at hblocks ⊢
    split
    · exact ⟨List.nodup_nil, by simp⟩
    · have hinit : Numbers base (calls (.iterate kind node init arrays)).length
          (init.elim [] (lowerAnf base)) := by
        cases init with
        | none => exact .nil
        | some e =>
          refine (lowerAnf_numbers e base).mono ?_
          rw [calls_eq (.iterate kind node (some e) arrays)]
          simp [callee, Expr.children]
      obtain ⟨hnodup, hmem⟩ := hblocks hinit
      split
      · refine ⟨List.nodup_append.mpr ⟨hnodup, by simp, ?_⟩, ?_⟩
        · intro s hs t ht heq
          obtain ⟨i, hsource, -⟩ := hmem s hs
          simp only [List.mem_cons, List.not_mem_nil, or_false] at ht
          rcases ht with rfl | rfl | rfl | rfl <;> cases heq ▸ hsource
        · intro t ht
          rcases List.mem_append.mp ht with ht | ht
          · exact .inl (hmem t ht)
          · simp only [List.mem_cons, List.not_mem_nil, or_false] at ht
            rcases ht with rfl | rfl | rfl | rfl <;> exact .inr ⟨rfl, rfl⟩
      · refine ⟨by simp, fun t ht => .inr ?_⟩
        simp only [List.mem_cons, List.not_mem_nil, or_false] at ht
        rcases ht with rfl | rfl | rfl <;> exact ⟨rfl, rfl⟩
  next =>
    obtain ⟨hnodup, hmem⟩ := hblocks (equationCalls_numbers base eq)
    exact ⟨hnodup, fun t ht => .inl (hmem t ht)⟩

theorem firstCall_mono (n : NodeDef) {i j : Nat} (h : i ≤ j) : firstCall n i ≤ firstCall n j := by
  obtain ⟨rest, hrest⟩ := List.take_prefix_take_left (l := n.equations) h
  rw [firstCall, firstCall, ← hrest, List.flatMap_append, List.length_append]
  exact Nat.le_add_right _ _

theorem firstCall_succ {n : NodeDef} {i : Nat} {eq : Equation} (h : n.equations[i]? = some eq) :
    firstCall n (i + 1) = firstCall n i + (calls eq.rhs).length := by
  rw [firstCall, List.take_add_one, h, List.flatMap_append, List.length_append]
  simp [firstCall]

/-- The calls of two equations have different numbers. -/
theorem eq_of_call {n : NodeDef} {i j k : Nat} {eq eq' : Equation} (hi : n.equations[i]? = some eq)
    (hj : n.equations[j]? = some eq')
    (hki : firstCall n i ≤ k ∧ k < firstCall n i + (calls eq.rhs).length)
    (hkj : firstCall n j ≤ k ∧ k < firstCall n j + (calls eq'.rhs).length) : i = j := by
  rw [← firstCall_succ hi] at hki
  rw [← firstCall_succ hj] at hkj
  rcases Nat.lt_trichotomy i j with h | h | h
  · have hle : firstCall n (i + 1) ≤ firstCall n j := firstCall_mono n h
    omega
  · exact h
  · have hle : firstCall n (j + 1) ≤ firstCall n i := firstCall_mono n h
    omega

/-- The temporaries of different equations are different. -/
theorem temporaries_nodup (p : Project) (n : NodeDef) {order : List Nat} (h : order.Nodup)
    (seq : Nat) : (temporaries p n seq order).Nodup ∧ ∀ t ∈ temporaries p n seq order,
      (∃ i ∈ order, ∃ eq, n.equations[i]? = some eq ∧ ∃ k, t.source = .inl k ∧
        firstCall n i ≤ k ∧ k < firstCall n i + (calls eq.rhs).length) ∨
      ∃ s, t.source = .inr s ∧ seq ≤ s := by
  induction h generalizing seq with
  | nil => exact ⟨List.nodup_nil, by simp [temporaries]⟩
  | @cons i order hi _ ih =>
    unfold temporaries
    split
    next =>
      obtain ⟨hnodup, hmem⟩ := ih seq
      exact ⟨hnodup, fun t ht => (hmem t ht).imp_left fun ⟨j, hj, h⟩ =>
        ⟨j, List.mem_cons_of_mem _ hj, h⟩⟩
    next eq heq =>
      obtain ⟨hnodup, hmem⟩ := ih (if isIterate eq.rhs then seq + 1 else seq)
      obtain ⟨hnodup', hmem'⟩ := emitEquationBody_nodup p (firstCall n i) seq eq
      refine ⟨List.nodup_append.mpr ⟨hnodup', hnodup, ?_⟩, ?_⟩
      · rintro s hs _ ht rfl
        obtain ⟨k, hk, hrange⟩ | ⟨hk, hiter⟩ := hmem' s hs
        · obtain ⟨j, hj, eq', heq', k', hk', hrange'⟩ | ⟨s', hs', -⟩ := hmem s ht
          · cases hk.symm.trans hk'
            have hij : j ≠ i := fun hji => hi j hj hji.symm
            exact hij (eq_of_call heq heq' hrange hrange').symm
          · cases hk.symm.trans hs'
        · obtain ⟨j, hj, eq', heq', k', hk', -⟩ | ⟨s', hs', hle⟩ := hmem s ht
          · cases hk.symm.trans hk'
          · cases hk.symm.trans hs'
            rw [if_pos hiter] at hle
            omega
      · intro t ht
        rcases List.mem_append.mp ht with ht | ht
        · obtain ⟨k, hk, hrange⟩ | ⟨hk, -⟩ := hmem' t ht
          · exact .inl ⟨i, List.mem_cons_self, eq, heq, k, hk, hrange⟩
          · exact .inr ⟨seq, hk, le_rfl⟩
        · obtain ⟨j, hj, h⟩ | ⟨s, hs, hle⟩ := hmem t ht
          · exact .inl ⟨j, List.mem_cons_of_mem _ hj, h⟩
          · refine .inr ⟨s, hs, le_trans ?_ hle⟩
            split <;> omega

theorem stepOrder_nodup (n : NodeDef) : (stepOrder n).Nodup := by
  unfold stepOrder
  cases h : evaluationOrder n with
  | ok order => exact (evaluationOrder_placed h).1.nodup
  | error => exact List.nodup_range

/-- No two temporaries of a step function have one name. -/
theorem temporaryNames_nodup (p : Project) (n : NodeDef) :
    ((stepTemporaries p n).map (·.name)).Nodup :=
  (temporaries_nodup p n (stepOrder_nodup n) 0).1.map Temporary.name_injective

end Calls

end OpenLustre.CliteEmit
