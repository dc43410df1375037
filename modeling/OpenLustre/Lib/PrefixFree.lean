import Mathlib.Data.List.Basic
import Mathlib.Data.Set.Function

/-! Encodings that can be cancelled from the front of a longer word. -/

/-- The encoding of a value of `S` tells the value and where the encoding ends. -/
def PrefixFree {α β : Type} (S : Set α) (enc : α → List β) : Prop :=
  ∀ a ∈ S, ∀ b ∈ S, ∀ r s, enc a ++ r = enc b ++ s → a = b ∧ r = s

namespace PrefixFree

variable {α β γ : Type} {S : Set α} {enc : α → List β}

theorem injOn (h : PrefixFree S enc) : Set.InjOn enc S := by
  intro a ha b hb heq
  exact (h a ha b hb [] [] (by rw [heq])).1

/-- An encoding that can be read back. -/
theorem of_read (read : List β → Option (α × List β)) (h : ∀ a r, read (enc a ++ r) = some (a, r)) :
    PrefixFree Set.univ enc := by
  intro a _ b _ r s heq
  have hread : some (a, r) = some (b, s) := by rw [← h, ← h, heq]
  cases hread
  exact ⟨rfl, rfl⟩

/-- Encodings of one length. -/
theorem of_length (h : Set.InjOn enc S) (hlen : ∀ a b, (enc a).length = (enc b).length) :
    PrefixFree S enc := by
  intro a ha b hb r s heq
  obtain ⟨henc, hrest⟩ := List.append_inj heq (hlen a b)
  exact ⟨h ha hb henc, hrest⟩

theorem comap (h : PrefixFree S enc) {f : γ → α} (hf : f.Injective) :
    PrefixFree (Set.preimage f S) (fun c => enc (f c)) := by
  intro a ha b hb r s heq
  obtain ⟨hab, hrest⟩ := h (f a) ha (f b) hb r s heq
  exact ⟨hf hab, hrest⟩

/-- A value between a mark that is always the same and what follows. -/
theorem after (h : PrefixFree Set.univ enc) {mark : List β} {a b : α} {r s : List β}
    (heq : mark ++ (enc a ++ r) = mark ++ (enc b ++ s)) : a = b ∧ r = s :=
  h a trivial b trivial r s (List.append_cancel_left heq)

/-- A word after its own length. -/
theorem framed {size : Nat → List β} {T : Set Nat} (h : PrefixFree T size) :
    PrefixFree {l : List β | l.length ∈ T} (fun l => size l.length ++ l) := by
  intro a ha b hb r s heq
  simp only [List.append_assoc] at heq
  obtain ⟨hlen, hrest⟩ := h a.length ha b.length hb _ _ heq
  exact List.append_inj hrest hlen

/-- A list of encodings that are not empty. -/
theorem flatMap_injOn (h : PrefixFree S enc) (hne : ∀ a, enc a ≠ []) :
    Set.InjOn (List.flatMap enc) {l | ∀ a ∈ l, a ∈ S} := by
  intro l hl l' hl' heq
  induction l generalizing l' with
  | nil =>
    cases l' with
    | nil => rfl
    | cons b l' =>
      rw [List.flatMap_nil, List.flatMap_cons] at heq
      exact absurd (List.append_eq_nil_iff.mp heq.symm).1 (hne b)
  | cons a l ih =>
    cases l' with
    | nil =>
      rw [List.flatMap_nil, List.flatMap_cons] at heq
      exact absurd (List.append_eq_nil_iff.mp heq).1 (hne a)
    | cons b l' =>
      rw [List.flatMap_cons, List.flatMap_cons] at heq
      obtain ⟨rfl, hrest⟩ := h a (hl a (by simp)) b (hl' b (by simp)) _ _ heq
      rw [ih (fun x hx => hl x (by simp [hx])) (fun x hx => hl' x (by simp [hx])) hrest]

theorem append_ne_cons {stop : β} {word : List β} (hne : word ≠ []) (hstop : word.head? ≠ some stop)
    (w v : List β) : word ++ w ≠ stop :: v := by
  cases word with
  | nil => exact absurd rfl hne
  | cons x tail =>
    intro heq
    apply hstop
    rw [(List.cons.inj heq).1]
    rfl

/-- A list of encodings up to a mark that none of them begins with. -/
theorem terminated (h : PrefixFree Set.univ enc) {stop : β} (hne : ∀ a, enc a ≠ [])
    (hstop : ∀ a, (enc a).head? ≠ some stop) :
    PrefixFree Set.univ (fun l => List.flatMap enc l ++ [stop]) := by
  have hends (a : α) := append_ne_cons (hne a) (hstop a)
  intro l _ l' _ r s heq
  simp only [List.append_assoc, List.singleton_append] at heq
  clear * - h hends heq
  induction l generalizing l' with
  | nil =>
    cases l' with
    | nil => exact ⟨rfl, (List.cons.inj heq).2⟩
    | cons b l' =>
      rw [List.flatMap_nil, List.flatMap_cons, List.append_assoc] at heq
      exact absurd heq.symm (hends b _ _)
  | cons a l ih =>
    cases l' with
    | nil =>
      rw [List.flatMap_nil, List.flatMap_cons, List.append_assoc] at heq
      exact absurd heq (hends a _ _)
    | cons b l' =>
      rw [List.flatMap_cons, List.flatMap_cons, List.append_assoc, List.append_assoc] at heq
      obtain ⟨rfl, hrest⟩ := h a trivial b trivial _ _ heq
      obtain ⟨rfl, rfl⟩ := ih l' hrest
      exact ⟨rfl, rfl⟩

theorem intercalate_cons (sep : β) (a : α) (l : List α) :
    List.intercalate [sep] ((a :: l).map enc) = enc a ++ l.flatMap fun b => sep :: enc b := by
  induction l generalizing a with
  | nil => simp [List.intercalate]
  | cons b l ih =>
    rw [List.map_cons, List.map_cons, List.intercalate_cons_cons, ← List.map_cons, ih]
    simp

/-- A list of encodings with marks between them, up to another mark that none of them
begins with. -/
theorem separated (h : PrefixFree Set.univ enc) {sep stop : β} (hne : ∀ a, enc a ≠ [])
    (hstop : ∀ a, (enc a).head? ≠ some stop) (hsep : sep ≠ stop) :
    PrefixFree Set.univ (fun l : List α => List.intercalate [sep] (l.map enc) ++ [stop]) := by
  have hcons : PrefixFree Set.univ (fun a => sep :: enc a) := by
    intro a _ b _ r s heq
    exact h a trivial b trivial r s (List.cons.inj heq).2
  have htail := hcons.terminated (fun _ => List.cons_ne_nil _ _)
    (fun _ => by simpa using hsep)
  have hends (a : α) := append_ne_cons (hne a) (hstop a)
  intro l _ l' _ r s heq
  cases l with
  | nil =>
    cases l' with
    | nil => exact ⟨rfl, (List.cons.inj heq).2⟩
    | cons b l' =>
      simp only [intercalate_cons, List.append_assoc] at heq
      exact absurd heq.symm (hends b _ _)
  | cons a l =>
    cases l' with
    | nil =>
      simp only [intercalate_cons, List.append_assoc] at heq
      exact absurd heq (hends a _ _)
    | cons b l' =>
      simp only [intercalate_cons, List.append_assoc] at heq
      obtain ⟨rfl, hrest⟩ := h a trivial b trivial _ _ heq
      obtain ⟨rfl, rfl⟩ := htail l trivial l' trivial r s (by simpa using hrest)
      exact ⟨rfl, rfl⟩

end PrefixFree
