import OpenLustre.Sim.Equations
import OpenLustre.Sim.Ticking
import OpenLustre.Typecheck.Check

/-! Every operator call runs its instance once: for an expression, for the body of a
node, and for every node of the instance tree. -/

namespace OpenLustre.Simulator

open OpenLustre.Ir Stateful

section

variable {p : Project} {site : Site}

theorem operatorCallsFields_eq (k : Nat) (fields : List (String × Expr)) :
    operatorCallsFields p site k fields = operatorCallsList p site k (fields.map (·.2)) := by
  induction fields generalizing k with
  | nil => simp only [operatorCallsFields, List.map_nil, operatorCallsList]
  | cons f fields ih =>
    simp only [operatorCallsFields, List.map_cons, operatorCallsList, ih]

theorem operatorCall_of_callee {node : String} {k : Nat} {n : NodeDef}
    (h : callee p node k = .ok n) :
    operatorCall p site node = if n.kind = .operator then [(site, some n)] else [] := by
  rw [operatorCall, (callee_eq_ok h).1]

theorem not_isCondact {node : String} (h : ¬ isCondact p node = true) :
    ¬ (node = condact ∧ (p.findNode node).isNone) := by
  simpa [isCondact] using h

theorem isCondact_iff {node : String} :
    isCondact p node = true ↔ node = condact ∧ (p.findNode node).isNone := by
  simp [isCondact]

theorem operatorCallsList_sublist {es : List Expr}
    (h : ∀ e ∈ es, ∀ site : Site,
      ((operatorCalls p site e).map (·.1)).Sublist ((site.subterms e).map (·.1))) (k : Nat) :
    ((operatorCallsList p site k es).map (·.1)).Sublist ((site.subtermsList k es).map (·.1)) := by
  induction es generalizing k with
  | nil => exact .slnil
  | cons e es ih =>
    rw [List.forall_mem_cons] at h
    rw [operatorCallsList, Site.subtermsList, List.map_append, List.map_append]
    exact (h.1 _).append (ih h.2 (k + 1))

/-- The instances of an expression are among its sites. -/
theorem operatorCalls_sublist (e : Expr) : ∀ site : Site,
    ((operatorCalls p site e).map (·.1)).Sublist ((site.subterms e).map (·.1)) := by
  induction e using Expr.children_induct with
  | h e ih =>
  intro site
  have hlist : ((operatorCallsList p site 0 e.children).map (·.1)).Sublist
      ((site.subtermsList 0 e.children).map (·.1)) := operatorCallsList_sublist ih 0
  rw [Site.subterms_eq, List.map_cons]
  cases e with
  | const | var => exact List.nil_sublist _
  | unary | pre | cast | when | field | binary | arrow | index | merge | ifThenElse =>
    simp only [Expr.children, operatorCallsList, List.append_nil] at hlist
    exact hlist.cons _
  | tuple | array => exact hlist.cons _
  | struct _ fields =>
    rw [operatorCalls, operatorCallsFields_eq]
    exact hlist.cons _
  | call node args =>
    rw [operatorCalls]
    split
    · rw [List.map_cons]
      refine .cons_cons _ ?_
      cases args with
      | nil => exact .slnil
      | cons clock rest =>
        have hclock := ih clock List.mem_cons_self (site.child 0)
        rw [condactCalls, Expr.children, Site.subtermsList, List.map_append, List.map_append,
          List.map_map]
        exact hclock.append (.refl _)
    · unfold operatorCall
      split
      · split
        · exact hlist.cons_cons _
        · exact hlist.cons _
      · exact hlist.cons _
  | iterate kind node init arrays =>
    cases init with
    | none => exact hlist.cons _
    | some seed => exact hlist.cons _

theorem operatorCalls_nodup (site : Site) (e : Expr) :
    ((operatorCalls p site e).map (·.1)).Nodup :=
  (Site.subterms_nodup e site).sublist (operatorCalls_sublist e site)

theorem not_call_append {l l' : Instances} :
    ¬ Instances.Call (l ++ l') ↔ ¬ l.Call ∧ ¬ l'.Call := by
  simp only [Instances.Call, List.mem_append, or_and_right, exists_or, not_or]

theorem not_call_nil : ¬ Instances.Call [] := by
  simp [Instances.Call]

end

section

variable {m : Machine} {p : Project} {cs : Callees} {fin : FinishesCallees} {fr : Frame}
  {site : Site} {calls : Calls}

theorem inTurn_of_no_calls {α : Type} {x : EvalM α} {finishes rest : Calls → Prop}
    {left : Instances} (hx : ∀ calls, finishes calls) (hleft : left = [])
    (hrest : ∀ calls, rest calls) : inTurn x finishes left rest calls :=
  ⟨hx calls, then_of_not_left (hleft ▸ not_call_nil) fun _ calls' _ => hrest calls'⟩

section

variable {es : List Expr} (h : ∀ e ∈ es, ∀ (site : Site) (calls : Calls),
  operatorCalls p site e = [] → Finishes m p cs fin fr site e calls)
include h

theorem finishesList_of_no_calls (k : Nat) (calls : Calls)
    (hnone : operatorCallsList p site k es = []) : FinishesList m p cs fin fr site k es calls := by
  induction es generalizing k calls with
  | nil => trivial
  | cons e es ih =>
    rw [List.forall_mem_cons] at h
    rw [operatorCallsList, List.append_eq_nil_iff] at hnone
    rw [FinishesList]
    exact inTurn_of_no_calls (fun calls => h.1 _ calls hnone.1) hnone.2
      fun calls => ih h.2 (k + 1) calls hnone.2

theorem finishesArrays_of_no_calls (k : Nat) (calls : Calls)
    (hnone : operatorCallsList p site k es = []) : FinishesArrays m p cs fin fr site k es calls := by
  induction es generalizing k calls with
  | nil => trivial
  | cons e es ih =>
    rw [List.forall_mem_cons] at h
    rw [operatorCallsList, List.append_eq_nil_iff] at hnone
    rw [FinishesArrays]
    exact inTurn_of_no_calls (fun calls => h.1 _ calls hnone.1) hnone.2
      fun calls => ih h.2 (k + 1) calls hnone.2

end

theorem finishesFields_of_no_calls {fields : List (String × Expr)}
    (h : ∀ e ∈ fields.map (·.2), ∀ (site : Site) (calls : Calls),
      operatorCalls p site e = [] → Finishes m p cs fin fr site e calls)
    (k : Nat) (calls : Calls) (hnone : operatorCallsFields p site k fields = []) :
    FinishesFields m p cs fin fr site k fields calls := by
  induction fields generalizing k calls with
  | nil => trivial
  | cons f fields ih =>
    rw [List.map_cons, List.forall_mem_cons] at h
    rw [operatorCallsFields, List.append_eq_nil_iff] at hnone
    rw [FinishesFields]
    exact inTurn_of_no_calls (fun calls => h.1 _ calls hnone.1) hnone.2
      fun calls => ih h.2 (k + 1) calls hnone.2

/-- An expression without operator calls finishes. -/
theorem finishes_of_no_calls (e : Expr) : ∀ (site : Site) (calls : Calls),
    operatorCalls p site e = [] → Finishes m p cs fin fr site e calls := by
  induction e using Expr.children_induct with
  | h e ih =>
  intro site calls hnone
  cases e with
  | const | var => trivial
  | unary _ arg | cast _ arg | when arg _ _ | field arg _ => exact ih arg List.mem_cons_self _ calls hnone
  | binary _ a b | index a b =>
    simp only [Expr.children, List.forall_mem_cons] at ih
    rw [operatorCalls, List.append_eq_nil_iff] at hnone
    exact inTurn_of_no_calls (fun calls => ih.1 _ calls hnone.1) hnone.2
      fun calls => ih.2.1 _ calls hnone.2
  | ifThenElse c t e =>
    simp only [Expr.children, List.forall_mem_cons] at ih
    rw [operatorCalls, List.append_eq_nil_iff, List.append_eq_nil_iff] at hnone
    have hsides : ¬ (operatorCalls p (site.child 1) t ++ operatorCalls p (site.child 2) e).Call := by
      rw [hnone.2.1, hnone.2.2]
      exact not_call_nil
    refine ⟨ih.1 _ calls hnone.1, then_of_not_left hsides fun v calls' _ => ?_⟩
    split
    · exact inTurn_of_no_calls (fun calls => ih.2.1 _ calls hnone.2.1) hnone.2.2
        fun calls => ih.2.2.1 _ calls hnone.2.2
    · exact inTurn_of_no_calls (fun calls => ih.2.2.1 _ calls hnone.2.2) hnone.2.1
        fun calls => ih.2.1 _ calls hnone.2.1
    · exact hsides
  | pre arg =>
    rw [operatorCalls] at hnone
    rw [Finishes, hnone]
    exact not_call_nil
  | arrow a b =>
    simp only [Expr.children, List.forall_mem_cons] at ih
    rw [operatorCalls, List.append_eq_nil_iff] at hnone
    rw [Finishes]
    split
    · exact inTurn_of_no_calls (fun calls => ih.1 _ calls hnone.1) hnone.2
        fun calls => ih.2.1 _ calls hnone.2
    · exact inTurn_of_no_calls (fun calls => ih.2.1 _ calls hnone.2) hnone.1
        fun calls => ih.1 _ calls hnone.1
  | merge _ t f =>
    simp only [Expr.children, List.forall_mem_cons] at ih
    rw [operatorCalls, List.append_eq_nil_iff] at hnone
    rw [Finishes, hnone.1, hnone.2]
    split
    · exact ⟨ih.1 _ calls hnone.1, not_call_nil⟩
    · exact ⟨ih.2.1 _ calls hnone.2, not_call_nil⟩
    · exact not_call_nil
  | call node args =>
    rw [operatorCalls] at hnone
    rw [Finishes]
    split at hnone
    · cases hnone
    · next hcondact =>
      rw [if_neg hcondact]
      rw [List.append_eq_nil_iff] at hnone
      split
      · rw [operatorCalls, if_neg hcondact, hnone.1, hnone.2]
        exact not_call_nil
      · next n hn =>
        have hkind : n.kind ≠ .operator := by
          intro hop
          rw [operatorCall_of_callee hn, if_pos hop] at hnone
          cases hnone.1
        exact ⟨finishesList_of_no_calls ih 0 calls hnone.2,
          then_of_not_left hkind fun _ _ _ hop => absurd hop hkind⟩
  | tuple items | array items => exact finishesList_of_no_calls ih 0 calls hnone
  | struct _ fields => exact finishesFields_of_no_calls ih 0 calls hnone
  | iterate kind node init arrays =>
    cases init with
    | none =>
      rw [Finishes]
      split
      · rw [show operatorCallsList p site 0 arrays = [] from hnone]
        exact not_call_nil
      · exact finishesArrays_of_no_calls ih 0 calls hnone
    | some seed =>
      replace hnone := List.append_eq_nil_iff.mp hnone
      rw [Finishes, hnone.1, hnone.2]
      split
      · exact not_call_nil
      · refine ⟨finishesArrays_of_no_calls (fun a ha => ih a (List.mem_cons_of_mem _ ha)) 1 calls hnone.2,
          then_of_not_left not_call_nil fun arrs calls' _ => ?_⟩
        split
        · exact ih seed List.mem_cons_self _ calls' hnone.1
        · exact not_call_nil

end

/-- A computation changes no instance but those at the given sites. -/
def Keeps {α : Type} (sites : Site → Prop) (x : EvalM α) : Prop :=
  ∀ calls s, ¬ sites s → (x calls).2 s = calls s

namespace Keeps

variable {α β : Type} {sites sites' : Site → Prop} {x : EvalM α}

theorem of_same (h : ∀ calls, (x calls).2 = calls) : Keeps sites x := fun calls _ _ => by rw [h calls]

protected theorem lift (r : Except Fault α) : Keeps sites (.lift r) := of_same fun _ => rfl

protected theorem pure (a : α) : Keeps sites (pure a) := of_same fun _ => rfl

theorem mono (h : Keeps sites x) (hle : ∀ s, sites s → sites' s) : Keeps sites' x :=
  fun calls s hs => h calls s fun hs' => hs (hle s hs')

protected theorem bind {f : α → EvalM β} (hx : Keeps sites x) (hf : ∀ a, Keeps sites (f a)) :
    Keeps sites (x >>= f) := by
  intro calls s hs
  obtain ⟨r, calls₁, hrun⟩ : ∃ r calls₁, x calls = (r, calls₁) := ⟨_, _, rfl⟩
  have hkeep := hx calls s hs
  rw [hrun] at hkeep
  rw [Stateful.bind_apply, hrun]
  cases r with
  | ok a => exact (hf a calls₁ s hs).trans hkeep
  | error e => exact hkeep

theorem discard {x : EvalM Value} (h : Keeps sites x) : Keeps sites (discard x) := by
  intro calls s hs
  have hkeep := h calls s hs
  unfold Simulator.discard
  split
  · next hrun => rwa [hrun] at hkeep
  · next hrun => rwa [hrun] at hkeep

theorem stepUntaken {x : EvalM Value} (h : Keeps sites x) (other : Expr) :
    Keeps sites (stepUntaken other x) := by
  unfold Simulator.stepUntaken
  split
  · exact h.discard
  · exact .pure ()

end Keeps

/-- The sites of an expression. -/
def Below (site : Site) (e : Expr) (s : Site) : Prop := s ∈ (site.subterms e).map (·.1)

def BelowList (site : Site) (k : Nat) (es : List Expr) (s : Site) : Prop :=
  s ∈ (site.subtermsList k es).map (·.1)

/-- A callee changes the instance at its call site only. -/
def CalleesKeep (p : Project) (cs : Callees) : Prop :=
  ∀ site n vs consts, n ∈ p.allNodes → Keeps (· = site) (cs.stepInstance site n vs consts)

section

variable {m : Machine} {p : Project} {cs : Callees} {fr : Frame} {site : Site}

theorem belowList_cons {k : Nat} {e : Expr} {es : List Expr} {s : Site} :
    BelowList site k (e :: es) s ↔ Below (site.child k) e s ∨ BelowList site (k + 1) es s := by
  rw [BelowList, Site.subtermsList, List.map_append, List.mem_append]
  rfl

theorem below_iff {e : Expr} {s : Site} :
    Below site e s ↔ s = site ∨ BelowList site 0 e.children s := by
  rw [Below, Site.subterms_eq, List.map_cons, List.mem_cons]
  rfl

section

variable {es : List Expr} (h : ∀ e ∈ es, ∀ site : Site, Keeps (Below site e) (eval m p cs fr site e))
include h

theorem keeps_evalList (k : Nat) : Keeps (BelowList site k es) (evalList m p cs fr site k es) := by
  induction es generalizing k with
  | nil => exact .pure []
  | cons e es ih =>
    rw [List.forall_mem_cons] at h
    refine ((h.1 _).mono fun s hs => belowList_cons.mpr (.inl hs)).bind fun v => ?_
    exact ((ih h.2 (k + 1)).mono fun s hs => belowList_cons.mpr (.inr hs)).bind fun vs => .pure _

theorem keeps_evalArrays (k : Nat) : Keeps (BelowList site k es) (evalArrays m p cs fr site k es) := by
  induction es generalizing k with
  | nil => exact .pure []
  | cons e es ih =>
    rw [List.forall_mem_cons] at h
    refine ((h.1 _).mono fun s hs => belowList_cons.mpr (.inl hs)).bind fun v => ?_
    refine (Keeps.lift _).bind fun xs => ?_
    exact ((ih h.2 (k + 1)).mono fun s hs => belowList_cons.mpr (.inr hs)).bind fun vs => .pure _

end

theorem keeps_evalFields {fields : List (String × Expr)}
    (h : ∀ e ∈ fields.map (·.2), ∀ site : Site, Keeps (Below site e) (eval m p cs fr site e)) (k : Nat)
    (r : List (String × Value)) :
    Keeps (BelowList site k (fields.map (·.2))) (evalFields m p cs fr site k r fields) := by
  induction fields generalizing k r with
  | nil => exact .pure r
  | cons f fields ih =>
    rw [List.map_cons, List.forall_mem_cons] at h
    rw [List.map_cons]
    refine ((h.1 _).mono fun s hs => belowList_cons.mpr (.inl hs)).bind fun v => ?_
    exact (ih h.2 (k + 1) _).mono fun s hs => belowList_cons.mpr (.inr hs)

theorem keeps_setLastOutputs (v : Value) : Keeps (· = site) (setLastOutputs site v) :=
  fun _ _ hs => if_neg hs

/-- The outputs of a `condact` whose condition does not hold. -/
theorem keeps_held {defaults : List Expr}
    (h : ∀ e ∈ defaults, ∀ site : Site, Keeps (Below site e) (eval m p cs fr site e)) :
    Keeps (BelowList site 2 defaults) (held m p cs fr site defaults) := by
  refine Keeps.bind (.of_same fun _ => rfl) fun calls => ?_
  split
  · exact .pure _
  · refine (keeps_evalList h 2).bind fun vs => ?_
    split <;> exact .pure _

/-- What a `condact` decides about. -/
theorem keeps_decided {call : Expr} {defaults : List Expr}
    (h : ∀ e ∈ call :: defaults, ∀ site : Site, Keeps (Below site e) (eval m p cs fr site e)) (c : Value) :
    Keeps (fun s => s = site ∨ BelowList site 1 (call :: defaults) s)
      (decided m p cs fr site call defaults c) := by
  rw [List.forall_mem_cons] at h
  refine (Keeps.lift _).bind fun b => ?_
  cases b with
  | true =>
    refine ((h.1 _).mono fun s hs => .inr (belowList_cons.mpr (.inl hs))).bind fun v => ?_
    exact ((keeps_setLastOutputs v).mono fun s hs => .inl hs).bind fun _ => .pure _
  | false =>
    exact (keeps_held h.2).mono fun s hs => .inr (belowList_cons.mpr (.inr hs))

/-- An evaluation changes the instances of its own sites only. -/
theorem keeps_eval (hcs : CalleesKeep p cs) (e : Expr) : ∀ site : Site,
    Keeps (Below site e) (eval m p cs fr site e) := by
  induction e using Expr.children_induct with
  | h e ih =>
  intro site
  have hchild {k : Nat} {c : Expr} (hk : e.children[k]? = some c) :
      Keeps (Below site e) (eval m p cs fr (site.child k) c) := by
    refine (ih c (List.mem_of_getElem? hk) _).mono fun s hs => below_iff.mpr (.inr ?_)
    rw [BelowList, Site.subtermsList_eq, List.map_flatMap, List.mem_flatMap]
    exact ⟨(c, k), List.mem_zipIdx_iff_getElem?.mpr hk, hs⟩
  cases e with
  | const lit => exact .pure _
  | var name => exact .lift _
  | unary _ arg | cast _ arg | field arg _ => exact (hchild (k := 0) rfl).bind fun v => .lift _
  | when arg _ _ => exact hchild (k := 0) rfl
  | binary _ a b | index a b =>
    exact (hchild (k := 0) rfl).bind fun v => (hchild (k := 1) rfl).bind fun w => .lift _
  | ifThenElse c t e =>
    refine (hchild (k := 0) rfl).bind fun v => (Keeps.lift _).bind fun b => ?_
    cases b with
    | true =>
      exact (hchild (k := 1) rfl).bind fun v => ((hchild (k := 2) rfl).stepUntaken e).bind fun _ => .pure _
    | false =>
      exact (hchild (k := 2) rfl).bind fun v => ((hchild (k := 1) rfl).stepUntaken t).bind fun _ => .pure _
  | pre arg => exact .lift _
  | arrow a b =>
    rw [eval]
    split
    · exact (hchild (k := 0) rfl).bind fun v => ((hchild (k := 1) rfl).stepUntaken b).bind fun _ => .pure _
    · exact (hchild (k := 1) rfl).bind fun v => ((hchild (k := 0) rfl).stepUntaken a).bind fun _ => .pure _
  | merge clock t f =>
    rw [eval]
    split
    · exact (hchild (k := 0) rfl).bind fun v => .pure _
    · exact (hchild (k := 1) rfl).bind fun v => .pure _
    · exact .lift _
    · exact .lift _
  | call node args =>
    by_cases hcondact : node = condact ∧ (p.findNode node).isNone
    · rcases args with _ | ⟨clock, _ | ⟨call, defaults⟩⟩
      · rw [eval_condact_arity hcondact (by simp)]
        exact .lift _
      · rw [eval_condact_arity hcondact (by simp)]
        exact .lift _
      · rw [eval_condact hcondact]
        have hrest : ∀ a ∈ call :: defaults, ∀ site : Site, Keeps (Below site a) (eval m p cs fr site a) :=
          fun a ha => ih a (List.mem_cons_of_mem _ ha)
        refine (hchild (k := 0) rfl).bind fun c => (keeps_decided hrest c).mono fun s hs => ?_
        exact below_iff.mpr (hs.imp id fun hs => belowList_cons.mpr (.inr hs))
    · rw [eval_call hcondact]
      cases hcallee : callee p node args.length with
      | error e => exact .of_same fun _ => rfl
      | ok n =>
        change Keeps _ (do
          let vs ← evalList m p cs fr site 0 args
          cs.stepInstance site n vs fr.env)
        have hmem : n ∈ p.allNodes := Project.mem_of_findNode (callee_eq_ok hcallee).1
        refine ((keeps_evalList ih 0).mono fun s hs => below_iff.mpr (.inr hs)).bind fun vs => ?_
        exact (hcs site n vs fr.env hmem).mono fun s hs => below_iff.mpr (.inl hs)
  | tuple items | array items =>
    exact ((keeps_evalList ih 0).mono fun s hs => below_iff.mpr (.inr hs)).bind fun vs => .pure _
  | struct _ fields =>
    exact ((keeps_evalFields ih 0 []).mono fun s hs => below_iff.mpr (.inr hs)).bind fun r => .pure _
  | iterate kind node init arrays =>
    have hlist (k : Nat) : Keeps (BelowList site k arrays) (evalArrays m p cs fr site k arrays) :=
      keeps_evalArrays (fun a ha => ih a (List.mem_append_right _ ha)) k
    cases init with
    | none =>
      rw [eval]
      refine (Keeps.lift _).bind fun f => ?_
      refine ((hlist 0).mono fun s hs => below_iff.mpr (.inr hs)).bind fun arrs => ?_
      refine (Keeps.lift _).bind fun rows => ?_
      cases kind with
      | map => exact (Keeps.lift _).bind fun out => .pure _
      | fold => exact .lift _
    | some seed =>
      rw [eval]
      refine (Keeps.lift _).bind fun f => ?_
      refine ((hlist 1).mono fun s hs => below_iff.mpr
        (.inr (belowList_cons.mpr (.inr hs)))).bind fun arrs => ?_
      refine (Keeps.lift _).bind fun rows => ?_
      cases kind with
      | map => exact (Keeps.lift _).bind fun out => .pure _
      | fold =>
        refine (hchild (k := 0) rfl).bind fun acc => ?_
        cases arrs with
        | nil => exact .of_same fun _ => rfl
        | cons elems _ => exact .lift _

end

/-- What is known of the callees: an operator that finishes and returns has ticked, and
a function steps no instance. -/
structure CalleesTick (p : Project) (cs : Callees) (fin : FinishesCallees) : Prop where
  keep : CalleesKeep p cs
  operator : ∀ {site : Site} {n : NodeDef} {vs : List Value} {consts : Env} {calls calls' : Calls}
    {v : Value}, n ∈ p.allNodes → n.kind = .operator → fin site n vs consts calls →
    cs.stepInstance site n vs consts calls = (.ok v, calls') → Tick p (site, some n) calls calls'
  function : ∀ (site : Site) {n : NodeDef} (vs : List Value) (consts : Env) (calls : Calls),
    n ∈ p.allNodes → n.kind = .function → (cs.stepInstance site n vs consts calls).2 = calls

section

variable {m : Machine} {p : Project} {cs : Callees} {fin : FinishesCallees} {fr : Frame}
  {site : Site} {calls : Calls}

theorem idle_of_not_call {l : Instances} (h : ¬ l.Call) : Idle (Tick p) l := by
  intro ⟨s, n⟩ hc calls
  cases n with
  | none => exact fun _ _ => rfl
  | some n => exact absurd ⟨_, hc, rfl⟩ h

theorem call_of_not_idle {l : Instances} (h : ¬ Idle (Tick p) l) : l.Call :=
  by_contra fun hno => h (idle_of_not_call hno)

/-- What changes the instances that a `condact` decides about only. -/
theorem path_of_decided {l : List Site} {calls calls' : Calls}
    (h : ∀ s, s ∉ l → calls' s = calls s) :
    Path (Tick p) (l.map fun s => (s, none)) calls calls' := by
  induction l generalizing calls with
  | nil =>
    obtain rfl : calls' = calls := funext fun s => h s List.not_mem_nil
    exact .nil _
  | cons site l ih =>
    refine .cons (t := calls.set site (calls' site)) (fun s hs => if_neg hs) (ih fun s hs => ?_)
    unfold Calls.set
    split
    · next heq => rw [heq]
    · next hne => exact h s (by simp [hne, hs])

theorem Keeps.performs {α : Type} {x : EvalM α} {l : List Site} (h : Keeps (· ∈ l) x) :
    Performs (Tick p) (l.map fun s => (s, none)) x calls :=
  ⟨_, .refl _, path_of_decided fun s hs => h calls s hs⟩

theorem inTurn.performs {α β : Type} {x : EvalM α} {f : α → EvalM β} {finishes rest : Calls → Prop}
    {l left : Instances} (h : inTurn x finishes left rest calls)
    (hx : finishes calls → Performs (Tick p) l x calls)
    (hf : ∀ a calls', rest calls' → Performs (Tick p) left (f a) calls') :
    Performs (Tick p) (l ++ left) (x >>= f) calls :=
  (hx h.1).bind (h.2.mono call_of_not_idle fun a calls' _ hrest => hf a calls' hrest)

theorem performs_discard {l : Instances} {x : EvalM Value} (h : Performs (Tick p) l x calls) :
    Performs (Tick p) l (discard x) calls := by
  obtain ⟨l', hperm, hpath⟩ := h
  refine ⟨l', hperm, ?_⟩
  unfold discard
  split
  · next h => rwa [h] at hpath
  · next h => rwa [h] at hpath

theorem operatorCallsList_of_nil {es : List Expr}
    (h : ∀ e ∈ es, ∀ site : Site, operatorCalls p site e = []) (k : Nat) :
    operatorCallsList p site k es = [] := by
  induction es generalizing k with
  | nil => rfl
  | cons e es ih =>
    rw [List.forall_mem_cons] at h
    rw [operatorCallsList, h.1, ih h.2, List.nil_append]

theorem operatorCalls_of_not_hasCall (e : Expr) : e.hasCall = false →
    ∀ site : Site, operatorCalls p site e = [] := by
  induction e using Expr.children_induct with
  | h e ih =>
  intro hcall site
  rw [Expr.hasCall, List.any_eq_false] at hcall
  have hchild : ∀ c ∈ e.children, ∀ site : Site, operatorCalls p site c = [] := by
    intro c hc
    refine ih c hc ?_
    rw [Expr.hasCall, List.any_eq_false]
    exact fun t ht => hcall t (Expr.subterms_of_child hc ht)
  have hlist : operatorCallsList p site 0 e.children = [] := operatorCallsList_of_nil hchild 0
  cases e with
  | const | var => rfl
  | unary | pre | cast | when | field | binary | arrow | index | merge | ifThenElse =>
    simp only [Expr.children, operatorCallsList, List.append_nil] at hlist
    exact hlist
  | tuple | array => exact hlist
  | struct _ fields =>
    rw [operatorCalls, operatorCallsFields_eq]
    exact hlist
  | call node args => exact absurd rfl (hcall _ (Expr.self_mem_subterms _))
  | iterate kind node init arrays =>
    cases init with
    | none => exact hlist
    | some seed => exact hlist

theorem performs_stepUntaken {e : Expr} {x : EvalM Value}
    (h : Performs (Tick p) (operatorCalls p site e) x calls) :
    Performs (Tick p) (operatorCalls p site e) (stepUntaken e x) calls := by
  unfold stepUntaken
  split
  · exact performs_discard h
  · next hcall =>
    rw [operatorCalls_of_not_hasCall e (by simpa using hcall)]
    exact .pure ()

/-- One side for its value and the other for its state. -/
theorem inTurn.performs_sides {x y : EvalM Value} {taken untaken : Expr} {s t : Site}
    {finishes rest : Calls → Prop} {g : Value → Value}
    (h : inTurn x finishes (operatorCalls p t untaken) rest calls)
    (hx : finishes calls → Performs (Tick p) (operatorCalls p s taken) x calls)
    (hy : ∀ calls, rest calls → Performs (Tick p) (operatorCalls p t untaken) y calls) :
    Performs (Tick p) (operatorCalls p s taken ++ operatorCalls p t untaken) (do
      let v ← x
      stepUntaken untaken y
      pure (g v)) calls :=
  h.performs hx fun _ calls' hrest =>
    (performs_stepUntaken (hy calls' hrest)).andThen fun _ _ _ => .pure _

section

variable {es : List Expr} (h : ∀ e ∈ es, ∀ (site : Site) (calls : Calls),
  Finishes m p cs fin fr site e calls →
    Performs (Tick p) (operatorCalls p site e) (eval m p cs fr site e) calls)
include h

theorem performs_evalList (k : Nat) (calls : Calls)
    (hfin : FinishesList m p cs fin fr site k es calls) :
    Performs (Tick p) (operatorCallsList p site k es) (evalList m p cs fr site k es) calls := by
  induction es generalizing k calls with
  | nil => exact .pure []
  | cons e es ih =>
    rw [List.forall_mem_cons] at h
    rw [FinishesList] at hfin
    rw [operatorCallsList, evalList]
    exact hfin.performs (h.1 _ calls) fun v calls' hrest =>
      (ih h.2 (k + 1) calls' hrest).andThen fun _ _ _ => .pure _

theorem performs_evalArrays (k : Nat) (calls : Calls)
    (hfin : FinishesArrays m p cs fin fr site k es calls) :
    Performs (Tick p) (operatorCallsList p site k es) (evalArrays m p cs fr site k es) calls := by
  induction es generalizing k calls with
  | nil => exact .pure []
  | cons e es ih =>
    rw [List.forall_mem_cons] at h
    rw [FinishesArrays] at hfin
    rw [operatorCallsList]
    refine (hfin.performs (fun hfin => (h.1 _ calls hfin).andThen fun _ _ _ => .lift _)
      fun xs calls' hrest => (ih h.2 (k + 1) calls' hrest).andThen fun xss _ _ => .pure (xs :: xss)).congr ?_
    rw [evalArrays, Stateful.bind_assoc]

end

theorem performs_evalFields {fields : List (String × Expr)}
    (h : ∀ e ∈ fields.map (·.2), ∀ (site : Site) (calls : Calls), Finishes m p cs fin fr site e calls →
      Performs (Tick p) (operatorCalls p site e) (eval m p cs fr site e) calls)
    (k : Nat) (r : List (String × Value)) (calls : Calls)
    (hfin : FinishesFields m p cs fin fr site k fields calls) :
    Performs (Tick p) (operatorCallsFields p site k fields) (evalFields m p cs fr site k r fields)
      calls := by
  induction fields generalizing k r calls with
  | nil => exact .pure r
  | cons f fields ih =>
    rw [List.map_cons, List.forall_mem_cons] at h
    rw [FinishesFields] at hfin
    rw [operatorCallsFields, evalFields]
    exact hfin.performs (h.1 _ calls) fun v calls' hrest => ih h.2 (k + 1) _ calls' hrest

theorem performs_condact (hcs : CalleesTick p cs fin) {node : String} {args : List Expr}
    (h : ∀ e ∈ args, ∀ (site : Site) (calls : Calls), Finishes m p cs fin fr site e calls →
      Performs (Tick p) (operatorCalls p site e) (eval m p cs fr site e) calls)
    (hnode : isCondact p node = true) (hfin : FinishesCondact m p cs fin fr site args calls) :
    Performs (Tick p) ((site, none) :: condactCalls p site args)
      (eval m p cs fr site (.call node args)) calls := by
  have hcondact := isCondact_iff.mp hnode
  match args with
  | [] =>
    rw [eval_condact_arity hcondact (by simp)]
    exact .idle (idle_of_not_call (by simp [Instances.Call, condactCalls])) rfl
  | [clock] =>
    rw [eval_condact_arity hcondact (by simp)]
    refine .idle (idle_of_not_call fun hcall => hfin ?_) rfl
    obtain ⟨c, hc, hsome⟩ := hcall
    rcases List.mem_cons.mp hc with rfl | hc
    · cases hsome
    · exact ⟨c, hc, hsome⟩
  | clock :: call :: defaults =>
    rw [eval_condact hcondact]
    have hdecided : ∀ c, Keeps (· ∈ site :: (site.subtermsList 1 (call :: defaults)).map (·.1))
        (decided m p cs fr site call defaults c) := fun c =>
      (keeps_decided (fun e _ => keeps_eval hcs.keep e) c).mono fun s hs => List.mem_cons.mpr hs
    have hlist : (site, none) :: condactCalls p site (clock :: call :: defaults) =
        (site, none) :: (operatorCalls p (site.child 0) clock ++
          ((site.subtermsList 1 (call :: defaults)).map (·.1)).map fun s => (s, none)) := by
      rw [condactCalls, List.map_map]
      rfl
    rw [hlist]
    refine Performs.perm ?_ List.perm_middle
    refine (h clock List.mem_cons_self _ calls hfin.1).bind
      (hfin.2.mono (fun hidle => hidle (idle_of_not_call ?_)) fun c calls' _ _ => (hdecided c).performs)
    simp [Instances.Call]

theorem performs_call (hcs : CalleesTick p cs fin) {node : String} {args : List Expr}
    (h : ∀ e ∈ args, ∀ (site : Site) (calls : Calls), Finishes m p cs fin fr site e calls →
      Performs (Tick p) (operatorCalls p site e) (eval m p cs fr site e) calls)
    (hfin : Finishes m p cs fin fr site (.call node args) calls) :
    Performs (Tick p) (operatorCalls p site (.call node args))
      (eval m p cs fr site (.call node args)) calls := by
  rw [Finishes] at hfin
  rw [operatorCalls]
  split at hfin
  · next hnode =>
    rw [if_pos hnode]
    exact performs_condact hcs h hnode hfin
  · next hnode =>
    rw [if_neg hnode, eval_call (not_isCondact hnode)]
    split at hfin
    · next e he =>
      rw [operatorCalls, if_neg hnode] at hfin
      rw [he]
      exact .idle (idle_of_not_call hfin) rfl
    · next n hn =>
      rw [hn]
      change Performs _ _ (do
        let vs ← evalList m p cs fr site 0 args
        cs.stepInstance site n vs fr.env) calls
      have hmem : n ∈ p.allNodes := Project.mem_of_findNode (callee_eq_ok hn).1
      rw [operatorCall_of_callee hn]
      by_cases hop : n.kind = .operator
      · rw [if_pos hop]
        refine Performs.perm ?_ List.perm_append_comm
        refine (performs_evalList h 0 calls hfin.1).bind (hfin.2.mono (fun _ => hop) ?_)
        intro vs calls₁ _ hstep
        obtain ⟨hbody, v, calls₂, hv⟩ := hstep hop
        refine ⟨[(site, some n)], .refl _, .cons (hcs.operator hmem hop hbody hv) ?_⟩
        rw [hv]
        exact .nil _
      · rw [if_neg hop, List.nil_append]
        refine (performs_evalList h 0 calls hfin.1).andThen fun vs calls₁ _ => .idle .nil ?_
        have hfunction : n.kind = .function := by
          have himported := (callee_eq_ok hn).2.2
          cases hkind : n.kind <;> simp_all [NodeDef.isImported]
        exact hcs.function site vs fr.env calls₁ hmem hfunction

theorem performs_iterate {kind : IterKind} {node : String} {init : Option Expr} {arrays : List Expr}
    (h : ∀ e ∈ init.toList ++ arrays, ∀ (site : Site) (calls : Calls),
      Finishes m p cs fin fr site e calls →
        Performs (Tick p) (operatorCalls p site e) (eval m p cs fr site e) calls)
    (hfin : Finishes m p cs fin fr site (.iterate kind node init arrays) calls) :
    Performs (Tick p) (operatorCalls p site (.iterate kind node init arrays))
      (eval m p cs fr site (.iterate kind node init arrays)) calls := by
  cases init with
  | none =>
    rw [Finishes] at hfin
    rw [eval, operatorCalls]
    split at hfin
    · next e he =>
      rw [he]
      exact .idle (idle_of_not_call hfin) rfl
    · next f hf =>
      rw [hf]
      refine (performs_evalArrays h 0 calls hfin).andThen fun arrs calls' _ => ?_
      refine (Performs.lift _).andThen fun rows _ _ => ?_
      cases kind with
      | map => exact (Performs.lift _).andThen fun _ _ _ => .pure _
      | fold => exact .lift _
  | some seed =>
    rw [Finishes] at hfin
    rw [Option.toList_some, List.singleton_append, List.forall_mem_cons] at h
    rw [eval, operatorCalls]
    split at hfin
    · next e he =>
      rw [he]
      exact .idle (idle_of_not_call hfin) rfl
    · next f hf =>
      rw [hf]
      refine Performs.perm ?_ List.perm_append_comm
      refine (performs_evalArrays h.2 1 calls hfin.1).bind (hfin.2.mono call_of_not_idle
        fun arrs calls' _ hseed => ?_)
      cases hrows : transpose arrs with
      | error e =>
        rw [hrows] at hseed
        refine .idle (idle_of_not_call ?_) rfl
        cases kind <;> exact hseed
      | ok rows =>
        rw [hrows] at hseed
        cases kind with
        | map =>
          refine Performs.append_idle (l := []) ?_ (idle_of_not_call hseed)
          refine (Performs.lift _).andThen fun _ _ _ => ?_
          exact (Performs.lift _).andThen fun _ _ _ => .pure _
        | fold =>
          refine (h.1 _ calls' hseed).andThen fun acc _ _ => ?_
          cases arrs with
          | nil => exact .fail _
          | cons elems _ => exact .lift _

/-- Each operator call of an expression that finishes runs its instance once. -/
theorem performs_eval (hcs : CalleesTick p cs fin) (e : Expr) : ∀ (site : Site) (calls : Calls),
    Finishes m p cs fin fr site e calls →
      Performs (Tick p) (operatorCalls p site e) (eval m p cs fr site e) calls := by
  induction e using Expr.children_induct with
  | h e ih =>
  intro site calls hfin
  cases e with
  | const lit => exact .pure _
  | var name => exact .lift _
  | unary _ arg | cast _ arg | field arg _ =>
    exact (ih arg List.mem_cons_self _ calls hfin).andThen fun _ _ _ => .lift _
  | when arg _ _ => exact ih arg List.mem_cons_self _ calls hfin
  | binary _ a b | index a b =>
    simp only [Expr.children, List.forall_mem_cons] at ih
    exact hfin.performs (ih.1 _ calls) fun _ calls' hrest =>
      (ih.2.1 _ calls' hrest).andThen fun _ _ _ => .lift _
  | ifThenElse c t e =>
    simp only [Expr.children, List.forall_mem_cons] at ih
    refine (ih.1 _ calls hfin.1).bind (hfin.2.mono call_of_not_idle fun v calls' _ hsides => ?_)
    split at hsides
    · exact hsides.performs_sides (g := fun v => commonReal p fr.env v e) (ih.2.1 _ calls')
        fun calls => ih.2.2.1 _ calls
    · exact (hsides.performs_sides (g := fun v => commonReal p fr.env v t) (ih.2.2.1 _ calls')
        fun calls => ih.2.1 _ calls).perm List.perm_append_comm
    · next hnot hnot' =>
      refine .idle (idle_of_not_call hsides) ?_
      cases v with
      | bool b => cases b <;> contradiction
      | _ => rfl
  | pre arg =>
    rw [Finishes] at hfin
    exact .idle (idle_of_not_call hfin) rfl
  | arrow a b =>
    simp only [Expr.children, List.forall_mem_cons] at ih
    rw [Finishes] at hfin
    rw [eval, operatorCalls]
    split at hfin
    · next hfirst =>
      rw [if_pos hfirst]
      exact hfin.performs_sides (g := fun v => commonReal p fr.env v b) (ih.1 _ calls)
        fun calls => ih.2.1 _ calls
    · next hfirst =>
      rw [if_neg hfirst]
      exact (hfin.performs_sides (g := fun v => commonReal p fr.env v a) (ih.2.1 _ calls)
        fun calls => ih.1 _ calls).perm List.perm_append_comm
  | merge clock t f =>
    simp only [Expr.children, List.forall_mem_cons] at ih
    rw [Finishes] at hfin
    rw [eval, operatorCalls]
    split at hfin
    · next hclock =>
      rw [hclock]
      exact ((ih.1 _ calls hfin.1).andThen fun _ _ _ => .pure _).append_idle (idle_of_not_call hfin.2)
    · next hclock =>
      rw [hclock]
      refine Performs.perm ?_ List.perm_append_comm
      exact ((ih.2.1 _ calls hfin.1).andThen fun _ _ _ => .pure _).append_idle (idle_of_not_call hfin.2)
    · next htrue hfalse =>
      split
      · next h => exact absurd h htrue
      · next h => exact absurd h hfalse
      · exact .idle (idle_of_not_call hfin) rfl
      · exact .idle (idle_of_not_call hfin) rfl
  | call node args => exact performs_call hcs ih hfin
  | tuple items | array items =>
    exact (performs_evalList ih 0 calls hfin).andThen fun _ _ _ => .pure _
  | struct _ fields =>
    exact (performs_evalFields ih 0 [] calls hfin).andThen fun _ _ _ => .pure _
  | iterate kind node init arrays => exact performs_iterate ih hfin

end

/-- The operator calls of equation `i`, where its clock is active. -/
def activeCalls (p : Project) (n : NodeDef) (info : ClockInfo) (env : Env) (i : Nat) : Instances :=
  match isActive info i env with
  | .ok true => equationCalls p n i
  | _ => []

section

variable {m : Machine} {p : Project} {cs : Callees} {fin : FinishesCallees} {n : NodeDef}
  {info : ClockInfo} {state : State}

theorem equationCalls_of_getElem? {i : Nat} {eq : Equation} (h : n.equations[i]? = some eq) :
    equationCalls p n i = operatorCalls p ⟨n.name, i, []⟩ eq.rhs := by
  rw [equationCalls, h]
  rfl

theorem activeCalls_eq_nil {env : Env} {i : Nat} (h : equationCalls p n i = []) :
    activeCalls p n info env i = [] := by
  unfold activeCalls
  split
  · exact h
  · rfl

theorem performs_equationStep (hcs : CalleesTick p cs fin) {env : Env} {i : Nat} {calls : Calls}
    (hfin : ∀ eq, n.equations[i]? = some eq → isActive info i env = .ok true →
      Finishes m p cs fin ⟨env, state, info.siteClocks⟩ ⟨n.name, i, []⟩ eq.rhs calls) :
    Performs (Tick p) (activeCalls p n info env i) (equationStep m p cs n info state env i) calls := by
  unfold equationStep
  cases heq : n.equations[i]? with
  | none =>
    rw [activeCalls_eq_nil (by rw [equationCalls, heq]; rfl)]
    exact .pure env
  | some eq =>
    cases hactive : isActive info i env with
    | error e =>
      rw [activeCalls, hactive]
      exact .idle .nil rfl
    | ok active =>
      cases active with
      | false =>
        rw [activeCalls, hactive]
        exact .pure env
      | true =>
        rw [activeCalls, hactive, equationCalls_of_getElem? heq]
        exact (performs_eval hcs eq.rhs _ calls (hfin eq heq hactive)).andThen fun _ _ _ => .lift _

/-- A body without operator calls steps no instance. -/
theorem equationSteps_of_no_calls (hcs : CalleesTick p cs fin) (hnone : ∀ i, equationCalls p n i = [])
    (order : List Nat) (env : Env) (calls : Calls) :
    Performs (Tick p) [] (equationSteps m p cs n info state order env) calls := by
  induction order generalizing env calls with
  | nil => exact .pure env
  | cons i order ih =>
    have hstep : Performs (Tick p) (activeCalls p n info env i)
        (equationStep m p cs n info state env i) calls :=
      performs_equationStep hcs fun eq heq _ =>
        finishes_of_no_calls eq.rhs _ calls ((equationCalls_of_getElem? heq).symm.trans (hnone i))
    rw [activeCalls_eq_nil (hnone i)] at hstep
    exact hstep.andThen fun env' calls' _ => ih env' calls'

theorem stepFunction_calls (hcs : CalleesTick p cs fin) (hp : FunctionsStateless p)
    (hn : n ∈ p.allNodes) (hkind : n.kind = .function) (site : Site) (vs : List Value) (consts : Env) (calls : Calls) :
    (stepInstance m p cs site n vs consts calls).2 = calls := by
  suffices h : Performs (Tick p) [] (stepInstance m p cs site n vs consts) calls from h.state_eq
  unfold stepInstance
  refine (Performs.lift _).andThen fun env _ _ => ?_
  refine (Performs.lift _).andThen fun order calls' _ => ?_
  rw [hkind]
  exact (equationSteps_of_no_calls hcs (hp n hn hkind) order env
    calls').andThen fun _ _ _ => .pure _

/-- Where every variable that has a value keeps it, a chain that is decided stays so. -/
theorem clockActiveOn_of_le {env final : Env} {conditions : List (String × Bool)} {active : Bool}
    (hle : ∀ c ∈ conditions, ∀ v, env c.1 = some v → final c.1 = some v)
    (h : clockActiveOn env conditions = .ok active) : clockActiveOn final conditions = .ok active := by
  induction conditions with
  | nil => exact h
  | cons c conditions ih =>
    obtain ⟨x, on⟩ := c
    rw [List.forall_mem_cons] at hle
    simp only [clockActiveOn] at h ⊢
    split at h
    · next b hb =>
      rw [hle.1 _ hb]
      simp only
      split at h
      · next hne => rw [if_pos hne, h]
      · next heq =>
        rw [if_neg heq]
        exact ih hle.2 h
    · cases h
    · cases h

/-- The variables of the clock of equation `i` are none of those that the equations define. -/
def ClockKept (p : Project) (n : NodeDef) (info : ClockInfo) (i : Nat) (later : List Nat) : Prop :=
  equationCalls p n i ≠ [] → ∀ ck ∈ info.equationClocks[i]?, ∀ c ∈ ck.conditions, ∀ j ∈ later,
    c.1 ∉ n.defines j

/-- An equation that has run decided its clock as the end of the cycle does. -/
theorem activeCalls_final {env env₁ env' final : Env} {i : Nat} {order : List Nat}
    {calls calls₁ calls' : Calls} (hkept : ClockKept p n info i (i :: order))
    (hstep : equationStep m p cs n info state env i calls = (.ok env₁, calls₁))
    (hrun : equationSteps m p cs n info state (i :: order) env calls = (.ok env', calls'))
    (hfinal : ∀ x v, env' x = some v → final x = some v) :
    activeCalls p n info env i = activeCalls p n info final i := by
  by_cases hnone : equationCalls p n i = []
  · rw [activeCalls_eq_nil hnone, activeCalls_eq_nil hnone]
  · obtain ⟨active, hactive⟩ : ∃ active, isActive info i env = .ok active := by
      unfold equationStep at hstep
      cases heq : n.equations[i]? with
      | none => exact absurd (by rw [equationCalls, heq]; rfl) hnone
      | some eq =>
        rw [heq] at hstep
        obtain ⟨active, _, hactive, -⟩ := Stateful.bind_eq_ok.mp hstep
        exact ⟨active, (Stateful.lift_eq_ok.mp hactive).1⟩
    have hsame : isActive info i final = .ok active := by
      unfold isActive at hactive ⊢
      split at hactive
      · next ck hck =>
        refine clockActiveOn_of_le (fun c hc v hv => hfinal _ _ ?_) hactive
        rw [equationSteps_frame hrun (hkept hnone ck hck c hc), hv]
      · exact hactive
    rw [activeCalls, activeCalls, hactive, hsame]

/-- Running equations runs the instances of those that are active. -/
theorem equationSteps_ticks (hcs : CalleesTick p cs fin) {order : List Nat} {env env' final : Env}
    {calls calls' : Calls}
    (hrun : equationSteps m p cs n info state order env calls = (.ok env', calls'))
    (hfin : FinishesSteps m p cs fin n info state order env calls)
    (hfinal : ∀ x v, env' x = some v → final x = some v)
    (hkept : ∀ before i after, order = before ++ i :: after → ClockKept p n info i (i :: after)) :
    Performs (Tick p) (order.flatMap (activeCalls p n info final))
      (equationSteps m p cs n info state order env) calls := by
  induction order generalizing env calls with
  | nil => exact .pure env
  | cons i order ih =>
    obtain ⟨env₁, calls₁, hstep, hrest⟩ := Stateful.bind_eq_ok.mp hrun
    have hhead := performs_equationStep hcs hfin.1
    rw [activeCalls_final (hkept [] i order rfl) hstep hrun hfinal] at hhead
    rw [List.flatMap_cons]
    refine hhead.bind ?_
    unfold Then
    rw [hstep]
    exact ih hrest (hfin.2 env₁ calls₁ hstep) fun before j after horder =>
      hkept (i :: before) j after (congrArg (i :: ·) horder)

theorem activeCalls_sublist (env : Env) (i : Nat) :
    (activeCalls p n info env i).Sublist (equationCalls p n i) := by
  unfold activeCalls
  split
  · exact .refl _
  · exact List.nil_sublist _

/-- The call sites of an equation are in this equation. -/
theorem eq_of_mem_equationCalls {i : Nat} {c : Site × Option NodeDef} (h : c ∈ equationCalls p n i) :
    c.1.eq = i := by
  cases heq : n.equations[i]? with
  | none => simp [equationCalls, heq] at h
  | some eq =>
    rw [equationCalls_of_getElem? heq] at h
    obtain ⟨x, hx, hxc⟩ := List.mem_map.mp
      ((operatorCalls_sublist eq.rhs ⟨n.name, i, []⟩).subset (List.mem_map_of_mem h))
    rw [← hxc]
    exact (Site.below eq.rhs ⟨n.name, i, []⟩ x hx).2.1

theorem equationCalls_nodup (n : NodeDef) (i : Nat) : ((equationCalls p n i).map (·.1)).Nodup := by
  cases heq : n.equations[i]? with
  | none => simp [equationCalls, heq]
  | some eq =>
    rw [equationCalls_of_getElem? heq]
    exact operatorCalls_nodup _ _

theorem activeCalls_nodup {order : List Nat} (horder : order.Nodup) (env : Env) :
    ((order.flatMap (activeCalls p n info env)).map (·.1)).Nodup := by
  rw [List.map_flatMap, List.nodup_flatMap]
  constructor
  · intro i _
    exact (equationCalls_nodup n i).sublist ((activeCalls_sublist env i).map _)
  · refine horder.imp ?_
    intro i j hij s hi hj
    obtain ⟨c, hc, rfl⟩ := List.mem_map.mp hi
    obtain ⟨d, hd, hcd⟩ := List.mem_map.mp hj
    have hi := eq_of_mem_equationCalls ((activeCalls_sublist env i).subset hc)
    have hj := eq_of_mem_equationCalls ((activeCalls_sublist env j).subset hd)
    exact hij (hi.symm.trans (hcd ▸ hj))

/-- What a tick makes of the state at its own site. -/
def Becomes (p : Project) (c : Site × Option NodeDef) (t t' : Option State) : Prop :=
  ∀ n, c.2 = some n → ∃ u, t' = some u ∧ Ticked p n (t.getD .initial) u

/-- A tick changes the state at its own site only. -/
theorem tick_keyed {c : Site × Option NodeDef} {calls calls' : Calls} (h : Tick p c calls calls') :
    Becomes p c (calls c.1) (calls' c.1) ∧ ∀ site, site ≠ c.1 → calls' site = calls site := by
  obtain ⟨site, n⟩ := c
  cases n with
  | none => exact ⟨fun n hn => (Option.some_ne_none n hn.symm).elim, h⟩
  | some n =>
    obtain ⟨t', rfl, ht⟩ := h
    refine ⟨fun n hn => ?_, fun s hs => if_neg hs⟩
    cases hn
    exact ⟨t', if_pos rfl, ht⟩

/-- What the states of the instances are after a body that has performed its active calls. -/
theorem ticked_of_performs {order : List Nat} {s s' : State}
    (horder : order.Perm (List.range n.equations.length)) {l : Instances}
    (hperm : l.Perm (order.flatMap (activeCalls p n (clocksOf n) s'.prev)))
    (hpath : Path (Tick p) l s.childCalls s'.childCalls) (hcycle : s'.cycle = s.cycle + 1) :
    Ticked p n s s' := by
  have hnodup : (l.map (·.1)).Nodup :=
    (hperm.map _).nodup_iff.mpr (activeCalls_nodup (horder.nodup_iff.mpr List.nodup_range) _)
  obtain ⟨hdone, hkeep⟩ := hpath.keyed (·.1) (Becomes p) tick_keyed hnodup
  have hmem {i : Nat} (hactive : ActiveOn n i s'.prev) {c : Site × Option NodeDef}
      (hc : c ∈ equationCalls p n i) : c ∈ l := by
    have hlt : i < n.equations.length := by
      by_contra hge
      rw [equationCalls, List.getElem?_eq_none (Nat.le_of_not_lt hge)] at hc
      cases hc
    rw [hperm.mem_iff, List.mem_flatMap]
    refine ⟨i, horder.mem_iff.mpr (List.mem_range.mpr hlt), ?_⟩
    rw [activeCalls, hactive]
    exact hc
  refine .intro hcycle ?_ ?_ ?_
  · intro i hactive site callee hc
    obtain ⟨t', ht, -⟩ := hdone _ (hmem hactive hc) callee rfl
    rw [ht]
    rfl
  · intro i hactive site callee hc t' ht'
    obtain ⟨u, hu, hticked⟩ := hdone _ (hmem hactive hc) callee rfl
    rw [ht'] at hu
    cases hu
    exact hticked
  · intro i hinactive c hc
    refine hkeep c.1 fun hmem => ?_
    obtain ⟨d, hd, hdc⟩ := List.mem_map.mp hmem
    obtain ⟨j, -, hd⟩ := List.mem_flatMap.mp (hperm.mem_iff.mp hd)
    have hij : j = i := by
      rw [← eq_of_mem_equationCalls hc, ← hdc,
        eq_of_mem_equationCalls ((activeCalls_sublist _ j).subset hd)]
    subst hij
    unfold activeCalls at hd
    split at hd
    · next h => exact hinactive h
    · cases hd

theorem clockKept_of_after {order : List Nat} (hclocks : CallsAfterClocks p n)
    (horder : evaluationOrder n = .ok order) (before : List Nat) (i : Nat) (after : List Nat)
    (hsplit : order = before ++ i :: after) : ClockKept p n (clocksOf n) i (i :: after) := by
  intro hcalls ck hck c hc j hj hdef
  have hreads : c.1 ∈ n.clockReads i := by
    unfold clocksOf at hck
    split at hck
    · rw [NodeDef.clockReads, hck]
      exact List.mem_map_of_mem hc
    · cases hck
  have hbefore := hclocks order horder i hcalls c.1 hreads j hdef
  have hnodup : order.Nodup := (evaluationOrder_placed horder).1.nodup
  rw [hsplit] at hbefore hnodup
  exact (List.nodup_append.mp hnodup).2.2 j (hbefore.mem_left hnodup) j hj rfl

theorem keeps_stepOperator (site : Site) (order : List Nat) (env : Env) :
    Keeps (· = site) (stepOperator m p cs site n order env) := by
  intro calls s hs
  have hset (t : Option State) : calls.set site t s = calls s := if_neg hs
  obtain ⟨r, childCalls, hbody⟩ : ∃ r childCalls,
    equationSteps m p cs n (clocksOf n) ((calls site).getD .initial) order
      (reseed n ((calls site).getD .initial).prev env) ((calls site).getD .initial).childCalls =
        (r, childCalls) := ⟨_, _, rfl⟩
  simp only [stepOperator, Stateful.bind_apply, Stateful.get_apply, Stateful.set_apply,
    Stateful.within, hbody]
  cases r with
  | error e => exact hset none
  | ok env' =>
    obtain ⟨r, ticks, hticks⟩ : ∃ r ticks,
      tickChains env' (clocksOf n).chains ((calls site).getD .initial).clockTicks = (r, ticks) :=
        ⟨_, _, rfl⟩
    simp only [hticks]
    cases r with
    | error e => exact hset none
    | ok _ => exact hset _

theorem keeps_stepInstance (hcs : CalleesTick p cs fin) (hp : FunctionsStateless p)
    (hn : n ∈ p.allNodes) (site : Site) (vs : List Value) (consts : Env) :
    Keeps (· = site) (stepInstance m p cs site n vs consts) := by
  by_cases hkind : n.kind = .function
  · exact .of_same (stepFunction_calls hcs hp hn hkind site vs consts)
  · unfold stepInstance
    refine (Keeps.lift _).bind fun env => (Keeps.lift _).bind fun order => ?_
    split
    · contradiction
    · exact keeps_stepOperator site order env
    · exact .of_same fun _ => rfl

theorem stepOperator_ticks (hcs : CalleesTick p cs fin) (hclocks : CallsAfterClocks p n)
    (hkind : n.kind = .operator) {site : Site}
    {vs : List Value} {consts : Env} {calls calls' : Calls} {v : Value}
    (hfin : FinishesInstance m p cs fin site n vs consts calls)
    (hrun : stepInstance m p cs site n vs consts calls = (.ok v, calls')) :
    Tick p (site, some n) calls calls' := by
  unfold stepInstance at hrun
  obtain ⟨env, _, hlift, hrun⟩ := Stateful.bind_eq_ok.mp hrun
  obtain ⟨henv, rfl⟩ := Stateful.lift_eq_ok.mp hlift
  obtain ⟨order, _, hlift', hrun⟩ := Stateful.bind_eq_ok.mp hrun
  obtain ⟨horder, rfl⟩ := Stateful.lift_eq_ok.mp hlift'
  rw [hkind] at hrun
  have hsteps := hfin env order henv horder
  have hev : evaluationOrder n = .ok order := Except.mapError_eq_ok.mp horder
  obtain ⟨hplaced, hlen⟩ := evaluationOrder_placed hev
  obtain ⟨_, _, hget, hrun⟩ := Stateful.bind_eq_ok.mp hrun
  cases hget
  obtain ⟨_, _, hset, hrun⟩ := Stateful.bind_eq_ok.mp hrun
  cases hset
  obtain ⟨⟨env', childCalls⟩, _, hwithin, hrun⟩ := Stateful.bind_eq_ok.mp hrun
  obtain ⟨⟨_, ticks⟩, _, -, hrun⟩ := Stateful.bind_eq_ok.mp hrun
  obtain ⟨_, _, hset, hrun⟩ := Stateful.bind_eq_ok.mp hrun
  cases hset
  cases hrun
  obtain ⟨hbody, rfl⟩ := Stateful.within_eq_ok.mp hwithin
  refine ⟨_, rfl, ?_⟩
  have hfinal : ∀ x v, env' x = some v →
      (Env.extend ((calls site).getD .initial).prev env') x = some v := by
    intro x v hx
    rw [Env.extend, hx]
    rfl
  obtain ⟨l, hperm, hpath⟩ := equationSteps_ticks hcs hbody hsteps hfinal
    (clockKept_of_after hclocks hev)
  rw [hbody] at hpath
  exact ticked_of_performs (hplaced.perm hlen) hperm hpath rfl

/-- Callees at every nesting depth tick. -/
theorem calleesTick (m : Machine) (hp : FunctionsStateless p)
    (hclocks : ∀ n ∈ p.allNodes, CallsAfterClocks p n) (depth : Nat) :
    CalleesTick p (callees m p depth) (finishesCallees m p depth) := by
  induction depth with
  | zero =>
    refine ⟨fun site n vs consts _ => .of_same fun _ => rfl, ?_, fun _ _ _ _ _ _ _ => rfl⟩
    intro site n vs consts calls calls' v _ _ _ hrun
    cases hrun
  | succ depth ih =>
    refine ⟨fun site n vs consts hn => keeps_stepInstance ih hp hn site vs consts, ?_, ?_⟩
    · intro site n vs consts calls calls' v hn hkind hfin hrun
      exact stepOperator_ticks ih (hclocks n hn) hkind hfin hrun
    · intro site n vs consts calls hn hkind
      exact stepFunction_calls ih hp hn hkind site vs consts calls

/-- The state of a simulation as that of an instance of its node. -/
def Sim.instance (sim : Sim) : State := { sim.state with childCalls := sim.callStates }

theorem stepEnv_ticks {sim sim' : Sim} {inputs env : Env} (hp : FunctionsStateless p)
    (hclocks : ∀ n ∈ p.allNodes, CallsAfterClocks p n) (hn : sim.node ∈ p.allNodes)
    (horder : evaluationOrder sim.node = .ok sim.eqOrder) (hinfo : sim.clockInfo = clocksOf sim.node)
    (hfin : sim.Finishes m p inputs) (hstep : sim.stepEnv m p inputs = (.ok env, sim')) :
    Ticked p sim.node sim.instance sim'.instance := by
  obtain ⟨env₀, calls, ticks, hseed, hbody, rfl⟩ := Sim.stepEnv_eq_ok hstep
  obtain ⟨hplaced, hlen⟩ := evaluationOrder_placed horder
  have hfinal : ∀ x v, env x = some v → (Env.extend sim.state.prev env) x = some v := by
    intro x v hx
    rw [Env.extend, hx]
    rfl
  rw [hinfo] at hbody
  have hsteps := hfin env₀ hseed
  rw [hinfo] at hsteps
  obtain ⟨l, hperm, hpath⟩ := equationSteps_ticks (calleesTick m hp hclocks m.stack)
    hbody hsteps hfinal (clockKept_of_after (hclocks _ hn) horder)
  rw [hbody] at hpath
  exact ticked_of_performs (hplaced.perm hlen) hperm hpath rfl

/-- What a `condact` does with the instances of its call: those that it calls run one
cycle where the condition holds, and none of them changes elsewhere. -/
def Activates (m : Machine) (p : Project) (cs : Callees) (fr : Frame) (site : Site) (clock call : Expr)
    (calls calls' : Calls) : Prop :=
  ∃ holds calls₁, eval m p cs fr (site.child 0) clock calls = (.ok (.bool holds), calls₁) ∧
    (holds = true → ∀ s n, (s, some n) ∈ operatorCalls p (site.child 1) call →
      ∃ t', calls' s = some t' ∧ Ticked p n ((calls s).getD .initial) t') ∧
    (holds = false → ∀ s, Below (site.child 1) call s → calls' s = calls s)

theorem below_of_mem_operatorCalls {site : Site} {e : Expr} {c : Site × Option NodeDef}
    (h : c ∈ operatorCalls p site e) : Below site e c.1 :=
  (operatorCalls_sublist e site).subset (List.mem_map_of_mem h)

theorem not_below_child {site s : Site} {k l : Nat} {c d : Expr} (h : Below (site.child k) c s)
    (hkl : k ≠ l) : ¬ Below (site.child l) d s := by
  intro h'
  obtain ⟨x, hx, rfl⟩ := List.mem_map.mp h
  obtain ⟨y, hy, hyx⟩ := List.mem_map.mp h'
  exact hkl (Site.child_inj hx hy hyx.symm)

theorem not_belowList {site s : Site} {k l : Nat} {c : Expr} (h : Below (site.child k) c s) (hkl : k < l)
    (es : List Expr) : ¬ BelowList site l es s := by
  induction es generalizing l with
  | nil => exact List.not_mem_nil
  | cons e es ih =>
    rw [belowList_cons, not_or]
    exact ⟨not_below_child h (Nat.ne_of_lt hkl), ih (Nat.lt_succ_of_lt hkl)⟩

theorem condact_activates (hcs : CalleesTick p cs fin) {fr : Frame} {site : Site} {node : String}
    {clock call : Expr} {defaults : List Expr} {calls calls' : Calls} {v : Value}
    (hnode : isCondact p node = true)
    (hfin : FinishesCondact m p cs fin fr site (clock :: call :: defaults) calls)
    (hrun : eval m p cs fr site (.call node (clock :: call :: defaults)) calls = (.ok v, calls')) :
    Activates m p cs fr site clock call calls calls' := by
  rw [eval_condact (isCondact_iff.mp hnode)] at hrun
  obtain ⟨c, calls₁, hclock, hdecided⟩ := Stateful.bind_eq_ok.mp hrun
  obtain ⟨holds, _, hlift, hrest⟩ := Stateful.bind_eq_ok.mp hdecided
  obtain ⟨hholds, rfl⟩ := Stateful.lift_eq_ok.mp hlift
  obtain rfl : c = .bool holds := by
    cases c <;> simp [asBool, error] at hholds
    rw [hholds]
  have hkeep : ∀ s, Below (site.child 1) call s → calls₁ s = calls s := by
    intro s hs
    have hsame : (eval m p cs fr (site.child 0) clock calls).2 s = calls s :=
      keeps_eval hcs.keep clock (site.child 0) calls s (not_below_child hs Nat.one_ne_zero)
    rwa [hclock] at hsame
  refine ⟨holds, calls₁, hclock, ?_, ?_⟩
  · rintro rfl s n hmem
    have hs := below_of_mem_operatorCalls hmem
    obtain ⟨w, calls₂, hcall, hset⟩ := Stateful.bind_eq_ok.mp hrest
    have hthen := hfin.2
    unfold Then at hthen
    rw [hclock] at hthen
    obtain ⟨l, hperm, hpath⟩ := performs_eval hcs call (site.child 1) calls₁ (hthen rfl)
    rw [hcall] at hpath
    have hnodup : (l.map (·.1)).Nodup := (hperm.map _).nodup_iff.mpr (operatorCalls_nodup _ call)
    obtain ⟨t', ht', hticked⟩ := (hpath.keyed (·.1) (Becomes p) tick_keyed hnodup).1 _
      (hperm.mem_iff.mpr hmem) n rfl
    rw [hkeep s hs] at hticked
    refine ⟨t', ?_, hticked⟩
    cases hset
    have hsite : s ≠ site := by
      rintro rfl
      obtain ⟨x, hx, hxs⟩ := List.mem_map.mp hs
      have hlen := (Site.below call (s.child 1) x hx).2.2.length_le
      rw [hxs] at hlen
      exact absurd hlen (Nat.not_succ_le_self _)
    exact (if_neg hsite).trans ht'
  · rintro rfl s hs
    have hsame : (held m p cs fr site defaults calls₁).2 s = calls₁ s :=
      keeps_held (fun e _ => keeps_eval hcs.keep e) calls₁ s (not_belowList hs Nat.one_lt_two defaults)
    replace hrest : held m p cs fr site defaults calls₁ = (.ok v, calls') := hrest
    rw [hrest] at hsame
    exact hsame.trans (hkeep s hs)

end

/-- Where no function calls an operator and no equation that calls one runs before its
clock, each instance runs once in every cycle in which its equation's clock is active,
in every run in which all cycles finish; and a `condact` runs its call where its condition
holds. -/
theorem instances_tick (m : Machine) (p : Project) (hfunctions : FunctionsStateless p)
    (hclocks : ∀ n ∈ p.allNodes, CallsAfterClocks p n) :
    (∀ name sim rows cycles, Sim.new m p name = .ok sim → sim.cycles m p rows = .ok cycles →
      (∀ c ∈ cycles, c.sim.Finishes m p c.inputs) → ∀ c ∈ cycles, ∃ next,
        c.sim.stepEnv m p c.inputs = (.ok c.env, next) ∧
          Ticked p sim.node c.sim.instance next.instance) ∧
    ∀ depth fr site node clock call defaults calls v calls', isCondact p node = true →
      FinishesCondact m p (callees m p depth) (finishesCallees m p depth) fr site
        (clock :: call :: defaults) calls →
      eval m p (callees m p depth) fr site (.call node (clock :: call :: defaults)) calls =
        (.ok v, calls') →
      Activates m p (callees m p depth) fr site clock call calls calls' := by
  constructor
  · intro name sim rows cycles hnew hcycles hfin c hc
    obtain ⟨hnode, -, horder, hinfo, -⟩ := Sim.new_eq_ok hnew
    obtain ⟨t, ht⟩ := List.getElem?_of_mem hc
    obtain ⟨hsame, -, -, ⟨next, hstep⟩, -⟩ := Sim.cycles_getElem? hcycles ht
    refine ⟨next, hstep, ?_⟩
    have hticked := stepEnv_ticks hfunctions hclocks (by rw [hsame.node]; exact Project.mem_of_findNode hnode)
      (by rw [hsame.node, hsame.eqOrder]; exact horder) (by rw [hsame.node, hsame.clockInfo]; exact hinfo)
      (hfin c hc) hstep
    rwa [hsame.node] at hticked
  · intro depth fr site node clock call defaults calls v calls' hnode hfin hrun
    exact condact_activates (calleesTick m hfunctions hclocks depth) hnode hfin hrun

/-- `o = x -> pre o`. -/
def hold : NodeDef where
  name := "Hold"
  kind := .operator
  inputs := [⟨"x", .bool⟩]
  outputs := [⟨"o", .bool⟩]
  locals := []
  equations := [⟨["o"], .arrow (.var "x") (.pre (.var "o"))⟩]

/-- A node that steps `Hold` in an equation of its own. -/
def holder (rhs : Expr) : NodeDef where
  name := "N"
  kind := .operator
  inputs := [⟨"c", .bool⟩]
  outputs := [⟨"y", .bool⟩]
  locals := []
  equations := [⟨["y"], rhs⟩]

def holderProject (rhs : Expr) : Project := { packages := [{ name := "main", nodes := [hold, holder rhs] }] }

theorem functionsStateless_holder (rhs : Expr) : FunctionsStateless (holderProject rhs) := by
  intro n hn hkind
  simp [holderProject, Project.allNodes] at hn
  rcases hn with rfl | rfl <;> cases hkind

/-- The side that is not taken runs the instance too. -/
theorem instances_tick_untaken :
    let p := holderProject (.ifThenElse (.var "c") (.var "c") (.call "Hold" [.var "c"]))
    ∃ sim c next, Sim.new ⟨true, 8⟩ p "N" = .ok sim ∧
      sim.cycles ⟨true, 8⟩ p [Env.set (fun _ => none) "c" (.bool true)] = .ok [c] ∧
      c.sim.stepEnv ⟨true, 8⟩ p c.inputs = (.ok c.env, next) ∧
      Ticked p sim.node c.sim.instance next.instance := by
  intro p
  have hclocks : ∀ n ∈ p.allNodes, CallsAfterClocks p n := by
    intro n hn order _ i hcalls x hx
    simp [p, holderProject, Project.allNodes] at hn
    rcases hn with rfl | rfl <;> cases i <;> cases hx
  have hrun : ∃ sim c, Sim.new ⟨true, 8⟩ p "N" = .ok sim ∧
      sim.cycles ⟨true, 8⟩ p [Env.set (fun _ => none) "c" (.bool true)] = .ok [c] ∧
      c.sim.Finishes ⟨true, 8⟩ p c.inputs := by
    refine ⟨_, _, rfl, rfl, ?_⟩
    intro env henv
    cases henv
    refine ⟨?_, fun env' calls' _ => trivial⟩
    intro eq heq _
    cases heq
    refine ⟨trivial, trivial, ⟨trivial, trivial⟩, fun _ => ⟨?_, _, _, rfl⟩⟩
    intro env order henv horder
    cases henv
    cases horder
    refine ⟨?_, fun env' calls' _ => trivial⟩
    intro eq heq _
    cases heq
    exact ⟨trivial, not_call_nil⟩
  obtain ⟨sim, c, hnew, hcycles, hfin⟩ := hrun
  obtain ⟨next, hstep, hticked⟩ := (instances_tick ⟨true, 8⟩ p (functionsStateless_holder _)
    hclocks).1 "N" sim _ [c] hnew hcycles (by simpa using hfin) c (by simp)
  exact ⟨sim, c, next, hnew, hcycles, hstep, hticked⟩
/-- A cycle of an accepted project, from the start, in which some instance does not tick. -/
def Skips (p : Project) (row : Env) : Prop :=
  Typecheck.Accepted p ∧ ∃ sim c next, Sim.new ⟨true, 8⟩ p "N" = .ok sim ∧
    sim.cycles ⟨true, 8⟩ p [row] = .ok [c] ∧ c.sim.stepEnv ⟨true, 8⟩ p c.inputs = (.ok c.env, next) ∧
    ¬ Ticked p sim.node c.sim.instance next.instance

/-- The argument in `y = false -> Hold(pre y)` has no value in the first cycle, and the
`when` in `y = merge(c; Hold(c) when c; c when not c)` is in the arm that is not selected. -/
theorem exists_skipped_instance :
    Skips (holderProject (.arrow (.const (.bool false)) (.call "Hold" [.pre (.var "y")])))
      (Env.set (fun _ => none) "c" (.bool true)) ∧
    Skips (holderProject
        (.merge "c" (.when (.call "Hold" [.var "c"]) "c" true) (.when (.var "c") "c" false)))
      (Env.set (fun _ => none) "c" (.bool false)) := by
  constructor
  · refine ⟨by decide, _, _, _, rfl, rfl, rfl, fun h => ?_⟩
    cases h with
    | intro cycle present active inactive =>
      have hpresent := present 0 rfl ⟨"N", 0, [1]⟩ hold (List.mem_singleton.mpr rfl)
      cases hpresent
  · refine ⟨by decide, _, _, _, rfl, rfl, rfl, fun h => ?_⟩
    cases h with
    | intro cycle present active inactive =>
      have hpresent := present 0 rfl ⟨"N", 0, [0, 0]⟩ hold (List.mem_singleton.mpr rfl)
      cases hpresent

end OpenLustre.Simulator
