import OpenLustre.Sim.Run
import OpenLustre.Typecheck.Check

/-! Call isolation: what a call depends on besides its arguments and its own
instance.  A callee starts from the environment of its caller, of which it can
only notice the names it reads without declaring them. -/

namespace OpenLustre.Simulator

open OpenLustre.Ir

/-- A name that a node, or one it calls in turn, reads without declaring it.  An
iterated function is given the constants only. -/
inductive Reads (p : Project) : NodeDef → String → Prop
  | own {n x t} : t ∈ n.bodyTerms → t.readName = some x → x ∉ n.declaredNames → Reads p n x
  | call {n c f args x} : .call f args ∈ n.bodyTerms → p.findNode f = some c → Reads p c x →
      x ∉ n.declaredNames → Reads p n x
  | iterate {n c kind f init arrays x} : .iterate kind f init arrays ∈ n.bodyTerms →
      p.findNode f = some c → Reads p c x → p.isConstant x → x ∉ n.declaredNames → Reads p n x

/-- A name that some node reads under `pre` without declaring it. -/
def ForeignPre (p : Project) (x : String) : Prop :=
  ∃ n ∈ p.allNodes, .pre (.var x) ∈ n.bodyTerms ∧ x ∉ n.declaredNames

/-- What a call can notice of its caller's environment. -/
def Outer (p : Project) (n : NodeDef) (x : String) : Prop := Reads p n x ∨ ForeignPre p x

/-- What the snapshots of an instance are compared on: the names its node declares
and those read under `pre` elsewhere; for a conditional activation, its last
outputs. -/
def SnapshotName (p : Project) (site : Site) (x : String) : Prop :=
  match p.exprAt site with
  | some (.call f _) =>
    match p.findNode f with
    | some n => x ∈ n.declaredNames ∨ ForeignPre p x
    | none => x = ""
  | _ => False

/-- Two instance states that differ at most in what nothing reads back. -/
inductive StateAgree (p : Project) : (String → Prop) → State → State → Prop
  | mk {names : String → Prop} {s t : State} (cycle : s.cycle = t.cycle)
    (clockTicks : s.clockTicks = t.clockTicks)
    (prev : ∀ x, names x → s.prev x = t.prev x)
    (domain : ∀ site, (s.childCalls site).isSome = (t.childCalls site).isSome)
    (child : ∀ site s' t', s.childCalls site = some s' → t.childCalls site = some t' →
      StateAgree p (SnapshotName p site) s' t') : StateAgree p names s t

/-- The instances at one site. -/
structure SiteAgree (p : Project) (site : Site) (c d : Calls) : Prop where
  domain : (c site).isSome = (d site).isSome
  agree : ∀ s t, c site = some s → d site = some t → StateAgree p (SnapshotName p site) s t

def CallsAgree (p : Project) (c d : Calls) : Prop := ∀ site, SiteAgree p site c d

def EnvAgree (names : String → Prop) (a b : Env) : Prop := ∀ x, names x → a x = b x

section

variable {p : Project} {n : NodeDef}

theorem StateAgree.initial (names : String → Prop) : StateAgree p names .initial .initial :=
  .mk rfl rfl (fun _ _ => rfl) (fun _ => rfl) (by simp [State.initial])

theorem CallsAgree.empty : CallsAgree p Calls.empty Calls.empty :=
  fun _ => ⟨rfl, by simp [Calls.empty]⟩

theorem StateAgree.childCalls {names : String → Prop} {s t : State} (h : StateAgree p names s t) :
    CallsAgree p s.childCalls t.childCalls := by
  cases h with
  | mk _ _ _ domain child => exact fun site => ⟨domain site, child site⟩

variable {site site' : Site} {c d : Calls}

theorem SiteAgree.getD (h : SiteAgree p site c d) :
    StateAgree p (SnapshotName p site) ((c site).getD .initial) ((d site).getD .initial) := by
  have hdomain := h.domain
  cases hc : c site with
  | none =>
    cases hd : d site with
    | none => exact .initial _
    | some t => simp [hc, hd] at hdomain
  | some s =>
    cases hd : d site with
    | none => simp [hc, hd] at hdomain
    | some t => exact h.agree s t hc hd

theorem SiteAgree.set_none (h : SiteAgree p site c d) :
    SiteAgree p site (c.set site' none) (d.set site' none) := by
  by_cases heq : site = site'
  · exact ⟨by simp [Calls.set, heq], by simp [Calls.set, heq]⟩
  · have hc : c.set site' none site = c site := if_neg heq
    have hd : d.set site' none site = d site := if_neg heq
    exact ⟨by rw [hc, hd, h.domain], by rw [hc, hd]; exact h.agree⟩

theorem SiteAgree.set_some (h : SiteAgree p site c d) {s t : State}
    (hst : StateAgree p (SnapshotName p site') s t) :
    SiteAgree p site (c.set site' (some s)) (d.set site' (some t)) := by
  by_cases heq : site = site'
  · refine ⟨by simp [Calls.set, heq], fun s' t' hs ht => ?_⟩
    obtain rfl : s = s' := by simpa [Calls.set, heq] using hs
    obtain rfl : t = t' := by simpa [Calls.set, heq] using ht
    exact heq ▸ hst
  · have hc : c.set site' (some s) site = c site := if_neg heq
    have hd : d.set site' (some t) site = d site := if_neg heq
    exact ⟨by rw [hc, hd, h.domain], by rw [hc, hd]; exact h.agree⟩

/-- Two environments bind alike what an expression mentions. -/
def MentionsAgree (a b : Env) (e : Expr) : Prop :=
  ∀ t ∈ e.subterms, ∀ x, t.readName = some x → a x = b x

theorem MentionsAgree.child {a b : Env} {e c : Expr} (h : MentionsAgree a b e)
    (hc : c ∈ e.children) : MentionsAgree a b c :=
  fun t ht => h t (Expr.subterms_of_child hc ht)

theorem MentionsAgree.self {a b : Env} {e : Expr} (h : MentionsAgree a b e) {x : String}
    (hx : e.readName = some x) : a x = b x :=
  h e (Expr.self_mem_subterms e) x hx

theorem realKind_congr {a b : Env} {e : Expr} (h : MentionsAgree a b e) :
    realKind p a e = realKind p b e := by
  induction e with
  | const lit => cases lit <;> rfl
  | var name => simp only [realKind, h.self rfl]
  | unary _ arg ih | pre arg ih | when arg _ _ ih =>
    simpa only [realKind] using ih (h.child (by simp [Expr.children]))
  | binary op lhs rhs ihl ihr =>
    have hl := ihl (h.child (by simp [Expr.children]))
    have hr := ihr (h.child (by simp [Expr.children]))
    cases op <;> simp only [realKind, hl, hr]
  | ifThenElse _ _ _ _ iht ihe =>
    simp only [realKind, iht (h.child (by simp [Expr.children])),
      ihe (h.child (by simp [Expr.children]))]
  | arrow _ _ ihl ihr | merge _ _ _ ihl ihr =>
    simp only [realKind, ihl (h.child (by simp [Expr.children])),
      ihr (h.child (by simp [Expr.children]))]
  | call | field | index | tuple | array | struct | cast | iterate => rfl

theorem commonReal_congr {a b : Env} {e : Expr} (h : MentionsAgree a b e) (v : Value) :
    commonReal p a v e = commonReal p b v e := by
  simp only [commonReal, realKind_congr h]

end

section

variable {m : Machine} {p : Project} {n : NodeDef} {cs : Callees}

/-- What related bodies of `n` can be told apart by. -/
def Inner (p : Project) (n : NodeDef) (x : String) : Prop := x ∈ n.declaredNames ∨ Outer p n x

def Snapshot (p : Project) (n : NodeDef) (x : String) : Prop :=
  x ∈ n.declaredNames ∨ ForeignPre p x

/-- Two evaluations of the body of `n` that agree on what it can notice. -/
structure FramesAgree (p : Project) (n : NodeDef) (a b : Frame) : Prop where
  env : EnvAgree (Inner p n) a.env b.env
  cycle : a.state.cycle = b.state.cycle
  clockTicks : a.state.clockTicks = b.state.clockTicks
  prev : ∀ x, Snapshot p n x → a.state.prev x = b.state.prev x
  siteClocks : a.siteClocks = b.siteClocks

/-- Calls depend only on what they can notice of the caller's environment. -/
structure CalleesAgree (p : Project) (cs : Callees) : Prop where
  stepInstance : ∀ site f es c, p.exprAt site = some (.call f es) → p.findNode f = some c →
    ∀ args, args.length = c.inputs.length → ∀ a b, EnvAgree (Outer p c) a b →
    Stateful.Related (CallsAgree p) (· = ·) (cs.stepInstance site c args a)
      (cs.stepInstance site c args b)
  callFunctionValues : ∀ f c, p.findNode f = some c → ∀ args a b, EnvAgree (Outer p c) a b →
    cs.callFunctionValues c args a = cs.callFunctionValues c args b

theorem FramesAgree.mentions {a b : Frame} (h : FramesAgree p n a b) {e : Expr}
    (he : ∀ t ∈ e.subterms, t ∈ n.bodyTerms) : MentionsAgree a.env b.env e := by
  intro t ht x hx
  refine h.env x ?_
  by_cases hdecl : x ∈ n.declaredNames
  · exact .inl hdecl
  · exact .inr (.inl (.own (he t ht) hx hdecl))

/-- What a callee can notice of the body that calls it, the body can notice. -/
theorem FramesAgree.call {a b : Frame} (h : FramesAgree p n a b) {f : String} {args : List Expr}
    {c : NodeDef} (hbody : .call f args ∈ n.bodyTerms) (hf : p.findNode f = some c) :
    EnvAgree (Outer p c) a.env b.env := by
  rintro x (hx | hx)
  · refine h.env x ?_
    by_cases hdecl : x ∈ n.declaredNames
    · exact .inl hdecl
    · exact .inr (.inl (.call hbody hf hx hdecl))
  · exact h.env x (.inr (.inr hx))

theorem FramesAgree.iterate {a b : Frame} (h : FramesAgree p n a b) {kind : IterKind} {f : String}
    {init : Option Expr} {arrays : List Expr} {c : NodeDef}
    (hbody : .iterate kind f init arrays ∈ n.bodyTerms) (hf : p.findNode f = some c) :
    EnvAgree (Outer p c) (constantsFromEnv p a.env) (constantsFromEnv p b.env) := by
  intro x hx
  unfold constantsFromEnv
  cases hconst : p.isConstant x with
  | false => rfl
  | true =>
    refine h.env x ?_
    rcases hx with hx | hx
    · by_cases hdecl : x ∈ n.declaredNames
      · exact .inl hdecl
      · exact .inr (.inl (.iterate hbody hf hx hconst hdecl))
    · exact .inr (.inr hx)

theorem FramesAgree.firstTick {a b : Frame} (h : FramesAgree p n a b) (site : Site) :
    firstTick a site = firstTick b site := by
  simp only [OpenLustre.Simulator.firstTick, h.siteClocks, h.cycle, h.clockTicks]

theorem FramesAgree.preValue {a b : Frame} (h : FramesAgree p n a b) (hn : n ∈ p.allNodes)
    {arg : Expr} (hbody : .pre arg ∈ n.bodyTerms) (site : Site) :
    preValue a site arg = preValue b site arg := by
  unfold OpenLustre.Simulator.preValue
  rw [h.firstTick site]
  cases arg with
  | var name =>
    have : a.state.prev name = b.state.prev name := by
      refine h.prev name ?_
      by_cases hdecl : name ∈ n.declaredNames
      · exact .inl hdecl
      · exact .inr ⟨n, hn, hbody, hdecl⟩
    simp only [this]
  | _ => rfl

theorem FramesAgree.variableValue {a b : Frame} (h : FramesAgree p n a b) {name : String}
    (hbody : .var name ∈ n.bodyTerms) : variableValue p a name = variableValue p b name := by
  have hname : a.env name = b.env name :=
    h.mentions (e := .var name) (by simpa [Expr.subterms] using hbody) |>.self rfl
  simp only [OpenLustre.Simulator.variableValue, hname]

theorem related_discard {x y : EvalM Value}
    (h : Stateful.Related (CallsAgree p) (· = ·) x y) :
    Stateful.Related (CallsAgree p) (fun _ _ => True) (discard x) (discard y) := by
  intro s t hI
  obtain ⟨hI', hcases⟩ := h s t hI
  unfold discard
  revert hI' hcases
  rcases x s with ⟨rx, s'⟩
  rcases y t with ⟨ry, t'⟩
  rintro hI' (⟨v, w, rfl, rfl, -⟩ | ⟨e, rfl, rfl⟩)
  · exact ⟨hI', .ok trivial⟩
  · cases e with
    | error e => exact ⟨hI', .ok trivial⟩
    | panic e => exact ⟨hI', .error _⟩

theorem related_setLastOutputs {site : Site} {f : String} {args : List Expr}
    (hsite : p.exprAt site = some (.call f args)) (hf : p.findNode f = none) (v : Value) :
    Stateful.Related (CallsAgree p) (· = ·) (setLastOutputs site v) (setLastOutputs site v) := by
  intro s t hI
  refine ⟨fun site' => (hI site').set_some ?_, .ok rfl⟩
  cases (hI site).getD with
  | mk cycle clockTicks prev domain child =>
    refine .mk cycle clockTicks (fun x hx => ?_) domain child
    obtain rfl : x = "" := by simpa [SnapshotName, hsite, hf] using hx
    simp [Env.set]

theorem lastOutputs_congr {site : Site} {f : String} {args : List Expr} {c d : Calls}
    (hsite : p.exprAt site = some (.call f args)) (hf : p.findNode f = none)
    (h : CallsAgree p c d) : lastOutputs site c = lastOutputs site d := by
  have hdomain := (h site).domain
  unfold lastOutputs
  cases hc : c site with
  | none =>
    cases hd : d site with
    | none => rfl
    | some t => simp [hc, hd] at hdomain
  | some s =>
    cases hd : d site with
    | none => simp [hc, hd] at hdomain
    | some t =>
      cases (h site).agree s t hc hd with
      | mk _ _ prev _ _ => exact prev "" (by simp [SnapshotName, hsite, hf])

variable {a b : Frame}

theorem related_evalList {site : Site} {es : List Expr} {k : Nat}
    (h : ∀ i e, es[i]? = some e → Stateful.Related (CallsAgree p) (· = ·)
      (eval m p cs a (site.child (k + i)) e) (eval m p cs b (site.child (k + i)) e)) :
    Stateful.Related (CallsAgree p) (· = ·) (evalList m p cs a site k es)
      (evalList m p cs b site k es) := by
  induction es generalizing k with
  | nil => exact .pure rfl
  | cons e es ih =>
    refine (h 0 e rfl).bind ?_
    rintro v _ rfl
    refine (ih fun i e he => ?_).bind ?_
    · rw [Nat.add_assoc, Nat.add_comm 1 i]
      exact h (i + 1) e he
    · rintro vs _ rfl
      exact .pure rfl

theorem related_evalFields {site : Site} {fields : List (String × Expr)} {k : Nat}
    {r : List (String × Value)}
    (h : ∀ i e, (fields.map (·.2))[i]? = some e → Stateful.Related (CallsAgree p) (· = ·)
      (eval m p cs a (site.child (k + i)) e) (eval m p cs b (site.child (k + i)) e)) :
    Stateful.Related (CallsAgree p) (· = ·) (evalFields m p cs a site k r fields)
      (evalFields m p cs b site k r fields) := by
  induction fields generalizing k r with
  | nil => exact .pure rfl
  | cons f fields ih =>
    refine (h 0 f.2 rfl).bind ?_
    rintro v _ rfl
    refine ih fun i e he => ?_
    rw [Nat.add_assoc, Nat.add_comm 1 i]
    exact h (i + 1) e he

theorem related_evalArrays {site : Site} {es : List Expr} {k : Nat}
    (h : ∀ i e, es[i]? = some e → Stateful.Related (CallsAgree p) (· = ·)
      (eval m p cs a (site.child (k + i)) e) (eval m p cs b (site.child (k + i)) e)) :
    Stateful.Related (CallsAgree p) (· = ·) (evalArrays m p cs a site k es)
      (evalArrays m p cs b site k es) := by
  induction es generalizing k with
  | nil => exact .pure rfl
  | cons e es ih =>
    refine (h 0 e rfl).bind ?_
    rintro v _ rfl
    refine (Stateful.Related.lift _).bind ?_
    rintro xs _ rfl
    refine (ih fun i e he => ?_).bind ?_
    · rw [Nat.add_assoc, Nat.add_comm 1 i]
      exact h (i + 1) e he
    · rintro xss _ rfl
      exact .pure rfl

theorem related_stepUntaken {x y : EvalM Value} (other : Expr)
    (h : Stateful.Related (CallsAgree p) (· = ·) x y) :
    Stateful.Related (CallsAgree p) (fun _ _ => True) (stepUntaken other x)
      (stepUntaken other y) := by
  unfold stepUntaken
  split
  · exact related_discard h
  · exact .pure trivial

theorem related_condact {site : Site} {node : String} {args : List Expr}
    (hsite : p.exprAt site = some (.call node args))
    (hnode : node = condact ∧ (p.findNode node).isNone)
    (hc : ∀ i e, args[i]? = some e → Stateful.Related (CallsAgree p) (· = ·)
      (eval m p cs a (site.child i) e) (eval m p cs b (site.child i) e)) :
    Stateful.Related (CallsAgree p) (· = ·) (eval m p cs a site (.call node args))
      (eval m p cs b site (.call node args)) := by
  have hnone : p.findNode node = none := by simpa using hnode.2
  match args with
  | [] | [_] =>
    simp only [eval, if_pos hnode]
    exact .lift _
  | clock :: call :: defaults =>
    simp only [eval, if_pos hnode]
    refine (hc 0 clock rfl).bind ?_
    rintro c _ rfl
    refine (Stateful.Related.lift _).bind ?_
    rintro on _ rfl
    cases on with
    | true =>
      refine (hc 1 call rfl).bind ?_
      rintro v _ rfl
      refine (related_setLastOutputs hsite hnone v).bind ?_
      rintro _ _ rfl
      exact .pure rfl
    | false =>
      refine Stateful.Related.get.bind fun c d hcd => ?_
      rw [lastOutputs_congr hsite hnone hcd]
      cases lastOutputs site d with
      | some v => exact .pure rfl
      | none =>
        refine (related_evalList (k := 2) fun i e he => ?_).bind ?_
        · rw [Nat.add_comm]
          exact hc (i + 2) e he
        · rintro vs _ rfl
          split <;> exact .pure rfl

theorem related_call (hcs : CalleesAgree p cs) (hfr : FramesAgree p n a b) {site : Site}
    {node : String} {args : List Expr} (hsite : p.exprAt site = some (.call node args))
    (hself : .call node args ∈ n.bodyTerms)
    (hc : ∀ i e, args[i]? = some e → Stateful.Related (CallsAgree p) (· = ·)
      (eval m p cs a (site.child i) e) (eval m p cs b (site.child i) e)) :
    Stateful.Related (CallsAgree p) (· = ·) (eval m p cs a site (.call node args))
      (eval m p cs b site (.call node args)) := by
  by_cases hnode : node = condact ∧ (p.findNode node).isNone
  · exact related_condact hsite hnode hc
  · simp only [eval_call hnode]
    refine ((Stateful.Related.lift _).and_left (P := fun c => callee p node args.length = .ok c)
      fun s c s' hok => (Stateful.lift_eq_ok.mp hok).1).bind ?_
    rintro c _ ⟨rfl, hok⟩
    obtain ⟨hf, hlen, -⟩ := callee_eq_ok hok
    refine ((related_evalList (k := 0) fun i e he => ?_).and_left
      (P := fun vs => vs.length = args.length) fun _ _ _ => evalList_length).bind ?_
    · simpa using hc i e he
    · rintro vs _ ⟨rfl, hvs⟩
      exact hcs.stepInstance site node args c hsite hf vs (hvs.trans hlen) _ _ (hfr.call hself hf)

theorem related_iterate (hcs : CalleesAgree p cs) (hfr : FramesAgree p n a b) {site : Site}
    {kind : IterKind} {f : String} {init : Option Expr} {arrays : List Expr}
    (hself : .iterate kind f init arrays ∈ n.bodyTerms)
    (hc : ∀ i e, (init.toList ++ arrays)[i]? = some e → Stateful.Related (CallsAgree p) (· = ·)
      (eval m p cs a (site.child i) e) (eval m p cs b (site.child i) e)) :
    Stateful.Related (CallsAgree p) (· = ·) (eval m p cs a site (.iterate kind f init arrays))
      (eval m p cs b site (.iterate kind f init arrays)) := by
  have harrays {k : Nat} (hk : k = init.toList.length) : Stateful.Related (CallsAgree p) (· = ·)
      (evalArrays m p cs a site k arrays) (evalArrays m p cs b site k arrays) := by
    refine related_evalArrays fun i e he => hc (k + i) e ?_
    rw [hk, List.getElem?_append_right (by omega)]
    simpa using he
  have hrows {β : Type} {f g : List (List Value) → List (List Value) → EvalM β} {k : Nat}
      (hk : k = init.toList.length)
      (h : ∀ arrs rows, Stateful.Related (CallsAgree p) (· = ·) (f arrs rows) (g arrs rows)) :
      Stateful.Related (CallsAgree p) (· = ·)
        (do let arrs ← evalArrays m p cs a site k arrays; let rows ← .lift (transpose arrs); f arrs rows)
        (do let arrs ← evalArrays m p cs b site k arrays; let rows ← .lift (transpose arrs); g arrs rows) := by
    refine (harrays hk).bind ?_
    rintro arrs _ rfl
    refine (Stateful.Related.lift _).bind ?_
    rintro rows _ rfl
    exact h arrs rows
  have hiterated {β : Type} {x y : NodeDef → EvalM β}
      (h : ∀ c, (∀ args, cs.callFunctionValues c args (constantsFromEnv p a.env) =
          cs.callFunctionValues c args (constantsFromEnv p b.env)) →
        Stateful.Related (CallsAgree p) (· = ·) (x c) (y c)) :
      Stateful.Related (CallsAgree p) (· = ·) (do let c ← .lift (iterated p f); x c)
        (do let c ← .lift (iterated p f); y c) := by
    refine ((Stateful.Related.lift _).and_left (P := fun c => iterated p f = .ok c)
      fun s c s' hok => (Stateful.lift_eq_ok.mp hok).1).bind ?_
    rintro c _ ⟨rfl, hok⟩
    have hf := (iterated_eq_ok hok).1
    exact h c fun args => hcs.callFunctionValues f c hf args _ _ (hfr.iterate hself hf)
  cases kind with
  | map =>
    simp only [eval]
    refine hiterated fun c hcall => hrows (by cases init <;> rfl) fun arrs rows => ?_
    simp only [hcall]
    refine (Stateful.Related.lift _).bind ?_
    rintro out _ rfl
    exact .pure rfl
  | fold =>
    cases init with
    | none =>
      simp only [eval]
      exact hiterated fun c _ => hrows rfl fun arrs rows => .lift _
    | some seed =>
      simp only [eval]
      refine hiterated fun c hcall => hrows rfl fun arrs rows => ?_
      refine (hc 0 seed rfl).bind ?_
      rintro acc _ rfl
      cases arrs with
      | nil => exact .fail _
      | cons elems _ =>
        simp only [foldFunction, hcall]
        exact .lift _

/-- An expression of the body evaluates alike in frames that agree. -/
theorem related_eval (hn : n ∈ p.allNodes) (hcs : CalleesAgree p cs) (hfr : FramesAgree p n a b)
    (e : Expr) : ∀ site, p.exprAt site = some e → (∀ t ∈ e.subterms, t ∈ n.bodyTerms) →
      Stateful.Related (CallsAgree p) (· = ·) (eval m p cs a site e) (eval m p cs b site e) := by
  induction e using Expr.children_induct with
  | h e ih =>
  intro site hsite hbody
  have hc (k : Nat) (c : Expr) (hk : e.children[k]? = some c) :
      Stateful.Related (CallsAgree p) (· = ·) (eval m p cs a (site.child k) c)
        (eval m p cs b (site.child k) c) :=
    ih c (List.mem_of_getElem? hk) _ (Project.exprAt_child hsite hk) fun t ht =>
      hbody t (Expr.subterms_of_child (List.mem_of_getElem? hk) ht)
  have hself : e ∈ n.bodyTerms := hbody e (Expr.self_mem_subterms e)
  have hmentions : MentionsAgree a.env b.env e := hfr.mentions hbody
  cases e with
  | const lit => exact .pure rfl
  | var name =>
    simp only [eval, hfr.variableValue hself]
    exact .lift _
  | unary op arg =>
    refine (hc 0 arg rfl).bind ?_
    rintro v _ rfl
    exact .lift _
  | binary op lhs rhs =>
    refine (hc 0 lhs rfl).bind ?_
    rintro l _ rfl
    refine (hc 1 rhs rfl).bind ?_
    rintro r _ rfl
    exact .lift _
  | ifThenElse cond thenBranch elseBranch =>
    have hthen := commonReal_congr (p := p) (hmentions.child (c := thenBranch) (by simp [Expr.children]))
    have helse := commonReal_congr (p := p) (hmentions.child (c := elseBranch) (by simp [Expr.children]))
    refine (hc 0 cond rfl).bind ?_
    rintro c _ rfl
    refine (Stateful.Related.lift _).bind ?_
    rintro c _ rfl
    cases c with
    | true =>
      refine (hc 1 thenBranch rfl).bind ?_
      rintro v _ rfl
      refine (related_stepUntaken elseBranch (hc 2 elseBranch rfl)).bind fun _ _ _ => ?_
      exact .pure (helse v)
    | false =>
      refine (hc 2 elseBranch rfl).bind ?_
      rintro v _ rfl
      refine (related_stepUntaken thenBranch (hc 1 thenBranch rfl)).bind fun _ _ _ => ?_
      exact .pure (hthen v)
  | pre arg =>
    simp only [eval, hfr.preValue hn hself]
    exact .lift _
  | arrow init body =>
    have hinit := commonReal_congr (p := p) (hmentions.child (c := init) (by simp [Expr.children]))
    have hbody := commonReal_congr (p := p) (hmentions.child (c := body) (by simp [Expr.children]))
    simp only [eval, hfr.firstTick site]
    split
    · refine (hc 0 init rfl).bind ?_
      rintro v _ rfl
      refine (related_stepUntaken body (hc 1 body rfl)).bind fun _ _ _ => ?_
      exact .pure (hbody v)
    · refine (hc 1 body rfl).bind ?_
      rintro v _ rfl
      refine (related_stepUntaken init (hc 0 init rfl)).bind fun _ _ _ => ?_
      exact .pure (hinit v)
  | when arg clock on => exact hc 0 arg rfl
  | merge clock onTrue onFalse =>
    have hclock : a.env clock = b.env clock := hmentions.self rfl
    have htrue := commonReal_congr (p := p) (hmentions.child (c := onTrue) (by simp [Expr.children]))
    have hfalse := commonReal_congr (p := p) (hmentions.child (c := onFalse) (by simp [Expr.children]))
    simp only [eval, hclock]
    split
    · refine (hc 0 onTrue rfl).bind ?_
      rintro v _ rfl
      exact .pure (hfalse v)
    · refine (hc 1 onFalse rfl).bind ?_
      rintro v _ rfl
      exact .pure (htrue v)
    · exact (Stateful.Related.lift _)
    · exact (Stateful.Related.lift _)
  | cast target arg =>
    refine (hc 0 arg rfl).bind ?_
    rintro v _ rfl
    exact .lift _
  | field base field =>
    refine (hc 0 base rfl).bind ?_
    rintro v _ rfl
    exact .lift _
  | index base index =>
    refine (hc 0 base rfl).bind ?_
    rintro v _ rfl
    refine (hc 1 index rfl).bind ?_
    rintro i _ rfl
    exact .lift _
  | tuple items | array items =>
    refine (related_evalList (k := 0) fun i e he => ?_).bind ?_
    · simpa using hc i e he
    · rintro vs _ rfl
      exact .pure rfl
  | struct ty fields =>
    refine (related_evalFields (k := 0) fun i e he => ?_).bind ?_
    · simpa using hc i e he
    · rintro r _ rfl
      exact .pure rfl
  | call node args => exact related_call hcs hfr hsite hself hc
  | iterate kind node init arrays => exact related_iterate hcs hfr hself hc

end

section

variable {m : Machine} {p : Project} {n : NodeDef} {cs : Callees} {names : String → Prop}

theorem EnvAgree.set {a b : Env} (h : EnvAgree names a b) (x : String) (v : Value) :
    EnvAgree (fun y => names y ∨ y = x) (a.set x v) (b.set x v) := by
  intro y hy
  unfold Env.set
  split
  · rfl
  · exact h y (by tauto)

theorem EnvAgree.mono {names' : String → Prop} {a b : Env} (h : EnvAgree names a b)
    (hnames : ∀ x, names' x → names x) : EnvAgree names' a b :=
  fun x hx => h x (hnames x hx)

theorem clockActiveOn_congr {a b : Env} {conditions : List (String × Bool)}
    (h : ∀ c ∈ conditions, a c.1 = b c.1) : clockActiveOn a conditions = clockActiveOn b conditions := by
  induction conditions with
  | nil => rfl
  | cons c conditions ih =>
    obtain ⟨x, on⟩ := c
    have hx : a x = b x := h (x, on) List.mem_cons_self
    simp only [clockActiveOn, hx, ih fun c hc => h c (List.mem_cons_of_mem _ hc)]

theorem clockActive_congr {a b : Env} {ck : Clock} (h : EnvAgree names a b) (hck : ck.From names) :
    clockActive ck a = clockActive ck b :=
  clockActiveOn_congr fun c hc => h c.1 (hck.conditions c hc)

/-- Setting the same values under the same names keeps agreement and extends it to
these names. -/
theorem agree_setAll {α : Type} (name : α → String) (r : α → Except Fault Value) (l : List α)
    {a b : Env} (h : EnvAgree names a b) :
    Except.Agree (EnvAgree fun x => names x ∨ x ∈ l.map name)
      (l.foldlM (fun env i => (r i).map (Env.set env (name i))) a)
      (l.foldlM (fun env i => (r i).map (Env.set env (name i))) b) := by
  induction l generalizing a b names with
  | nil => exact .ok (h.mono (by simp))
  | cons i l ih =>
    rw [List.foldlM_cons, List.foldlM_cons]
    refine ((Except.Agree.refl (r i)).map (R := EnvAgree fun x => names x ∨ x = name i) ?_).bind ?_
    · rintro v _ rfl
      exact h.set (name i) v
    · intro a' b' h'
      refine (ih h').mono fun a'' b'' h'' => h''.mono fun x hx => ?_
      simpa [or_assoc] using hx

theorem agree_calleeEnv {a b : Env} {args : List Value} (hlen : args.length = n.inputs.length)
    (h : EnvAgree names a b) :
    Except.Agree (EnvAgree fun x => x ∈ n.declaredNames ∨ names x) (calleeEnv m p n args a)
      (calleeEnv m p n args b) := by
  have hinputs := agree_setAll (fun pair : Port × Value => pair.1.name)
    (fun pair => fitTo p m.stack pair.1.ty pair.2) (n.inputs.zip args) h
  refine hinputs.bind fun a' b' h' => ?_
  refine (agree_setAll (fun port : Port => port.name) (fun port => defaultValue p m.stack port.ty)
    (n.outputs ++ n.locals) h').mono fun a'' b'' h'' => h''.mono fun x hx => ?_
  have hzip : (n.inputs.zip args).map (fun pair => pair.1.name) = n.inputs.map (·.name) := by
    have hfst : (n.inputs.zip args).map Prod.fst = n.inputs := List.map_fst_zip (by omega)
    conv_rhs => rw [← hfst, List.map_map]
    rfl
  rw [hzip]
  simp only [NodeDef.declaredNames, NodeDef.declared, List.map_append, List.mem_append] at hx ⊢
  tauto

theorem agree_store {a b : Env} (h : EnvAgree names a b) (x : String) (v : Value) :
    Except.Agree (EnvAgree names) (store m p n a x v) (store m p n b x v) := by
  have hset (w : Value) : EnvAgree names (a.set x w) (b.set x w) :=
    (h.set x w).mono fun _ => .inl
  unfold store
  cases declaredType n x with
  | none => exact .ok (hset v)
  | some t =>
    refine (Except.Agree.refl _).map ?_
    rintro w _ rfl
    exact hset w

theorem agree_storeAll (pairs : List (String × Value)) {a b : Env} (h : EnvAgree names a b) :
    Except.Agree (EnvAgree names) (pairs.foldlM (fun env (x, v) => store m p n env x v) a)
      (pairs.foldlM (fun env (x, v) => store m p n env x v) b) := by
  induction pairs generalizing a b with
  | nil => exact .ok h
  | cons pair pairs ih =>
    rw [List.foldlM_cons, List.foldlM_cons]
    exact (agree_store h pair.1 pair.2).bind fun a' b' h' => ih h'

theorem agree_bindLhs {a b : Env} (h : EnvAgree names a b) (eq : Equation) (v : Value) :
    Except.Agree (EnvAgree names) (bindLhs m p n eq a v) (bindLhs m p n eq b v) := by
  unfold bindLhs
  split
  · exact agree_store h _ v
  · split
    · exact agree_storeAll _ h
    · exact .error _

theorem takeOutputs_congr {ports : List Port} {a b : Env}
    (h : EnvAgree (fun x => x ∈ ports.map (·.name)) a b) :
    takeOutputs ports a = takeOutputs ports b := by
  induction ports generalizing a b with
  | nil => rfl
  | cons port ports ih =>
    have hhead : a port.name = b port.name := h port.name (by simp)
    have htail : EnvAgree (fun x => x ∈ ports.map (·.name)) (a.unset port.name)
        (b.unset port.name) := by
      intro x hx
      unfold Env.unset
      split
      · rfl
      · exact h x (List.mem_cons_of_mem _ hx)
    simp only [takeOutputs, hhead, ih htail]

theorem extractOutput_congr {a b : Env} (h : EnvAgree (Inner p n) a b) :
    extractOutput n a = extractOutput n b := by
  have : takeOutputs n.outputs a = takeOutputs n.outputs b := by
    refine takeOutputs_congr (h.mono fun x hx => .inl ?_)
    simp only [NodeDef.declaredNames, NodeDef.declared, List.map_append, List.mem_append]
    exact .inl (.inr hx)
  simp only [extractOutput, this]

theorem inner_of_mentioned {x : String} (h : n.Mentioned x) : Inner p n x := by
  obtain ⟨t, ht, hx⟩ := h
  by_cases hdecl : x ∈ n.declaredNames
  · exact .inl hdecl
  · exact .inr (.inl (.own ht hx hdecl))

theorem Clock.From.mono {names names' : String → Prop} {ck : Clock} (h : ck.From names)
    (hnames : ∀ x, names x → names' x) : ck.From names' := by
  induction ck with
  | base => exact trivial
  | on clock active parent ih => exact ⟨hnames clock h.1, ih h.2⟩

/-- The clocks of a body, when it uses any, read what the body mentions. -/
structure ClocksFrom (names : String → Prop) (info : ClockInfo) : Prop where
  equations : ∀ ck ∈ info.equationClocks, ck.From names
  chains : ∀ ck ∈ info.chains, ck.From names

theorem clocksOf_from (p : Project) (n : NodeDef) : ClocksFrom (Inner p n) (clocksOf n) := by
  unfold clocksOf
  split
  · obtain ⟨hequations, hchains⟩ := inferClocks_from n
    exact ⟨fun ck h => Clock.From.mono (hequations ck h) fun _ => inner_of_mentioned,
      fun ck h => Clock.From.mono (hchains ck h) fun _ => inner_of_mentioned⟩
  · exact ⟨by simp, by simp⟩

theorem tickChains_congr {a b : Env} {chains : List Clock} (h : EnvAgree names a b)
    (hchains : ∀ ck ∈ chains, ck.From names) : tickChains a chains = tickChains b chains := by
  induction chains with
  | nil => rfl
  | cons ck chains ih =>
    simp only [tickChains, clockActive_congr h (hchains ck List.mem_cons_self),
      ih fun c hc => hchains c (List.mem_cons_of_mem _ hc)]

variable {info : ClockInfo} {s t : State}

theorem related_equationStep (hn : n ∈ p.allNodes)
    (hname : p.allNodes.find? (·.name = n.name) = some n) (hcs : CalleesAgree p cs)
    (hinfo : ClocksFrom (Inner p n) info) (hcycle : s.cycle = t.cycle)
    (hticks : s.clockTicks = t.clockTicks) (hprev : ∀ x, Snapshot p n x → s.prev x = t.prev x)
    {a b : Env} (h : EnvAgree (Inner p n) a b) (i : Nat) :
    Stateful.Related (CallsAgree p) (EnvAgree (Inner p n)) (equationStep m p cs n info s a i)
      (equationStep m p cs n info t b i) := by
  unfold equationStep
  cases heq : n.equations[i]? with
  | none => exact .pure h
  | some eq =>
    have hactive : isActive info i a = isActive info i b := by
      unfold isActive
      cases hck : info.equationClocks[i]? with
      | none => rfl
      | some ck => exact clockActive_congr h (hinfo.equations ck (List.mem_of_getElem? hck))
    dsimp only
    rw [hactive]
    refine (Stateful.Related.lift _).bind ?_
    rintro active _ rfl
    cases active with
    | false => exact .pure h
    | true =>
      have hbody : ∀ t ∈ eq.rhs.subterms, t ∈ n.bodyTerms := fun t ht =>
        List.mem_flatMap.mpr ⟨eq, List.mem_of_getElem? heq, ht⟩
      have hfr : FramesAgree p n ⟨a, s, info.siteClocks⟩ ⟨b, t, info.siteClocks⟩ :=
        ⟨h, hcycle, hticks, hprev, rfl⟩
      refine (related_eval hn hcs hfr eq.rhs _ (Project.exprAt_root hname heq) hbody).bind ?_
      rintro v _ rfl
      exact .lift_agree (agree_bindLhs h eq v)

theorem related_equationSteps (hn : n ∈ p.allNodes)
    (hname : p.allNodes.find? (·.name = n.name) = some n) (hcs : CalleesAgree p cs)
    (hinfo : ClocksFrom (Inner p n) info) (hcycle : s.cycle = t.cycle)
    (hticks : s.clockTicks = t.clockTicks) (hprev : ∀ x, Snapshot p n x → s.prev x = t.prev x)
    (order : List Nat) {a b : Env} (h : EnvAgree (Inner p n) a b) :
    Stateful.Related (CallsAgree p) (EnvAgree (Inner p n)) (equationSteps m p cs n info s order a)
      (equationSteps m p cs n info t order b) := by
  induction order generalizing a b with
  | nil => exact .pure h
  | cons i order ih =>
    exact (related_equationStep hn hname hcs hinfo hcycle hticks hprev h i).bind fun _ _ => ih

theorem snapshot_of_snapshotName {site : Site} {f : String} {args : List Expr}
    (hsite : p.exprAt site = some (.call f args)) (hf : p.findNode f = some n) :
    SnapshotName p site = Snapshot p n := by
  funext x
  simp only [SnapshotName, hsite, hf, Snapshot]

theorem EnvAgree.reseedPorts {prev prev' : String → Option Value} {ports : List Port}
    (hports : ∀ port ∈ ports, port.name ∈ n.declaredNames)
    (hprev : ∀ x, Snapshot p n x → prev x = prev' x) {a b : Env} (h : EnvAgree (Inner p n) a b) :
    EnvAgree (Inner p n)
      (ports.foldl (fun env port =>
        match prev port.name with
        | some v => env.set port.name v
        | none => env) a)
      (ports.foldl (fun env port =>
        match prev' port.name with
        | some v => env.set port.name v
        | none => env) b) := by
  induction ports generalizing a b with
  | nil => exact h
  | cons port ports ih =>
    refine ih (fun q hq => hports q (List.mem_cons_of_mem _ hq)) ?_
    dsimp only
    rw [hprev port.name (.inl (hports port List.mem_cons_self))]
    cases prev' port.name with
    | none => exact h
    | some v => exact (h.set port.name v).mono fun _ => .inl

theorem EnvAgree.reseed {a b : Env} {prev prev' : String → Option Value}
    (h : EnvAgree (Inner p n) a b) (hprev : ∀ x, Snapshot p n x → prev x = prev' x) :
    EnvAgree (Inner p n) (reseed n prev a) (reseed n prev' b) := by
  refine EnvAgree.reseedPorts (fun port hport => ?_) hprev h
  refine List.mem_map_of_mem ?_
  rw [NodeDef.declared, List.append_assoc]
  exact List.mem_append_right _ hport

/-- A cycle of an operator's instance reads and writes the calls of its caller at
its own site only. -/
theorem related_stepOperator {I : Calls → Calls → Prop} (hn : n ∈ p.allNodes)
    (hname : p.allNodes.find? (·.name = n.name) = some n) (hcs : CalleesAgree p cs) {site : Site}
    {f : String} {args : List Expr} (hsite : p.exprAt site = some (.call f args))
    (hf : p.findNode f = some n) (hI : ∀ c d, I c d → SiteAgree p site c d)
    (hnone : ∀ c d, I c d → I (c.set site none) (d.set site none))
    (hsome : ∀ c d s t, I c d → StateAgree p (SnapshotName p site) s t →
      I (c.set site (some s)) (d.set site (some t)))
    (order : List Nat) {a b : Env} (h : EnvAgree (Inner p n) a b) :
    Stateful.Related I (· = ·) (stepOperator m p cs site n order a)
      (stepOperator m p cs site n order b) := by
  refine Stateful.Related.get.bind fun c d hcd => ?_
  have hstate := (hI c d hcd).getD
  have hnames := snapshot_of_snapshotName hsite hf
  rw [hnames] at hstate
  have hchild := hstate.childCalls
  cases hstate with
  | mk cycle clockTicks prev domain child =>
  refine (Stateful.Related.set (hnone c d hcd)).bind fun _ _ _ => ?_
  have hinfo := clocksOf_from p n
  refine ((related_equationSteps hn hname hcs hinfo cycle clockTicks prev order
    (h.reseed prev)).within hchild).bind ?_
  rintro ⟨a', c'⟩ ⟨b', d'⟩ ⟨h', hcd'⟩
  replace h' : EnvAgree (Inner p n) a' b' := h'
  replace hcd' : CallsAgree p c' d' := hcd'
  have hticks : Stateful.Related (ε := Fault) (· = ·) (· = ·) (tickChains a' (clocksOf n).chains)
      (tickChains b' (clocksOf n).chains) := by
    rw [tickChains_congr h' hinfo.chains]
    rintro s t rfl
    exact ⟨rfl, .refl _⟩
  refine (hticks.within clockTicks).bind ?_
  rintro ⟨_, ticks⟩ ⟨_, _⟩ ⟨-, rfl⟩
  refine (Stateful.Related.set (hsome c d _ _ hcd ?_)).bind fun _ _ _ => ?_
  · rw [hnames]
    refine .mk (congrArg (· + 1) cycle) rfl (fun x hx => ?_) (fun site => (hcd' site).domain)
      fun site => (hcd' site).agree
    have hx' : Inner p n x := hx.imp_right .inr
    simp only [State.next, Env.extend, h' x hx', prev x hx]
  · exact .pure (extractOutput_congr h')

/-- A cycle of a call. -/
theorem related_stepInstance (hcs : CalleesAgree p cs) {site : Site} {f : String}
    {es : List Expr} (hsite : p.exprAt site = some (.call f es)) (hf : p.findNode f = some n)
    {args : List Value} (hlen : args.length = n.inputs.length) {a b : Env}
    (h : EnvAgree (Outer p n) a b) :
    Stateful.Related (CallsAgree p) (· = ·) (stepInstance m p cs site n args a)
      (stepInstance m p cs site n args b) := by
  have hn := Project.mem_of_findNode hf
  have hname := Project.find?_name_of_findNode hf
  refine (Stateful.Related.lift_agree (agree_calleeEnv hlen h)).bind fun a' b' h' => ?_
  refine (Stateful.Related.lift _).bind ?_
  rintro order _ rfl
  cases n.kind with
  | function =>
    refine (related_equationSteps hn hname hcs (clocksOf_from p n) rfl rfl (fun _ _ => rfl) order
      h').bind fun a'' b'' h'' => ?_
    exact .pure (extractOutput_congr h'')
  | operator =>
    exact related_stepOperator hn hname hcs hsite hf (fun _ _ h => h site)
      (fun _ _ h site' => (h site').set_none) (fun _ _ _ _ h hst site' => (h site').set_some hst)
      order h'
  | imported => exact .fail _

theorem agree_callFunctionValues (hcs : CalleesAgree p cs) {f : String}
    (hf : p.findNode f = some n) (args : List Value) {a b : Env} (h : EnvAgree (Outer p n) a b) :
    callFunctionValues m p cs n args a = callFunctionValues m p cs n args b := by
  have hn := Project.mem_of_findNode hf
  have hname := Project.find?_name_of_findNode hf
  unfold callFunctionValues
  by_cases hlen : args.length = n.inputs.length
  · simp only [hlen, ne_eq, not_true_eq_false, if_false]
    refine Except.Agree.eq ((agree_calleeEnv hlen h).bind fun a' b' h' => ?_)
    refine (Except.Agree.refl (bodyOrder n)).bind ?_
    rintro order _ rfl
    have hinfo : ClocksFrom (Inner p n) {} := ⟨by simp, by simp⟩
    refine (related_equationSteps hn hname hcs hinfo rfl rfl (fun _ _ => rfl) order h' _ _
      CallsAgree.empty).2.bind fun a'' b'' h'' => ?_
    exact .ok (extractOutput_congr h'')
  · simp only [hlen, ne_eq, not_false_eq_true, if_true]
    rfl

/-- Calls to any depth. -/
theorem calleesAgree (m : Machine) (p : Project) (depth : Nat) :
    CalleesAgree p (callees m p depth) := by
  induction depth with
  | zero => exact ⟨fun _ _ _ _ _ _ _ _ _ _ _ => .fail _, fun _ _ _ _ _ _ _ => rfl⟩
  | succ depth ih =>
    exact ⟨fun site f es c hsite hf args hlen a b h => related_stepInstance ih hsite hf hlen h,
      fun f c hf args a b h => agree_callFunctionValues ih hf args h⟩

/-- What a call finds of its own from earlier cycles: an operator its instance; the
body of a function runs on the calls of its caller. -/
def SameInstance (p : Project) (n : NodeDef) (site : Site) (c d : Calls) : Prop :=
  if n.kind = .operator then SiteAgree p site c d else CallsAgree p c d

theorem related_sameInstance (hcs : CalleesAgree p cs) {site : Site} {f : String}
    {es : List Expr} (hsite : p.exprAt site = some (.call f es)) (hf : p.findNode f = some n)
    {args : List Value} (hlen : args.length = n.inputs.length) {a b : Env}
    (h : EnvAgree (Outer p n) a b) :
    Stateful.Related (SameInstance p n site) (· = ·) (stepInstance m p cs site n args a)
      (stepInstance m p cs site n args b) := by
  by_cases hkind : n.kind = .operator
  · have hI : SameInstance p n site = SiteAgree p site := by
      funext c d
      simp [SameInstance, hkind]
    rw [hI]
    refine (Stateful.Related.lift_agree (agree_calleeEnv hlen h)).bind fun a' b' h' => ?_
    refine (Stateful.Related.lift _).bind ?_
    rintro order _ rfl
    rw [hkind]
    exact related_stepOperator (Project.mem_of_findNode hf) (Project.find?_name_of_findNode hf) hcs
      hsite hf (fun _ _ h => h) (fun _ _ h => h.set_none) (fun _ _ _ _ h hst => h.set_some hst)
      order h'
  · have hI : SameInstance p n site = CallsAgree p := by
      funext c d
      simp [SameInstance, hkind]
    rw [hI]
    exact related_stepInstance hcs hsite hf hlen h

end

/-- The results of the cycles of one call, each given its arguments and the
environment of its caller. -/
def callRun (cs : Callees) (site : Site) (n : NodeDef) :
    List (List Value × Env) → Calls → List (Except Fault Value) × Calls
  | [], calls => ([], calls)
  | (args, env) :: rows, calls =>
    let (r, calls) := cs.stepInstance site n args env calls
    let (rs, calls) := callRun cs site n rows calls
    (r :: rs, calls)

/-- Two runs of a call whose callers bind alike, in every cycle, what the call can
notice have the same results and end in states that agree. -/
theorem call_isolated (m : Machine) (p : Project) (depth : Nat) (site : Site) (f : String)
    (es : List Expr) (n : NodeDef) (hsite : p.exprAt site = some (.call f es))
    (hf : p.findNode f = some n) (rows : List (List Value × Env × Env))
    (hrows : ∀ row ∈ rows, row.1.length = n.inputs.length ∧
      EnvAgree (Outer p n) row.2.1 row.2.2) (c d : Calls) (h : SameInstance p n site c d) :
    let run := callRun (callees m p (depth + 1)) site n
    (run (rows.map fun row => (row.1, row.2.1)) c).1 =
        (run (rows.map fun row => (row.1, row.2.2)) d).1 ∧
      SameInstance p n site (run (rows.map fun row => (row.1, row.2.1)) c).2
        (run (rows.map fun row => (row.1, row.2.2)) d).2 := by
  induction rows generalizing c d with
  | nil => exact ⟨rfl, h⟩
  | cons row rows ih =>
    obtain ⟨hlen, henv⟩ := hrows row List.mem_cons_self
    obtain ⟨hcalls, hresult⟩ := related_sameInstance (m := m) (calleesAgree m p depth) hsite hf
      hlen henv c d h
    obtain ⟨hresults, hfinal⟩ := ih (fun row hrow => hrows row (List.mem_cons_of_mem _ hrow)) _ _
      hcalls
    refine ⟨?_, hfinal⟩
    simp only [List.map_cons, callRun, callees]
    exact List.cons_eq_cons.mpr ⟨hresult.eq, hresults⟩

def constantReader : NodeDef where
  name := "G"
  kind := .operator
  inputs := []
  outputs := [⟨"o", .int32⟩]
  locals := []
  equations := [⟨["o"], .var "K"⟩]

/-- `Top` calls `G`, whose output is the constant `K`, and has an input `K`. -/
def shadowedConstant : Project where
  packages := [{
    name := "main"
    constants := [⟨"K", .int32, .const (.int 1)⟩]
    nodes := [constantReader, {
      name := "Top"
      kind := .operator
      inputs := [⟨"K", .int32⟩]
      outputs := [⟨"o", .int32⟩]
      locals := []
      equations := [⟨["o"], .call "G" []⟩] }] }]

theorem outer_constantReader {x : String} (h : Outer shadowedConstant constantReader x) :
    x = "K" := by
  have hread : ∀ t ∈ constantReader.bodyTerms, ∀ x, t.readName = some x → x = "K" := by
    simp [constantReader, NodeDef.bodyTerms, Expr.subterms, Expr.readName]
  rcases h with h | ⟨n, hn, hpre, -⟩
  · cases h with
    | own ht hx _ => exact hread _ ht _ hx
    | call ht => simp [constantReader, NodeDef.bodyTerms, Expr.subterms] at ht
    | iterate ht => simp [constantReader, NodeDef.bodyTerms, Expr.subterms] at ht
  · exfalso
    have hnone : ∀ n ∈ shadowedConstant.allNodes, ∀ t ∈ n.bodyTerms, ∀ e, t ≠ .pre e := by
      simp [shadowedConstant, constantReader, Project.allNodes, NodeDef.bodyTerms, Expr.subterms,
        Expr.subtermsList]
    exact hnone n hn _ hpre _ rfl

/-- Callers that bind `z` differently. -/
theorem call_isolated_constantReader :
    let consts : Env := Env.set (fun _ => none) "K" (.int 1)
    let run := callRun (callees ⟨true, 8⟩ shadowedConstant 8) ⟨"Top", 0, []⟩ constantReader
    (run [([], consts.set "z" (.int 2))] Calls.empty).1 =
      (run [([], consts.set "z" (.int 3))] Calls.empty).1 := by
  refine (call_isolated ⟨true, 8⟩ shadowedConstant 7 ⟨"Top", 0, []⟩ "G" [] constantReader rfl rfl
    [([], _, _)] ?_ Calls.empty Calls.empty (CallsAgree.empty _)).1
  simp only [List.mem_singleton, forall_eq]
  refine ⟨rfl, fun x hx => ?_⟩
  obtain rfl := outer_constantReader hx
  rfl

/-- The caller's input `K` is seen by the callee in place of the constant. -/
theorem exists_leaking_call :
    ¬ ∀ (m : Machine) (p : Project), Typecheck.Accepted p → ∀ site f es n consts,
      p.exprAt site = some (.call f es) → p.findNode f = some n →
      evalConstants m p = .ok consts → ∀ depth args vars vars' calls,
      ((callees m p depth).stepInstance site n args (consts.extend vars) calls).1 =
        ((callees m p depth).stepInstance site n args (consts.extend vars') calls).1 := by
  intro h
  have hleak := h ⟨true, 8⟩ shadowedConstant (by decide) ⟨"Top", 0, []⟩ "G" [] _
    (Env.set (fun _ => none) "K" (.int 1)) rfl rfl rfl 8 []
    (Env.set (fun _ => none) "K" (.int 5)) (Env.set (fun _ => none) "K" (.int 7)) Calls.empty
  exact absurd hleak (by intro heq; cases heq)

end OpenLustre.Simulator
