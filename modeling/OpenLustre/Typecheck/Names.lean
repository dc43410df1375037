import Mathlib.Data.List.Nodup
import OpenLustre.Typecheck.Check

/-! The names an accepted project declares are different. -/

namespace OpenLustre.Typecheck

open OpenLustre.Ir

section Seen

variable {α : Type} {name : α → String} {check : List String → List α → List Diagnostic}

/-- A check that reports the names it has seen accepts different names only. -/
theorem nodup_of_check
    (hcheck : ∀ seen a as, (∀ d ∈ check seen (a :: as), d.isError = false) →
      name a ∉ seen ∧ ∀ d ∈ check (name a :: seen) as, d.isError = false)
    {seen : List String} {as : List α} (h : ∀ d ∈ check seen as, d.isError = false) :
    (as.map name).Nodup ∧ ∀ x ∈ as.map name, x ∉ seen := by
  induction as generalizing seen with
  | nil => simp
  | cons a as ih =>
    obtain ⟨hnew, hrest⟩ := hcheck seen a as h
    obtain ⟨hnodup, hseen⟩ := ih hrest
    rw [List.map_cons]
    constructor
    · exact List.nodup_cons.mpr ⟨fun hmem => hseen _ hmem List.mem_cons_self, hnodup⟩
    · intro x hx
      cases List.mem_cons.mp hx with
      | inl hx => exact hx ▸ hnew
      | inr hx => exact fun hmem => hseen x hx (List.mem_cons_of_mem _ hmem)

theorem not_mem_of_report {seen : List String} {x code message : String} {context : List String}
    {rest : List Diagnostic}
    (h : ∀ d ∈ (if seen.contains x then [.error code message context] else []) ++ rest,
      d.isError = false) : x ∉ seen := by
  intro hmem
  have := h (.error code message context) (by simp [hmem])
  simp at this

theorem duplicates_nodup {report : String → Diagnostic} (hreport : ∀ x, (report x).isError = true)
    {before : List String} {ps : List Port}
    (h : ∀ d ∈ duplicates report before ps, d.isError = false) :
    (ps.map (·.name)).Nodup ∧ ∀ x ∈ ps.map (·.name), x ∉ before := by
  refine nodup_of_check (fun seen q qs hq => ⟨fun hmem => ?_, fun d hd => ?_⟩) h
  · have := hq (report q.name) (by simp [duplicates, hmem])
    rw [hreport] at this
    cases this
  · exact hq d (List.mem_append_right _ hd)

theorem checkNodeNames_nodup {seen : List String} {ns : List NodeDef}
    (h : ∀ d ∈ checkNodeNames seen ns, d.isError = false) :
    (ns.map (·.name)).Nodup ∧ ∀ x ∈ ns.map (·.name), x ∉ seen :=
  @nodup_of_check _ (·.name) checkNodeNames (fun _ _ _ hn =>
    ⟨not_mem_of_report hn, fun d hd => hn d (List.mem_append_right _ hd)⟩) seen ns h

theorem checkVariants_nodup {pkg enumName : String} {seen vs : List String}
    (h : ∀ d ∈ checkVariants pkg enumName seen vs, d.isError = false) :
    vs.Nodup ∧ ∀ v ∈ vs, v ∉ seen := by
  have hvs := @nodup_of_check _ id (checkVariants pkg enumName) (fun _ _ _ hv =>
    ⟨not_mem_of_report hv, fun d hd => hv d (List.mem_append_right _ hd)⟩) seen vs h
  rwa [List.map_id] at hvs

theorem checkConstants_nodup {p : Project} {seen : List String} {cs : List ConstDef}
    (h : ∀ d ∈ checkConstants p seen cs, d.isError = false) :
    (cs.map (·.name)).Nodup ∧ ∀ x ∈ cs.map (·.name), x ∉ seen := by
  refine nodup_of_check (fun seen c cs hc => ⟨fun hmem => ?_, fun d hd => ?_⟩) h
  · have := hc (.error "E0003" ("duplicate constant `" ++ c.name ++ "`") ["constant " ++ c.name])
      (by simp [checkConstants, hmem])
    simp at this
  · exact hc d (List.mem_append_right _ hd)

theorem checkTypeNames_nodup {seen variants : List String} {ts : List (String × TypeDef)}
    (h : ∀ d ∈ checkTypeNames seen variants ts, d.isError = false) :
    (ts.map (·.2.name)).Nodup ∧ ∀ x ∈ ts.map (·.2.name), x ∉ seen := by
  induction ts generalizing variants seen with
  | nil => simp
  | cons t ts ih =>
    obtain ⟨pkg, t⟩ := t
    rw [checkTypeNames, List.append_assoc] at h
    obtain ⟨hnodup, hnew⟩ := ih fun d hd =>
      h d (List.mem_append_right _ (List.mem_append_right _ hd))
    rw [List.map_cons]
    constructor
    · exact List.nodup_cons.mpr ⟨fun hmem => hnew _ hmem List.mem_cons_self, hnodup⟩
    · intro x hx
      cases List.mem_cons.mp hx with
      | inl hx => exact hx ▸ not_mem_of_report h
      | inr hx => exact fun hmem => hnew x hx (List.mem_cons_of_mem _ hmem)

theorem checkTypeNames_variants {seen variants : List String} {ts : List (String × TypeDef)}
    (h : ∀ d ∈ checkTypeNames seen variants ts, d.isError = false) :
    (ts.flatMap fun t => TypeBody.variants t.2.body).Nodup ∧
      ∀ v ∈ ts.flatMap fun t => TypeBody.variants t.2.body, v ∉ variants := by
  induction ts generalizing variants seen with
  | nil => simp
  | cons t ts ih =>
    obtain ⟨pkg, t⟩ := t
    rw [checkTypeNames] at h
    obtain ⟨hnodup, hnew⟩ := checkVariants_nodup fun d hd =>
      h d (List.mem_append_left _ (List.mem_append_right _ hd))
    obtain ⟨hnodups, hnews⟩ := ih fun d hd => h d (List.mem_append_right _ hd)
    rw [List.flatMap_cons]
    constructor
    · refine List.nodup_append.mpr ⟨hnodup, hnodups, ?_⟩
      intro v hv w hw heq
      exact hnews w hw (List.mem_append_left _ (heq ▸ hv))
    · intro v hv
      cases List.mem_append.mp hv with
      | inl hv => exact hnew v hv
      | inr hv => exact fun hmem => hnews v hv (List.mem_append_right _ hmem)

end Seen

section Accepted

variable {p : Project} {n : NodeDef} (h : Accepted p)

include h

theorem Accepted.diagnostic {d : Diagnostic} (hd : d ∈ checkProject p) : d.isError = false := by
  simpa using List.all_eq_true.mp h d hd

theorem Accepted.checkTypeNames {d : Diagnostic}
    (hd : d ∈ Typecheck.checkTypeNames [] [] (p.packages.flatMap fun pkg =>
      pkg.types.map (pkg.name, ·))) : d.isError = false :=
  h.diagnostic (by simp [checkProject, hd])

theorem Accepted.typeNames_nodup : (p.allTypes.map (·.name)).Nodup := by
  have hnames := (checkTypeNames_nodup fun d => h.checkTypeNames).1
  rw [Project.allTypes, List.map_flatMap]
  simpa [List.map_flatMap, Function.comp_def] using hnames

theorem Accepted.variants_nodup :
    (p.allTypes.flatMap fun t => TypeBody.variants t.body).Nodup := by
  have hvariants := (checkTypeNames_variants fun d => h.checkTypeNames).1
  rw [List.flatMap_assoc] at hvariants
  simpa [Project.allTypes, List.flatMap_assoc, List.flatMap_map] using hvariants

theorem Accepted.constants_nodup : (p.allConstants.map (·.name)).Nodup := by
  have hnames : ∀ d ∈ checkConstants p [] p.allConstants, d.isError = false := fun d hd =>
    h.diagnostic (by simp [checkProject, hd])
  exact (checkConstants_nodup hnames).1

theorem Accepted.nodeNames_nodup : (p.allNodes.map (·.name)).Nodup := by
  have hnames : ∀ d ∈ checkNodeNames [] p.allNodes, d.isError = false := fun d hd =>
    h.diagnostic (by simp [checkProject, hd])
  exact (checkNodeNames_nodup hnames).1

theorem Accepted.locals_nodup (hn : n ∈ p.allNodes) (himp : n.isImported = false) :
    (n.locals.map (·.name)).Nodup := by
  have hlocals : ∀ d ∈ checkDeclarations n ("node " ++ n.name), d.isError = false := fun d hd =>
    h.isError hn d (by simp [checkNode, himp, hd])
  exact (duplicates_nodup (fun _ => rfl) fun d hd => hlocals d (List.mem_append_right _ hd)).1

end Accepted

end OpenLustre.Typecheck
