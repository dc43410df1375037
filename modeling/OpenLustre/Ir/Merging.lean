import OpenLustre.Ir.Project
import OpenLustre.Lib.Descent

/-! What the packages of a name declare, and that merging projects keeps it. -/

namespace OpenLustre.Ir

open Descent

/-- What the packages of one name declare, of the kind that a field lists. -/
def declared {α : Type} (field : Package → List α) (name : String) (packages : List Package) :
    List α := (packages.filter (·.name = name)).flatMap field

/-- Both declare the same under every package name, in whatever order. -/
structure SameDeclarations (ps qs : List Package) : Prop where
  types : ∀ name, (declared (·.types) name ps).Perm (declared (·.types) name qs)
  constants : ∀ name, (declared (·.constants) name ps).Perm (declared (·.constants) name qs)
  nodes : ∀ name, (declared (·.nodes) name ps).Perm (declared (·.nodes) name qs)
  contracts : ∀ name, (declared (·.contracts) name ps).Perm (declared (·.contracts) name qs)
  importedOperators : ∀ name,
    (declared (·.importedOperators) name ps).Perm (declared (·.importedOperators) name qs)
  stateMachines : ∀ name,
    (declared (·.stateMachines) name ps).Perm (declared (·.stateMachines) name qs)
  activations : ∀ name, (declared (·.activations) name ps).Perm (declared (·.activations) name qs)

theorem declared_append {α : Type} {field : Package → List α} {name : String} (ps qs : List Package) :
    declared field name (ps ++ qs) = declared field name ps ++ declared field name qs := by
  simp [declared]

/-- Both have the same in every field that extending a package appends to. -/
def Alike (ps qs : List Package) : Prop :=
  ∀ (α : Type) (field : Package → List α),
    (∀ dst src : Package, field (dst.extend src) = field dst ++ field src) →
    ∀ name, (declared field name ps).Perm (declared field name qs)

namespace Alike

variable {ps qs ps' qs' : List Package}

theorem refl (ps : List Package) : Alike ps ps := fun _ _ _ _ => .refl _

theorem trans {rs : List Package} (h : Alike ps qs) (h' : Alike qs rs) : Alike ps rs :=
  fun α field hextend name => (h α field hextend name).trans (h' α field hextend name)

theorem append (h : Alike ps qs) (h' : Alike ps' qs') : Alike (ps ++ ps') (qs ++ qs') := by
  intro α field hextend name
  rw [declared_append, declared_append]
  exact (h α field hextend name).append (h' α field hextend name)

theorem comm (ps qs : List Package) : Alike (ps ++ qs) (qs ++ ps) := by
  intro α field hextend name
  rw [declared_append, declared_append]
  exact List.perm_append_comm

theorem mergePackage (src : Package) (packages : List Package) :
    Alike (Project.mergePackage src packages) (packages ++ [src]) := by
  induction packages with
  | nil => exact .refl _
  | cons dst packages ih =>
    simp only [Project.mergePackage]
    split
    · next heq =>
      have hhead : Alike [dst.extend src] [dst, src] := by
        intro α field hextend name
        have hname : (dst.extend src).name = dst.name := rfl
        by_cases hmine : dst.name = name <;> simp [declared, hname, ← heq, hmine, hextend]
      exact (hhead.append (.refl packages)).trans ((refl [dst]).append (comm [src] packages))
    · exact (refl [dst]).append ih

theorem merge (p other : Project) :
    Alike (p.merge other).packages (p.packages ++ other.packages) := by
  suffices h : ∀ qs ps, Alike
      (qs.foldl (fun packages src => Project.mergePackage src packages) ps) (ps ++ qs) from
    h other.packages p.packages
  intro qs
  induction qs with
  | nil => exact fun ps => by simpa using refl ps
  | cons q qs ih =>
    intro ps
    refine (ih _).trans ?_
    simpa using (mergePackage q ps).append (refl qs)

theorem same (h : Alike ps qs) : SameDeclarations ps qs where
  types := h _ _ fun _ _ => rfl
  constants := h _ _ fun _ _ => rfl
  nodes := h _ _ fun _ _ => rfl
  contracts := h _ _ fun _ _ => rfl
  importedOperators := h _ _ fun _ _ => rfl
  stateMachines := h _ _ fun _ _ => rfl
  activations := h _ _ fun _ _ => rfl

end Alike

section Files

variable {α : Type} (r : α → α → Prop) (content : α → List Package → Prop)

/-- What loading some files adds: the files not loaded before with what each of them declares, all
of it merged into what was there. -/
structure Merged (way done targets : List α) (before after : List Package)
    (files : List (α × List Package)) : Prop where
  explored : Explored r way done (files.map (·.1)) targets
  content : ∀ f ∈ files, content f.1 f.2
  alike : Alike after (before ++ files.flatMap (·.2))

variable {r content} {way done targets : List α} {after : List Package}
  {files files' : List (α × List Package)} {a : α}

namespace Merged

theorem nil (h : Finished r done) (packages : List Package) :
    Merged r content way done [] packages packages [] where
  explored := .nil h
  content _ hf := by cases hf
  alike := by simpa using Alike.refl packages

theorem again (h : Finished r done) (ha : a ∈ done) : Merged r content way done [a] [] [] [] where
  explored := .again h ha
  content _ hf := by cases hf
  alike := .refl _

theorem cons {p child : Project} (h : Merged r content way done [a] [] child.packages files)
    (hrest : Merged r content way (files.map (·.1) ++ done) targets (p.merge child).packages after
      files') :
    Merged r content way done (a :: targets) p.packages after (files' ++ files) where
  explored := by simpa using h.explored.cons hrest.explored
  content f hf := (List.mem_append.mp hf).elim (hrest.content f) (h.content f)
  alike := by
    have hmerge := (Alike.merge p child).trans ((Alike.refl p.packages).append h.alike)
    have hall := hrest.alike.trans (hmerge.append (.refl (files'.flatMap (·.2))))
    rw [List.append_assoc] at hall
    rw [List.flatMap_append]
    exact hall.trans ((Alike.refl _).append (.comm _ _))

theorem node {packages : List Package} (h : Merged r content (a :: way) done targets packages after files)
    (hcontent : content a packages) (hdone : a ∉ done) (hway : a ∉ way)
    (hall : ∀ b, r a b ↔ b ∈ targets) :
    Merged r content way done [a] [] after ((a, packages) :: files) where
  explored := h.explored.node hdone hway hall
  content f hf := by
    rcases List.mem_cons.mp hf with rfl | hf
    · exact hcontent
    · exact h.content f hf
  alike := h.alike

end Merged

/-- What a project has of some files: all that can be reached from the root, each of them once. -/
structure MergedOnce (r : α → α → Prop) (content : α → List Package → Prop) (root : α)
    (packages : List Package) (files : List (α × List Package)) : Prop where
  once : (files.map (·.1)).Nodup
  all : ∀ a, a ∈ files.map (·.1) ↔ Relation.ReflTransGen r root a
  content : ∀ f ∈ files, content f.1 f.2
  same : SameDeclarations packages (files.flatMap (·.2))

theorem Merged.mergedOnce {root : α} (h : Merged r content [] [] [root] [] after files) :
    MergedOnce r content root after files where
  once := by simpa using h.explored.finished.nodup
  all _ := h.explored.mem_iff
  content := h.content
  same := h.alike.same

end Files

end OpenLustre.Ir
