import AppAtlas.Analysis.Analyzer
import AppAtlas.Proofs.Extract.Growth
import AppAtlas.Proofs.FilePath

/-!
# Findings are labelled

Findings carry the normalised path and the kind of the file they were made from.  Every extractor
starts from findings with these labels, and no step of it touches a label.

* `Extractor.labels_standard`: the findings of a file are labelled with its path and kind.
-/

namespace AppAtlas

variable {κ : Type}

structure FindingSet.Labelled (path : String) (kind : ArtifactKind) (f : FindingSet κ) : Prop where
  path : f.path = FilePath.normalize path
  kind : f.artifact = kind

theorem FindingSet.Grows.labelled {path : String} {kind : ArtifactKind} {f : FindingSet κ}
    (h : (FindingSet.start path kind).Grows f) : f.Labelled path kind := by
  induction h with
  | refl => exact ⟨rfl, rfl⟩
  | tail _ hstep ih => cases hstep <;> exact ⟨ih.path, ih.kind⟩

def Extractor.Labels (x : Extractor κ) : Prop :=
  ∀ (kind : ArtifactKind) (path content : String), (x.findings kind path content).Labelled path kind

/-- **The findings of a file are labelled with its path and its kind.** -/
theorem Extractor.labels_standard [Confidence κ] (options : Extract.Options κ) :
    (Extractor.standard options).Labels := fun kind path content =>
  (Extract.grows_findings options kind path content).labelled

end AppAtlas
