import Ontograph.Ontology.Basic

/-!
# Shared ontologies

One ontology behind several handles: what is written through one handle is read through all. The
ontology can be taken back through the last handle only.
-/

namespace Ontograph

/-- An ontology and the number of handles there are beside the first. -/
structure SharedOntology where
  ontology : Ontology
  clones : Nat := 0

namespace SharedOntology

variable (h : SharedOntology)

/-- Works on the ontology through a handle. -/
def update {α : Type} (f : Ontology → α × Ontology) : α × SharedOntology :=
  let (r, ontology) := f h.ontology
  (r, { h with ontology })

/-- Makes one more handle. -/
def clone : SharedOntology := { h with clones := h.clones + 1 }

/-- Drops a handle, but not the first. Also answers whether there was one to drop. -/
def dropClone : Bool × SharedOntology := (h.clones != 0, { h with clones := h.clones - 1 })

/-- The ontology, if this is the only handle. -/
def ontology? : Option Ontology := if h.clones = 0 then some h.ontology else none

end SharedOntology

end Ontograph
