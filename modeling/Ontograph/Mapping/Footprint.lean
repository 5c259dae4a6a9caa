import Ontograph.Rdf.Term

/-!
# Footprints

The triples that encode one axiom: a main triple, from which the axiom is read, and the others
that hang from it.
-/

namespace Ontograph

/-- A main triple and the other triples of an encoding. -/
structure Footprint where
  main : Triple
  others : List Triple
  deriving DecidableEq

namespace Footprint

/-- The footprint made of a main triple and triples gathered in any number: each is kept once. -/
def of (main : Triple) (gathered : List Triple) : Footprint :=
  ⟨main, (gathered.filter (· != main)).eraseDups⟩

/-- All triples, the main one first. -/
def triples (f : Footprint) : List Triple := f.main :: f.others

/-- The triples of the footprint are the main one and those gathered. -/
@[simp] theorem mem_triples_of {main t : Triple} {gathered : List Triple} :
    t ∈ (of main gathered).triples ↔ t = main ∨ t ∈ gathered := by
  simp only [of, triples, List.mem_cons, List.mem_eraseDups, List.mem_filter, bne_iff_ne]
  by_cases h : t = main <;> simp [h]

end Footprint

end Ontograph
