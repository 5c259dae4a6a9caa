import Ontograph.Graph.TripleSet

/-!
# Graphs with imports

A graph is one writable set of triples, its base, and an ordered list of imported sets that are
only read. Reading sees the union of all layers; writing changes the base alone. Each change moves
the generation on, so that anything derived from a graph can tell whether it is still current.
-/

namespace Ontograph

/-- A set of triples brought into a graph, known by a tag: two imports with one tag are the same
import, whatever other import holds the same triples. -/
structure Import where
  tag : Nat
  triples : TripleSet
  deriving DecidableEq

/-- A triple cannot have this term as its subject. -/
structure InvalidSubject where
  subject : Term
  deriving DecidableEq

/-- A writable base, imports in the order they were added, and a count of the changes. -/
structure Graph where
  base : TripleSet := ∅
  imports : List Import := []
  generation : Nat := 0
  deriving DecidableEq

instance : Inhabited Graph := ⟨{}⟩

namespace Graph

/-- The triples of all layers: those of the base, then those each import adds. -/
def union (g : Graph) : TripleSet := g.imports.foldl (fun S i => S.followedBy i.triples) g.base

/-- Does an import hold the triple? -/
def isImported (g : Graph) (t : Triple) : Bool := g.imports.any fun i => decide (t ∈ i.triples)

/-- Does some layer hold the triple? -/
def contains (g : Graph) (t : Triple) : Bool := decide (t ∈ g.base) || g.isImported t

instance : Membership Triple Graph := ⟨fun g t => t ∈ g.base ∨ ∃ i ∈ g.imports, t ∈ i.triples⟩

/-- Writes a triple to the base, unless some layer holds it. Also answers whether it was new. -/
def insert (g : Graph) (t : Triple) : Bool × Graph :=
  if g.contains t then (false, g)
  else (true, { g with base := g.base.insert t, generation := g.generation + 1 })

/-- Takes a triple out of the base. Also answers whether it was there. -/
def remove (g : Graph) (t : Triple) : Bool × Graph :=
  if t ∈ g.base then (true, { g with base := g.base.erase t, generation := g.generation + 1 })
  else (false, g)

/-- Writes the triple made of three terms; a literal cannot be its subject. -/
def insertTerms (g : Graph) (s : Term) (p : Iri) (o : Term) :
    Except InvalidSubject (Bool × Graph) :=
  match s with
  | .node s => .ok (g.insert ⟨s, p, o⟩)
  | .literal _ => .error ⟨s⟩

/-- Writes triples one after another. Also answers how many were new. -/
def insertAll (g : Graph) (ts : List Triple) : Nat × Graph :=
  ts.foldl (fun (n, g) t => let (new, g) := g.insert t; (n + new.toNat, g)) (0, g)

/-- Takes triples out of the base one after another. Also answers how many were there. -/
def removeAll (g : Graph) (ts : List Triple) : Nat × Graph :=
  ts.foldl (fun (n, g) t => let (found, g) := g.remove t; (n + found.toNat, g)) (0, g)

/-- Adds an import. -/
def addImport (g : Graph) (i : Import) : Graph :=
  { g with imports := g.imports ++ [i], generation := g.generation + 1 }

/-- Takes out every copy of the import with a given tag. Also answers whether there was one. -/
def dropImport (g : Graph) (tag : Nat) : Bool × Graph :=
  if g.imports.any (·.tag == tag) then
    (true, { g with
      imports := g.imports.filter (·.tag != tag), generation := g.generation + 1 })
  else (false, g)

/-! ## Reading the union -/

variable {g : Graph} {t : Triple}

/-- A triple is in a graph if it is in the base or in an import. -/
theorem mem_def : t ∈ g ↔ t ∈ g.base ∨ ∃ i ∈ g.imports, t ∈ i.triples := Iff.rfl

/-- The union holds the triples of the layers. -/
@[simp] theorem mem_union : t ∈ g.union ↔ t ∈ g := by
  have h : ∀ (is : List Import) (S : TripleSet),
      t ∈ is.foldl (fun S i => S.followedBy i.triples) S ↔ t ∈ S ∨ ∃ i ∈ is, t ∈ i.triples := by
    intro is
    induction is with
    | nil => simp
    | cons i is ih =>
      intro S
      simp only [List.foldl_cons, ih, TripleSet.mem_followedBy, List.mem_cons, exists_eq_or_imp,
        or_assoc]
  exact h g.imports g.base

/-- A triple is imported if it is in one of the imports. -/
@[simp] theorem isImported_iff : g.isImported t = true ↔ ∃ i ∈ g.imports, t ∈ i.triples := by
  simp [isImported]

/-- A graph is asked for the triples of all of its layers. -/
@[simp] theorem contains_iff : g.contains t = true ↔ t ∈ g := by
  simp [contains, mem_def]

end Graph

end Ontograph
