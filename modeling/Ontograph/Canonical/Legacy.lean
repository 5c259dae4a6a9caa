import Ontograph.Canonical.Edit

/-!
# Superseded vocabulary

OWL 1 and RDF Schema types are replaced by the types of OWL 2, and `owl:distinctMembers` by
`owl:members`. A type that meant deprecation leaves `owl:deprecated true` behind.
-/

namespace Ontograph

/-- A superseded type, the type that replaces it, and whether it meant deprecation. -/
structure LegacyType where
  legacy : Iri
  modern : Iri
  deprecates : Bool
  deriving DecidableEq

/-- The superseded types. -/
def legacyTypes : List LegacyType :=
  [⟨.owl .OntologyProperty, .owl .AnnotationProperty, false⟩,
    ⟨.owl .DataRange, .rdfs .Datatype, false⟩,
    ⟨.owl .DeprecatedClass, .owl .Class, true⟩,
    ⟨.owl .DeprecatedProperty, .rdf .Property, true⟩]

/-- The edits that replace a superseded type of one node. -/
def LegacyType.edits (l : LegacyType) (n : Node) : List Edit :=
  .add (.typing n l.modern) ::
  (if l.deprecates then [.add ⟨n, .owl .deprecated, Literal.yes⟩] else []) ++
  [.delete (.typing n l.legacy)]

namespace TripleSet

/-- The nodes typed with a class. -/
def typed (S : TripleSet) (c : Iri) : List Node := S.subjects (.rdf .type) (.iri c : Node)

/-- Does the set use superseded vocabulary? -/
def hasLegacy (S : TripleSet) : Bool :=
  legacyTypes.any (fun l => S.hasSubject (.rdf .type) (.iri l.legacy : Node)) ||
  S.isUsed (.owl .distinctMembers)

/-- The edits that replace superseded vocabulary. -/
def legacyEdits (S : TripleSet) : List Edit :=
  (legacyTypes.flatMap fun l => (S.typed l.legacy).flatMap l.edits) ++
  (S.uses (.owl .distinctMembers)).flatMap fun t =>
    [.add ⟨t.subject, .owl .members, t.object⟩, .delete t]

end TripleSet

/-- Replaces superseded vocabulary. -/
def legacyPass : Pass where
  name := "legacy-promoter"
  applies g := g.union.hasLegacy
  run := Pass.ofGraph fun _ g => g.edits g.union.legacyEdits

end Ontograph
