import Ontograph.Canonical.Edit
import Ontograph.Classify.Search

/-!
# Implied declarations

IRIs whose place in the graph makes them classes are declared as classes. IRIs that restrictions
are on are declared as object or data properties, if they are one of the two and not both.
-/

namespace Ontograph

namespace TripleSet

variable (S : TripleSet)

/-- The terms in the place of a class. Operands of equivalences and domains count if the graph
implies that they are classes. -/
def classPlaces (s : Settings) : List Term :=
  ([Iri.rdfs .subClassOf, .owl .disjointWith].flatMap fun p =>
    (S.uses p).flatMap fun t => [.node t.subject, t.object]) ++
  ([Iri.owl .complementOf, .owl .onClass].flatMap fun p => (S.uses p).map Triple.object) ++
  ((S.uses (.owl .disjointUnionOf)).flatMap fun t =>
    .node t.subject ::
      match S.readList s.listLimit t.object with
      | .ok members => members
      | .error _ => []) ++
  (S.uses (.rdf .type)).map Triple.object ++
  (((S.uses (.owl .equivalentClass)).flatMap fun t => [.node t.subject, t.object]) ++
    (S.uses (.rdfs .domain)).map Triple.object).filter fun x => S.isA s.budget .owlClass x

/-- The edits that declare the IRIs in the place of a class. -/
def classDeclarations (s : Settings) : List Edit :=
  let places := ((S.classPlaces s).filterMap Term.iri?).filter fun i => !i.isReserved
  places.eraseDups.map fun i : Iri => .add (.typing i (.owl .Class))

/-- The sort of property that an IRI is, if it is of one sort only. -/
def onlySort? (budget : Option Nat) (i : Iri) : Option Iri :=
  let isA (c : Category) := S.isA budget c (.iri i : Node)
  match isA .objectProperty, isA .dataProperty with
  | true, false => some (.owl .ObjectProperty)
  | false, true => some (.owl .DatatypeProperty)
  | _, _ => none

/-- The edits that declare the IRIs that restrictions are on. -/
def propertyDeclarations (s : Settings) : List Edit :=
  let properties := ((S.uses (.owl .onProperty)).filterMap fun t => t.object.iri?).filter
    fun i => !i.isReserved
  properties.filterMap fun i : Iri =>
    (S.onlySort? s.budget i).map fun c => .add (.typing i c)

end TripleSet

/-- Declares what the graph implies. -/
def declarationPass : Pass where
  name := "declaration-completion"
  run := Pass.ofGraph fun s g =>
    g.edits (g.union.classDeclarations s ++ g.union.propertyDeclarations s)

end Ontograph
