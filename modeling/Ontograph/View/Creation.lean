import Ontograph.View.Interface
import Ontograph.Classify.Search
import Ontograph.Graph.Layered

/-!
# Making nodes instances

A maker turns a node into an instance of an interface with one triple. It first checks, without
touching the graph, that the node may become one: the reserved vocabulary cannot be declared, and
neither can an IRI that already has a declaration excluding the wanted one.
-/

namespace Ontograph

/-- A way to make a node an instance. -/
inductive Maker
  | entity (i : Interface) (declaration : Iri)
  | anonymousIndividual
  deriving DecidableEq

/-- A declaration, another one that excludes it, and the interface of the other one. -/
structure Exclusion where
  declaration : Iri
  excluded : Iri
  existing : Interface
  deriving DecidableEq

/-- The declarations that cannot share an IRI: classes exclude datatypes, and the three sorts of
properties exclude each other. -/
def exclusions : List Exclusion :=
  [⟨.owl .Class, .rdfs .Datatype, .datatype⟩,
    ⟨.rdfs .Datatype, .owl .Class, .owlClass⟩,
    ⟨.owl .ObjectProperty, .owl .DatatypeProperty, .dataProperty⟩,
    ⟨.owl .ObjectProperty, .owl .AnnotationProperty, .annotationProperty⟩,
    ⟨.owl .DatatypeProperty, .owl .ObjectProperty, .objectProperty⟩,
    ⟨.owl .DatatypeProperty, .owl .AnnotationProperty, .annotationProperty⟩,
    ⟨.owl .AnnotationProperty, .owl .ObjectProperty, .objectProperty⟩,
    ⟨.owl .AnnotationProperty, .owl .DatatypeProperty, .dataProperty⟩]

namespace Maker

/-- Checks that a term can be made an instance. -/
def check (S : TripleSet) (budget : Option Nat) : Maker → Term → Except MakeError Unit
  | .entity i declaration, .node (.iri iri) =>
    if iri.isReserved || iri.builtin?.isSome then .error (.builtin (.node (.iri iri)) i)
    else
      match exclusions.find? fun e => e.declaration == declaration && S.hasType iri e.excluded with
      | some e => .error (.incompatibleRole (.node (.iri iri)) i e.existing)
      | none => .ok ()
  | .entity i _, x => .error (.wrongNodeKind x i .iri)
  | .anonymousIndividual, .node (.blank b) =>
    if S.isA budget .owlClass (.node (.blank b)) then
      .error (.incompatibleRole (.node (.blank b)) .anonymousIndividual .classExpression)
    else .ok ()
  | .anonymousIndividual, x => .error (.wrongNodeKind x .anonymousIndividual .blank)

/-- Makes a term an instance, whatever it is already. Answers whether that was possible, with the
graph it leaves behind. -/
def make (g : Graph) : Maker → Term → Except MakeError Unit × Graph
  | .entity _ declaration, .node (.iri iri) =>
    (.ok (), (g.insert (.typing iri declaration)).2)
  | .entity i _, x => (.error (.wrongNodeKind x i .iri), g)
  | .anonymousIndividual, .node (.blank b) => (.ok (), (g.insert (.typing b (.owl .Thing))).2)
  | .anonymousIndividual, x => (.error (.wrongNodeKind x .anonymousIndividual .blank), g)

end Maker

end Ontograph
