import Ontograph.Owl.Entity
import Ontograph.Owl.Axiom
import Ontograph.Graph.Collection

/-!
# Evidence for categories

What a graph says about the category of a node. Some of it settles the matter at once
(`TripleSet.settled?`): a built-in entity, a reserved IRI, an explicit type, a triple that only
makes sense for one category. The rest leads to other questions (`TripleSet.leads`): a node is a
class if a class is equivalent to it, a property is an object property if its range is a class.
The order of the leads is the order in which a search follows them.
-/

namespace Ontograph

/-- Is the node of the category? -/
structure Question where
  category : Category
  node : Node
  deriving DecidableEq

/-- Something that would make a node be of a category: either it holds, or it is the answer to
another question. -/
inductive Lead
  | certain
  | ask (q : Question)
  deriving DecidableEq

/-- The lead to the category of a term; literals have none. -/
def Lead.about (c : Category) : Term → List Lead
  | .node n => [.ask ⟨c, n⟩]
  | .literal _ => []

/-- The types of the nodes that carry annotations: axioms, annotations and ontology headers. -/
def annotatedTypes : List Iri := [.owl .Axiom, .owl .AnnotationResource, .owl .Ontology]

/-- The types that declare a property of some sort. -/
def propertyTypes : List Iri :=
  [.owl .ObjectProperty, .owl .DatatypeProperty, .owl .AnnotationProperty]

/-- The characteristics that only an object property has. -/
def Characteristic.objectOnly : List Characteristic :=
  [.inverseFunctional, .reflexive, .irreflexive, .symmetric, .asymmetric, .transitive]

/-- The predicates whose object is an individual. -/
def individualPredicates : List Iri :=
  [.owl .sameAs, .owl .differentFrom, .owl .hasValue, .owl .sourceIndividual,
    .owl .targetIndividual]

namespace TripleSet

variable (S : TripleSet)

/-! ## Evidence that settles a question -/

/-- Does the `owl:oneOf` list of the node begin with a literal? Unanswered without a list. -/
def enumeratesLiterals? (n : Node) : Option Bool :=
  (S.object? n (.owl .oneOf)).bind fun head => (S.items head).head?.map Term.isLiteral

/-- Is the node declared as a property of another sort than the given one? -/
def isDeclaredOtherwise (n : Node) (expected : Iri) : Bool :=
  propertyTypes.any fun c => c != expected && S.hasType n c

/-- Does the node carry annotations: is it an axiom, an annotation or an ontology header? -/
def isAnnotationRoot (n : Node) : Bool := annotatedTypes.any fun c => S.hasType n c

/-- Do the triples around the node make it a class? -/
def looksLikeClass (n : Node) : Bool :=
  S.hasType n (.owl .Class) || S.hasType n (.owl .Restriction) ||
  (S.hasType n (.rdfs .Class) && !S.hasType n (.rdfs .Datatype)) ||
  [.owl .onProperty, .owl .complementOf, .owl .disjointUnionOf, .owl .hasKey, .rdfs .subClassOf,
    .owl .disjointWith].any (fun p => S.hasProperty n p) ||
  S.enumeratesLiterals? n == some false ||
  [.rdfs .subClassOf, .owl .disjointWith, .owl .complementOf, .owl .onClass, .rdf .type].any
    (fun p => S.hasSubject p n) ||
  (S.listLinks n).any fun t =>
    t.predicate == .owl .disjointUnionOf ||
    (t.predicate == .owl .members && S.hasType t.subject (.owl .AllDisjointClasses))

/-- Is the node typed as an object property or with a characteristic of object properties? -/
def isTypedObjectProperty (n : Node) : Bool :=
  S.hasType n (.owl .ObjectProperty) ||
    Characteristic.objectOnly.any fun c => S.hasType n c.type

/-- Do the triples around the node make it an object property? -/
def looksLikeObjectProperty (n : Node) : Bool :=
  S.hasProperty n (.owl .inverseOf) || S.hasProperty n (.owl .propertyChainAxiom) ||
  S.hasSubject (.owl .inverseOf) n ||
  (S.subjects (.owl .onProperty) n).any (fun r =>
    S.hasProperty r (.owl .hasSelf) || S.hasProperty r (.owl .onClass) ||
    (S.objects r (.owl .hasValue)).any fun v => !v.isLiteral) ||
  (S.subjects (.owl .assertionProperty) n).any
    (fun a => S.hasProperty a (.owl .targetIndividual)) ||
  (S.listLinks n).any fun t => t.predicate == .owl .propertyChainAxiom

/-- Do the triples around the node make it a data property? -/
def looksLikeDataProperty (n : Node) : Bool :=
  (S.subjects (.owl .onProperty) n).any (fun r =>
    S.hasProperty r (.owl .onDataRange) || (S.objects r (.owl .hasValue)).any Term.isLiteral) ||
  (S.subjects (.owl .assertionProperty) n).any fun a => S.hasProperty a (.owl .targetValue)

/-- Is the IRI used to annotate an axiom, an annotation or an ontology header? -/
def looksLikeAnnotationProperty (i : Iri) : Bool :=
  S.toList.any fun t => t.predicate == i && S.isAnnotationRoot t.subject

/-- Do the triples around the node make it a datatype? -/
def looksLikeDatatype (n : Node) : Bool :=
  S.hasType n (.rdfs .Datatype) || S.hasType n (.owl .DataRange) ||
  [.owl .onDatatype, .owl .withRestrictions, .owl .datatypeComplementOf].any
    (fun p => S.hasProperty n p) ||
  S.enumeratesLiterals? n == some true ||
  [.owl .onDatatype, .owl .datatypeComplementOf, .owl .onDataRange].any
    fun p => S.hasSubject p n

/-- Does the triple only make sense for a subject that is an individual? -/
def describesIndividual (t : Triple) : Bool :=
  t.predicate == .owl .sameAs || t.predicate == .owl .differentFrom ||
  (t.predicate == .rdf .type &&
    match t.object with
    | .node (.iri c) => !c.isReserved || c.isBuiltin .owlClass
    | .node (.blank _) => true
    | .literal _ => false)

/-- Do the triples around the node make it an individual? -/
def looksLikeIndividual (n : Node) : Bool :=
  S.hasType n (.owl .NamedIndividual) || (S.outgoing n).any describesIndividual ||
  individualPredicates.any (fun p => S.hasSubject p n) ||
  (S.listLinks n).any fun t =>
    t.predicate == .owl .oneOf ||
    ((t.predicate == .owl .members || t.predicate == .owl .distinctMembers) &&
      S.hasType t.subject (.owl .AllDifferent))

/-- The answer to a question, as far as it needs no other question. A built-in entity is of its
category and no reserved IRI is of another one; a property declared with one sort is of no other
sort, unless it has a characteristic of object properties. -/
def settled? (q : Question) : Option Bool :=
  let n := q.node
  if n.isBuiltin q.category then some true
  else if n.isReserved then some false
  else match q.category with
  | .owlClass => confirmed (S.looksLikeClass n)
  | .objectProperty =>
    if S.isTypedObjectProperty n then some true
    else if S.isDeclaredOtherwise n (.owl .ObjectProperty) then some false
    else confirmed (S.looksLikeObjectProperty n)
  | .dataProperty =>
    if S.hasType n (.owl .DatatypeProperty) then some true
    else if S.isDeclaredOtherwise n (.owl .DatatypeProperty) then some false
    else confirmed (S.looksLikeDataProperty n)
  | .annotationProperty =>
    match n with
    | .blank _ => some false
    | .iri i =>
      if S.hasType n (.owl .AnnotationProperty) then some true
      else if S.isDeclaredOtherwise n (.owl .AnnotationProperty) then some false
      else confirmed (S.looksLikeAnnotationProperty i)
  | .datatype => confirmed (S.looksLikeDatatype n)
  | .individual => confirmed (S.looksLikeIndividual n)
where
  /-- Evidence confirms; without it the question stays open. -/
  confirmed (evidence : Bool) : Option Bool := if evidence then some true else none

/-! ## Evidence that leads to other questions -/

/-- The terms that a predicate relates to the node, first from it, then to it. -/
def neighbours (n : Node) (p : Iri) : List Term :=
  S.objects n p ++ (S.subjects p n).map .node

/-- An operand of the node's combination is of the category. -/
def operandLeads (c : Category) (n : Node) : List Lead :=
  [Iri.owl .unionOf, .owl .intersectionOf].flatMap fun p =>
    (S.objects n p).flatMap fun head => (S.items head).flatMap (Lead.about c)

/-- A node equivalent to the node is of the category. -/
def equivalentLeads (c : Category) (n : Node) : List Lead :=
  (S.neighbours n (.owl .equivalentClass)).flatMap (Lead.about c)

/-- The restrictions that the node fills, one triple each: existential ones first. -/
def restrictionsFilledBy (n : Node) : List Node :=
  [Iri.owl .someValuesFrom, .owl .allValuesFrom].flatMap fun p => S.subjects p n

/-- A property that restricts to the node is an object property. -/
def restrictedObjectLeads (n : Node) : List Lead :=
  (S.restrictionsFilledBy n).flatMap fun r =>
    (S.objects r (.owl .onProperty)).flatMap fun p =>
      if p.isBlank then [.certain] else Lead.about .objectProperty p

/-- A property that restricts to the node is a data property. -/
def restrictedDataLeads (n : Node) : List Lead :=
  (S.restrictionsFilledBy n).flatMap fun r =>
    (S.objects r (.owl .onProperty)).flatMap (Lead.about .dataProperty)

/-- A property related to the node is of the category: one above or below it, an equivalent or
disjoint one, or another member of a group of disjoint properties. -/
def relatedPropertyLeads (c : Category) (n : Node) : List Lead :=
  ([Iri.rdfs .subPropertyOf, .owl .equivalentProperty, .owl .propertyDisjointWith].flatMap
    fun p => (S.neighbours n p).flatMap (Lead.about c)) ++
  (S.listLinks n).flatMap fun t =>
    if t.predicate == .owl .members && S.hasType t.subject (.owl .AllDisjointProperties) then
      (S.objects t.subject (.owl .members)).flatMap fun head =>
        ((S.items head).filter (· != .node n)).flatMap (Lead.about c)
    else []

/-- A range of the property is of the category. -/
def rangeLeads (c : Category) (n : Node) : List Lead :=
  (S.objects n (.rdfs .range)).flatMap (Lead.about c)

/-- The property is restricted to a filler of the category. -/
def fillerLeads (c : Category) (n : Node) : List Lead :=
  (S.subjects (.owl .onProperty) n).flatMap fun r =>
    [Iri.owl .someValuesFrom, .owl .allValuesFrom].flatMap fun p =>
      (S.objects r p).flatMap (Lead.about c)

/-- A property asserted of the node, or with the node as its value, relates individuals. -/
def assertionLeads (n : Node) : List Lead :=
  ((S.outgoing n).filter fun t => !t.predicate.isReserved).map (fun t =>
    .ask ⟨if t.object.isLiteral then .dataProperty else .objectProperty, t.predicate⟩) ++
  ((S.incoming n).filter fun t => !t.predicate.isReserved).map fun t =>
    .ask ⟨.objectProperty, t.predicate⟩

/-- What an unsettled question leads to, in the order in which it is followed. -/
def leads (q : Question) : List Lead :=
  let n := q.node
  match q.category with
  | .owlClass =>
    (if S.hasType n (.rdfs .Datatype) then [] else S.operandLeads .owlClass n) ++
    S.equivalentLeads .owlClass n ++
    ((S.subjects (.rdfs .domain) n).flatMap fun p =>
      [.ask ⟨.objectProperty, p⟩, .ask ⟨.dataProperty, p⟩]) ++
    ((S.subjects (.rdfs .range) n).map fun p => .ask ⟨.objectProperty, p⟩) ++
    S.restrictedObjectLeads n
  | .objectProperty =>
    S.relatedPropertyLeads .objectProperty n ++ S.rangeLeads .owlClass n ++
    S.fillerLeads .owlClass n
  | .dataProperty =>
    S.relatedPropertyLeads .dataProperty n ++ S.rangeLeads .datatype n ++
    S.fillerLeads .datatype n
  | .annotationProperty =>
    (S.neighbours n (.rdfs .subPropertyOf)).flatMap (Lead.about .annotationProperty)
  | .datatype =>
    (if S.hasType n (.owl .Class) then [] else S.operandLeads .datatype n) ++
    S.equivalentLeads .datatype n ++
    ((S.subjects (.rdfs .range) n).map fun p => .ask ⟨.dataProperty, p⟩) ++
    S.restrictedDataLeads n
  | .individual => S.assertionLeads n

end TripleSet

end Ontograph
