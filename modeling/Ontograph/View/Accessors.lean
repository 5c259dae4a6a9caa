import Ontograph.View.Interface
import Ontograph.Mapping.Recognise

/-!
# Views

A view is a node of a set of triples, looked at under an interface. It holds no copy of what the
set says about the node: each accessor looks it up.
-/

namespace Ontograph

/-- A node seen under an interface. -/
structure View where
  interface : Interface
  node : Term
  triples : TripleSet
  listLimit : Nat

namespace View

variable (v : View)

/-- The view in words: the node and the interface. -/
def text : String := v.node.text ++ " as " ++ v.interface.name

/-- The IRI of the node, if it is named. -/
def iri? : Option Iri := v.node.iri?

/-! ## Look-ups from the node -/

/-- What a look-up finds for the node; nothing for a literal. -/
def ofNode {α : Type} (f : Node → List α) : List α :=
  match v.node with
  | .node n => f n
  | .literal _ => []

/-- The objects of a predicate. -/
def objects (p : Iri) : List Term := v.ofNode fun n => v.triples.objects n p

/-- The first object of a predicate. -/
def object? (p : Iri) : Option Term := v.node.node?.bind fun n => v.triples.object? n p

/-- The subjects of a predicate. -/
def subjects (p : Iri) : List Term := (v.triples.subjects p v.node).map .node

/-- Is the node typed with the class? -/
def hasType (c : Iri) : Bool := v.node.node?.any fun n => v.triples.hasType n c

/-- The other nodes that a predicate relates to the node in either direction, each once. -/
def related (p : Iri) : List Term :=
  (v.objects p ++ (v.subjects p).filter fun x => !(v.objects p).contains x).filter (· != v.node)

/-- The other members of the groups of a type that the node is a member of. -/
def groupMembers (group : Iri) : List Term :=
  (v.triples.subjects (.rdf .type) (.iri group : Node)).flatMap fun root =>
    match v.triples.object? root (.owl .members) with
    | none => []
    | some head =>
      match v.triples.readList v.listLimit head with
      | .error _ => []
      | .ok members => if members.contains v.node then members.filter (· != v.node) else []

/-- The items of the list that a predicate gives the node; none without a list. -/
def list (p : Iri) : Except MalformedList (List Term) :=
  match v.object? p with
  | some head => v.triples.readList v.listLimit head
  | none => .ok []

/-! ## Accessors of all interfaces -/

/-- The types of the node. -/
def types : List Iri := v.ofNode v.triples.types

/-- The annotations on the node: the values of built-in annotation properties, and of properties
outside the reserved vocabulary that are declared as annotation properties. -/
def annotations : List (Iri × Term) :=
  (v.ofNode v.triples.outgoing).filterMap fun t =>
    let p : Iri := t.predicate
    if p.isBuiltin .annotationProperty ||
        (!p.isReserved && v.triples.hasType (.iri p) (.owl .AnnotationProperty)) then
      some (p, t.object)
    else none

/-- The values of a property on the node. -/
def values (p : Iri) : List Term := v.objects p

/-- Is the node said to be deprecated? -/
def isDeprecated : Bool :=
  (v.objects (.owl .deprecated)).any fun x =>
    x.literal?.any fun l => l.value == "true" || l.value == "1"

/-! ## Classes -/

/-- The classes the node is declared a subclass of. -/
def superClasses : List Term := v.objects (.rdfs .subClassOf)

/-- The nodes declared subclasses of the node. -/
def subClasses : List Term := v.subjects (.rdfs .subClassOf)

/-- The other classes declared equivalent to the node. -/
def equivalentClasses : List Term := v.related (.owl .equivalentClass)

/-- The other classes declared disjoint with the node, in a pair or in a group; one of a pair is
listed once, of groups the first mention only. -/
def disjointClasses : List Term :=
  let pairs := v.related (.owl .disjointWith)
  pairs ++ ((v.groupMembers (.owl .AllDisjointClasses)).filter fun x =>
    !pairs.contains x).eraseDups

/-- The nodes typed with the node. -/
def instances : List Term := v.subjects (.rdf .type)

/-! ## Properties -/

/-- The domains of the property. -/
def domains : List Term := v.objects (.rdfs .domain)

/-- The ranges of the property. -/
def ranges : List Term := v.objects (.rdfs .range)

/-- The properties the node is declared a subproperty of. -/
def superProperties : List Term := v.objects (.rdfs .subPropertyOf)

/-- The nodes declared subproperties of the node. -/
def subProperties : List Term := v.subjects (.rdfs .subPropertyOf)

/-- The other properties that are inverse to the node. -/
def inverses : List Term := v.related (.owl .inverseOf)

/-- The other properties declared equivalent to the node. -/
def equivalentProperties : List Term := v.related (.owl .equivalentProperty)

/-- The other properties declared disjoint with the node, in pairs and then in groups. -/
def disjointProperties : List Term :=
  v.related (.owl .propertyDisjointWith) ++ v.groupMembers (.owl .AllDisjointProperties)

/-- The chains of properties that the node is above. -/
def propertyChains : List (List Term) :=
  (v.objects (.owl .propertyChainAxiom)).filterMap fun head =>
    (v.triples.readList v.listLimit head).toOption

/-! ## Characteristics of properties -/

/-- Is the property functional? Asked of object properties and of data properties. -/
def isFunctional : Bool := v.hasType (.owl .FunctionalProperty)

/-- Is the property inverse functional? -/
def isInverseFunctional : Bool := v.hasType (.owl .InverseFunctionalProperty)

/-- Is the property transitive? -/
def isTransitive : Bool := v.hasType (.owl .TransitiveProperty)

/-- Is the property symmetric? -/
def isSymmetric : Bool := v.hasType (.owl .SymmetricProperty)

/-- Is the property asymmetric? -/
def isAsymmetric : Bool := v.hasType (.owl .AsymmetricProperty)

/-- Is the property reflexive? -/
def isReflexive : Bool := v.hasType (.owl .ReflexiveProperty)

/-- Is the property irreflexive? -/
def isIrreflexive : Bool := v.hasType (.owl .IrreflexiveProperty)

/-! ## Individuals -/

/-- The classes of the individual. -/
def classes : List Term :=
  (v.objects (.rdf .type)).filter (· != .node (.iri (.owl .NamedIndividual)))

/-- The other individuals declared to be the same. -/
def sameIndividuals : List Term := v.related (.owl .sameAs)

/-- The other individuals declared to be different, in pairs and then in groups. -/
def differentIndividuals : List Term :=
  v.related (.owl .differentFrom) ++ v.groupMembers (.owl .AllDifferent)

/-! ## Anonymous expressions -/

/-- The property that a restriction is on. -/
def onProperty? : Option Term := v.object? (.owl .onProperty)

/-- The class, data range or value that a restriction restricts the property to. -/
def filler? : Option Term :=
  [Iri.owl .someValuesFrom, .owl .allValuesFrom, .owl .hasValue, .owl .onClass,
    .owl .onDataRange].findSome? v.object?

/-- The number of a cardinality restriction. -/
def cardinality? : Option UInt32 :=
  [Iri.owl .cardinality, .owl .minCardinality, .owl .maxCardinality, .owl .qualifiedCardinality,
    .owl .minQualifiedCardinality, .owl .maxQualifiedCardinality].findSome? fun p =>
      ((v.object? p).bind Term.literal?).bind Source.cardinality?

/-- The operands of a union. -/
def unionOperands : Except MalformedList (List Term) := v.list (.owl .unionOf)

/-- The operands of an intersection. -/
def intersectionOperands : Except MalformedList (List Term) := v.list (.owl .intersectionOf)

/-- The members of an enumeration. -/
def members : Except MalformedList (List Term) := v.list (.owl .oneOf)

/-- The operand of a complement. -/
def complementOperand? : Option Term := v.object? (.owl .complementOf)

/-- The property that an inverse is the inverse of. -/
def inverseOf? : Option Term := v.object? (.owl .inverseOf)

/-- The datatype that a datatype restriction restricts. -/
def onDatatype? : Option Term := v.object? (.owl .onDatatype)

/-- The operands of an anonymous data range: of its intersection, else of its union, else the
values it enumerates. -/
def dataOperands : Except MalformedList (List Term) :=
  match [Iri.owl .intersectionOf, .owl .unionOf, .owl .oneOf].find? fun p =>
      (v.object? p).isSome with
  | some p => v.list p
  | none => .ok []

end View

end Ontograph
