import Ontograph.Owl.Expression

/-!
# Axioms

The statements of an ontology. One constructor serves the axioms that differ only in an entity
kind, a property characteristic or the sort of a property; the kind of an axiom
(`Axiom.kind`) tells them apart again. A property assertion relates two individuals if its target
is a node, and an individual and a value if its target is a literal.
-/

namespace Ontograph

/-! ## The parts of axioms -/

/-- The characteristics of an object property. -/
inductive Characteristic
  | functional | inverseFunctional | reflexive | irreflexive | symmetric | asymmetric | transitive
  deriving DecidableEq, Repr

/-- The type that gives a property the characteristic. -/
def Characteristic.type : Characteristic → Iri
  | .functional => .owl .FunctionalProperty
  | .inverseFunctional => .owl .InverseFunctionalProperty
  | .reflexive => .owl .ReflexiveProperty
  | .irreflexive => .owl .IrreflexiveProperty
  | .symmetric => .owl .SymmetricProperty
  | .asymmetric => .owl .AsymmetricProperty
  | .transitive => .owl .TransitiveProperty

/-- The two sorts of properties that individuals have. -/
inductive PropertySort
  | object | data
  deriving DecidableEq, Repr

/-- The kinds of axioms. All declarations are of one kind. -/
inductive AxiomKind
  | declaration
  | subClassOf | equivalentClasses | disjointClasses | disjointUnion
  | subObjectPropertyOf | subPropertyChainOf | equivalentObjectProperties
  | disjointObjectProperties | objectPropertyDomain | objectPropertyRange
  | inverseObjectProperties | objectCharacteristic (c : Characteristic)
  | subDataPropertyOf | equivalentDataProperties | disjointDataProperties | dataPropertyDomain
  | dataPropertyRange | functionalDataProperty | datatypeDefinition
  | classAssertion | objectPropertyAssertion | negativeObjectPropertyAssertion
  | dataPropertyAssertion | negativeDataPropertyAssertion | sameIndividual | differentIndividuals
  | hasKey
  | annotationAssertion | subAnnotationPropertyOf | annotationPropertyDomain
  | annotationPropertyRange
  deriving DecidableEq, Repr

namespace AxiomKind

/-- The name of the kind. -/
def name : AxiomKind → String
  | .declaration => "Declaration"
  | .subClassOf => "SubClassOf"
  | .equivalentClasses => "EquivalentClasses"
  | .disjointClasses => "DisjointClasses"
  | .disjointUnion => "DisjointUnion"
  | .subObjectPropertyOf => "SubObjectPropertyOf"
  | .subPropertyChainOf => "SubPropertyChainOf"
  | .equivalentObjectProperties => "EquivalentObjectProperties"
  | .disjointObjectProperties => "DisjointObjectProperties"
  | .objectPropertyDomain => "ObjectPropertyDomain"
  | .objectPropertyRange => "ObjectPropertyRange"
  | .inverseObjectProperties => "InverseObjectProperties"
  | .objectCharacteristic .functional => "FunctionalObjectProperty"
  | .objectCharacteristic .inverseFunctional => "InverseFunctionalObjectProperty"
  | .objectCharacteristic .reflexive => "ReflexiveObjectProperty"
  | .objectCharacteristic .irreflexive => "IrreflexiveObjectProperty"
  | .objectCharacteristic .symmetric => "SymmetricObjectProperty"
  | .objectCharacteristic .asymmetric => "AsymmetricObjectProperty"
  | .objectCharacteristic .transitive => "TransitiveObjectProperty"
  | .subDataPropertyOf => "SubDataPropertyOf"
  | .equivalentDataProperties => "EquivalentDataProperties"
  | .disjointDataProperties => "DisjointDataProperties"
  | .dataPropertyDomain => "DataPropertyDomain"
  | .dataPropertyRange => "DataPropertyRange"
  | .functionalDataProperty => "FunctionalDataProperty"
  | .datatypeDefinition => "DatatypeDefinition"
  | .classAssertion => "ClassAssertion"
  | .objectPropertyAssertion => "ObjectPropertyAssertion"
  | .negativeObjectPropertyAssertion => "NegativeObjectPropertyAssertion"
  | .dataPropertyAssertion => "DataPropertyAssertion"
  | .negativeDataPropertyAssertion => "NegativeDataPropertyAssertion"
  | .sameIndividual => "SameIndividual"
  | .differentIndividuals => "DifferentIndividuals"
  | .hasKey => "HasKey"
  | .annotationAssertion => "AnnotationAssertion"
  | .subAnnotationPropertyOf => "SubAnnotationPropertyOf"
  | .annotationPropertyDomain => "AnnotationPropertyDomain"
  | .annotationPropertyRange => "AnnotationPropertyRange"

/-- Every kind, once. -/
def all : List AxiomKind :=
  [.declaration, .subClassOf, .equivalentClasses, .disjointClasses, .disjointUnion,
    .subObjectPropertyOf, .subPropertyChainOf, .equivalentObjectProperties,
    .disjointObjectProperties, .objectPropertyDomain, .objectPropertyRange,
    .inverseObjectProperties, .objectCharacteristic .functional,
    .objectCharacteristic .inverseFunctional, .objectCharacteristic .reflexive,
    .objectCharacteristic .irreflexive, .objectCharacteristic .symmetric,
    .objectCharacteristic .asymmetric, .objectCharacteristic .transitive, .subDataPropertyOf,
    .equivalentDataProperties, .disjointDataProperties, .dataPropertyDomain, .dataPropertyRange,
    .functionalDataProperty, .datatypeDefinition, .classAssertion, .objectPropertyAssertion,
    .negativeObjectPropertyAssertion, .dataPropertyAssertion, .negativeDataPropertyAssertion,
    .sameIndividual, .differentIndividuals, .hasKey, .annotationAssertion,
    .subAnnotationPropertyOf, .annotationPropertyDomain, .annotationPropertyRange]

end AxiomKind

/-! ## Axioms -/

/-- An axiom. -/
inductive Axiom
  | declaration (e : Entity)
  | subClassOf (sub super : ClassExpr)
  | equivalentClasses (cs : List ClassExpr)
  | disjointClasses (cs : List ClassExpr)
  | disjointUnion (c : Iri) (parts : List ClassExpr)
  | subObjectPropertyOf (sub super : ObjectPropertyExpr)
  | subPropertyChainOf (chain : List ObjectPropertyExpr) (super : Iri)
  | subDataPropertyOf (sub super : Iri)
  | equivalentProperties (sort : PropertySort) (ps : List Iri)
  | disjointProperties (sort : PropertySort) (ps : List Iri)
  | propertyDomain (sort : PropertySort) (p : Iri) (domain : ClassExpr)
  | objectPropertyRange (p : Iri) (range : ClassExpr)
  | dataPropertyRange (p : Iri) (range : DataRange)
  | inverseObjectProperties (p q : Iri)
  | objectCharacteristic (c : Characteristic) (p : Iri)
  | functionalDataProperty (p : Iri)
  | datatypeDefinition (d : Iri) (range : DataRange)
  | classAssertion (c : ClassExpr) (a : Node)
  | propertyAssertion (p : Iri) (source : Node) (target : Term)
  | negativePropertyAssertion (p : Iri) (source : Node) (target : Term)
  | sameIndividual (as : List Node)
  | differentIndividuals (as : List Node)
  | hasKey (c : ClassExpr) (objectProperties dataProperties : List Iri)
  | annotationAssertion (p : Iri) (subject : Node) (value : Term)
  | subAnnotationPropertyOf (sub super : Iri)
  | annotationPropertyDomain (p domain : Iri)
  | annotationPropertyRange (p range : Iri)
  deriving DecidableEq

/-- The list without an element that equals the one before it. -/
def squeeze {α : Type} [DecidableEq α] : List α → List α
  | [] => []
  | [a] => [a]
  | a :: b :: rest => if a = b then squeeze (b :: rest) else a :: squeeze (b :: rest)

namespace Axiom

/-- The kind of the axiom. -/
def kind : Axiom → AxiomKind
  | .declaration _ => .declaration
  | .subClassOf _ _ => .subClassOf
  | .equivalentClasses _ => .equivalentClasses
  | .disjointClasses _ => .disjointClasses
  | .disjointUnion _ _ => .disjointUnion
  | .subObjectPropertyOf _ _ => .subObjectPropertyOf
  | .subPropertyChainOf _ _ => .subPropertyChainOf
  | .subDataPropertyOf _ _ => .subDataPropertyOf
  | .equivalentProperties .object _ => .equivalentObjectProperties
  | .equivalentProperties .data _ => .equivalentDataProperties
  | .disjointProperties .object _ => .disjointObjectProperties
  | .disjointProperties .data _ => .disjointDataProperties
  | .propertyDomain .object _ _ => .objectPropertyDomain
  | .propertyDomain .data _ _ => .dataPropertyDomain
  | .objectPropertyRange _ _ => .objectPropertyRange
  | .dataPropertyRange _ _ => .dataPropertyRange
  | .inverseObjectProperties _ _ => .inverseObjectProperties
  | .objectCharacteristic c _ => .objectCharacteristic c
  | .functionalDataProperty _ => .functionalDataProperty
  | .datatypeDefinition _ _ => .datatypeDefinition
  | .classAssertion _ _ => .classAssertion
  | .propertyAssertion _ _ (.node _) => .objectPropertyAssertion
  | .propertyAssertion _ _ (.literal _) => .dataPropertyAssertion
  | .negativePropertyAssertion _ _ (.node _) => .negativeObjectPropertyAssertion
  | .negativePropertyAssertion _ _ (.literal _) => .negativeDataPropertyAssertion
  | .sameIndividual _ => .sameIndividual
  | .differentIndividuals _ => .differentIndividuals
  | .hasKey _ _ _ => .hasKey
  | .annotationAssertion _ _ _ => .annotationAssertion
  | .subAnnotationPropertyOf _ _ => .subAnnotationPropertyOf
  | .annotationPropertyDomain _ _ => .annotationPropertyDomain
  | .annotationPropertyRange _ _ => .annotationPropertyRange

/-- Is this a class axiom without a class to file it under? A subclass axiom is one if its
subclass is anonymous, an equivalence or disjointness if all its operands are. -/
def isGeneral : Axiom → Bool
  | .subClassOf sub _ => !sub.isNamed
  | .equivalentClasses cs | .disjointClasses cs => !cs.any ClassExpr.isNamed
  | _ => false

/-- The operands of an axiom that are entities or individuals themselves, in order. -/
def operands : Axiom → List Node
  | .declaration e => [e.iri]
  | .subClassOf sub super => named sub ++ named super
  | .equivalentClasses cs | .disjointClasses cs => cs.flatMap named
  | .disjointUnion c parts => .iri c :: parts.flatMap named
  | .subObjectPropertyOf sub super => [sub.base, super.base]
  | .subPropertyChainOf chain super => chain.map (fun p => .iri p.base) ++ [.iri super]
  | .subDataPropertyOf sub super => [sub, super]
  | .equivalentProperties _ ps | .disjointProperties _ ps => ps.map .iri
  | .propertyDomain _ p c | .objectPropertyRange p c => .iri p :: named c
  | .dataPropertyRange p d => .iri p :: d.datatype?.toList.map .iri
  | .inverseObjectProperties p q => [p, q]
  | .objectCharacteristic _ p => [p]
  | .functionalDataProperty p => [p]
  | .datatypeDefinition d _ => [d]
  | .classAssertion c a => named c ++ [a]
  | .propertyAssertion p source target | .negativePropertyAssertion p source target =>
    .iri p :: source :: target.node?.toList
  | .sameIndividual as | .differentIndividuals as => as
  | .hasKey c ops dps => named c ++ (ops ++ dps).map .iri
  | .annotationAssertion p subject _ => [.iri p, subject]
  | .subAnnotationPropertyOf sub super => [sub, super]
  | .annotationPropertyDomain p _ | .annotationPropertyRange p _ => [p]
where
  /-- The class an operand is, if it is named. -/
  named (c : ClassExpr) : List Node := c.class?.toList.map .iri

/-- The entities and individuals the axiom is filed under: its operands, without an operand that
repeats the one before it. -/
def topics (ax : Axiom) : List Node := squeeze ax.operands

/-- The axiom in functional syntax. -/
def text : Axiom → String
  | .declaration e => functional "Declaration" [e.text]
  | .subClassOf sub super => functional "SubClassOf" [sub.text, super.text]
  | .equivalentClasses cs => functional "EquivalentClasses" (cs.map ClassExpr.text)
  | .disjointClasses cs => functional "DisjointClasses" (cs.map ClassExpr.text)
  | .disjointUnion c parts =>
    functional "DisjointUnion" [c.text, functional "" (parts.map ClassExpr.text)]
  | .subObjectPropertyOf sub super => functional "SubObjectPropertyOf" [sub.text, super.text]
  | .subPropertyChainOf chain super =>
    functional "SubObjectPropertyOf"
      [functional "ObjectPropertyChain" (chain.map ObjectPropertyExpr.text), super.text]
  | .hasKey c ops dps =>
    functional "HasKey"
      [c.text, functional "" (ops.map Iri.text), functional "" (dps.map Iri.text)]
  | ax@(.subDataPropertyOf sub super) | ax@(.subAnnotationPropertyOf sub super) =>
    functional ax.kind.name [sub.text, super.text]
  | ax@(.equivalentProperties _ ps) | ax@(.disjointProperties _ ps) =>
    functional ax.kind.name (ps.map Iri.text)
  | ax@(.propertyDomain _ p c) | ax@(.objectPropertyRange p c) =>
    functional ax.kind.name [p.text, c.text]
  | ax@(.dataPropertyRange p d) | ax@(.datatypeDefinition p d) =>
    functional ax.kind.name [p.text, d.text]
  | ax@(.inverseObjectProperties p q) => functional ax.kind.name [p.text, q.text]
  | ax@(.objectCharacteristic _ p) | ax@(.functionalDataProperty p) =>
    functional ax.kind.name [p.text]
  | ax@(.classAssertion c a) => functional ax.kind.name [c.text, a.text]
  | ax@(.propertyAssertion p source target) | ax@(.negativePropertyAssertion p source target) =>
    functional ax.kind.name [p.text, source.text, target.text]
  | ax@(.sameIndividual as) | ax@(.differentIndividuals as) =>
    functional ax.kind.name (as.map Node.text)
  | ax@(.annotationAssertion p subject value) =>
    functional ax.kind.name [p.text, subject.text, value.text]
  | ax@(.annotationPropertyDomain p u) | ax@(.annotationPropertyRange p u) =>
    functional ax.kind.name [p.text, u.text]

end Axiom

/-! ## Annotated axioms -/

/-- A property and its value, said about an axiom. -/
structure Remark where
  property : Iri
  value : Term
  deriving DecidableEq

/-- The remark in functional syntax. -/
def Remark.text (r : Remark) : String := functional "Annotation" [r.property.text, r.value.text]

/-- Remarks in order of their texts, each once. -/
def Remark.canonical (rs : List Remark) : List Remark :=
  squeeze (rs.mergeSort fun a b => decide (a.text ≤ b.text))

/-- An axiom with the remarks made about it. -/
structure AnnotatedAxiom where
  base : Axiom
  remarks : List Remark := []
  deriving DecidableEq

namespace AnnotatedAxiom

/-- The axiom with a set of remarks, given as a list in any order. -/
def of (ax : Axiom) (rs : List Remark) : AnnotatedAxiom := ⟨ax, Remark.canonical rs⟩

/-- Is there a remark about the axiom? -/
def isAnnotated (a : AnnotatedAxiom) : Bool := !a.remarks.isEmpty

/-- The kind of the axiom under the remarks. -/
def kind (a : AnnotatedAxiom) : AxiomKind := a.base.kind

/-- The axiom in functional syntax, its remarks first. -/
def text (a : AnnotatedAxiom) : String :=
  match a.remarks with
  | [] => a.base.text
  | rs => functional "Annotated" (rs.map Remark.text ++ [a.base.text])

end AnnotatedAxiom

end Ontograph
