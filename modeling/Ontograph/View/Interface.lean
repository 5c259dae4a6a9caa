import Ontograph.Rdf.Text

/-!
# Interfaces

The ways a node can be looked at. A leaf interface has a test of its own; a composite interface
admits what one of its components admits.
-/

namespace Ontograph

/-- A way to look at a node. -/
inductive Interface
  | owlClass | datatype | objectProperty | dataProperty | annotationProperty | namedIndividual
  | anonymousIndividual | restriction | unionOf | intersectionOf | complementOf | oneOf
  | inverseObjectProperty | dataRangeExpression
  | classExpression | objectPropertyExpression | propertyExpression | dataRange | individual
  | entity
  deriving DecidableEq, Repr

namespace Interface

/-- All interfaces, in the order in which they are listed. -/
def all : List Interface :=
  [.owlClass, .datatype, .objectProperty, .dataProperty, .annotationProperty, .namedIndividual,
    .anonymousIndividual, .restriction, .unionOf, .intersectionOf, .complementOf, .oneOf,
    .inverseObjectProperty, .dataRangeExpression, .classExpression, .objectPropertyExpression,
    .propertyExpression, .dataRange, .individual, .entity]

/-- The list of interfaces is complete. -/
theorem mem_all (i : Interface) : i ∈ all := by
  cases i <;> decide

/-- The name of the interface. -/
def name : Interface → String
  | .owlClass => "Class"
  | .datatype => "Datatype"
  | .objectProperty => "ObjectProperty"
  | .dataProperty => "DataProperty"
  | .annotationProperty => "AnnotationProperty"
  | .namedIndividual => "NamedIndividual"
  | .anonymousIndividual => "AnonymousIndividual"
  | .restriction => "Restriction"
  | .unionOf => "UnionOf"
  | .intersectionOf => "IntersectionOf"
  | .complementOf => "ComplementOf"
  | .oneOf => "OneOf"
  | .inverseObjectProperty => "InverseObjectProperty"
  | .dataRangeExpression => "DataRangeExpression"
  | .classExpression => "ClassExpression"
  | .objectPropertyExpression => "ObjectPropertyExpression"
  | .propertyExpression => "PropertyExpression"
  | .dataRange => "DataRange"
  | .individual => "Individual"
  | .entity => "Entity"

/-- The leaf interfaces that a composite interface is made of; a leaf has none. -/
def components : Interface → List Interface
  | .classExpression =>
    [.owlClass, .restriction, .unionOf, .intersectionOf, .complementOf, .oneOf]
  | .objectPropertyExpression => [.objectProperty, .inverseObjectProperty]
  | .propertyExpression =>
    [.objectProperty, .inverseObjectProperty, .dataProperty, .annotationProperty]
  | .dataRange => [.datatype, .dataRangeExpression]
  | .individual => [.namedIndividual, .anonymousIndividual]
  | .entity =>
    [.owlClass, .datatype, .objectProperty, .dataProperty, .annotationProperty, .namedIndividual]
  | _ => []

/-- Is the interface made of others? -/
def isComposite (i : Interface) : Bool := !i.components.isEmpty

end Interface

/-! ## Refusals -/

/-- Why a node cannot be looked at, or nothing can be, under an interface. -/
inductive ViewError
  | incompatible (node : Term) (i : Interface)
  | noMaker (i : Interface)
  | unsupported (i : Interface)
  deriving DecidableEq

/-- The refusal in words. -/
def ViewError.message : ViewError → String
  | .incompatible node i => node.text ++ " is not compatible with " ++ i.name
  | .noMaker i => i.name ++ " instances can not be created directly"
  | .unsupported i => "the personality does not support " ++ i.name

/-- The two kinds of nodes. -/
inductive NodeKind
  | iri | blank
  deriving DecidableEq, Repr

/-- What needs nodes of the kind, in words. -/
def NodeKind.message : NodeKind → String
  | .iri => "entities are named by IRIs"
  | .blank => "anonymous individuals are blank nodes"

/-- Why a node cannot be made an instance of an interface. -/
inductive MakeError
  | incompatibleRole (node : Term) (wanted existing : Interface)
  | wrongNodeKind (node : Term) (i : Interface) (needed : NodeKind)
  | builtin (node : Term) (i : Interface)
  deriving DecidableEq

/-- The refusal in words. -/
def MakeError.message : MakeError → String
  | .incompatibleRole node wanted existing =>
    node.text ++ " already exists as " ++ existing.name ++ ", it can not also be declared as " ++
      wanted.name
  | .wrongNodeKind node i needed =>
    node.text ++ " has the wrong node kind for " ++ i.name ++ ": " ++ needed.message
  | .builtin node i =>
    node.text ++ " is a built-in vocabulary term and can not be redeclared as " ++ i.name

/-- Why a node cannot be created under an interface. -/
inductive CreateError
  | view (e : ViewError)
  | make (e : MakeError)
  deriving DecidableEq

/-- The refusal in words. -/
def CreateError.message : CreateError → String
  | .view e => e.message
  | .make e => e.message

end Ontograph
