import Ontograph.Rdf.Text

/-!
# Entities and categories

An entity is an IRI in one of six roles. The categories are the six answers a node can get when
its role is inferred from a graph: they differ from the entity kinds in that a class, a datatype
or an individual may then be anonymous. Some IRIs have a category in every graph.
-/

namespace Ontograph

/-! ## Entities -/

/-- The kinds of entities an ontology declares. -/
inductive EntityKind
  | owlClass | datatype | objectProperty | dataProperty | annotationProperty | namedIndividual
  deriving DecidableEq, Repr

/-- The name of the kind in functional syntax. -/
def EntityKind.name : EntityKind → String
  | .owlClass => "Class"
  | .datatype => "Datatype"
  | .objectProperty => "ObjectProperty"
  | .dataProperty => "DataProperty"
  | .annotationProperty => "AnnotationProperty"
  | .namedIndividual => "NamedIndividual"

/-- The type that declares an entity of the kind. -/
def EntityKind.declaration : EntityKind → Iri
  | .owlClass => .owl .Class
  | .datatype => .rdfs .Datatype
  | .objectProperty => .owl .ObjectProperty
  | .dataProperty => .owl .DatatypeProperty
  | .annotationProperty => .owl .AnnotationProperty
  | .namedIndividual => .owl .NamedIndividual

/-- An IRI in one of the six roles. -/
structure Entity where
  kind : EntityKind
  iri : Iri
  deriving DecidableEq

/-- A construct of functional syntax: its name, then its parts in parentheses, a space between. -/
def functional (name : String) (parts : List String) : String :=
  name ++ "(" ++ " ".intercalate parts ++ ")"

/-- The entity in functional syntax. -/
def Entity.text (e : Entity) : String := functional e.kind.name [e.iri.text]

/-! ## Categories -/

/-- What a node of a graph can be inferred to be. -/
inductive Category
  | owlClass | objectProperty | dataProperty | annotationProperty | datatype | individual
  deriving DecidableEq, Repr

namespace Category

/-- All categories, in the order in which they are listed. -/
def all : List Category :=
  [.owlClass, .objectProperty, .dataProperty, .annotationProperty, .datatype, .individual]

/-- The list of categories is complete. -/
theorem mem_all (c : Category) : c ∈ all := by
  cases c <;> decide

/-- The category in words. -/
def text : Category → String
  | .owlClass => "class"
  | .objectProperty => "object property"
  | .dataProperty => "data property"
  | .annotationProperty => "annotation property"
  | .datatype => "datatype"
  | .individual => "individual"

end Category

/-! ## Built-in entities -/

/-- The annotation properties with a fixed meaning. -/
def builtinAnnotationProperties : List Iri :=
  [.rdfs .label, .rdfs .comment, .rdfs .seeAlso, .rdfs .isDefinedBy, .owl .deprecated,
    .owl .versionInfo, .owl .priorVersion, .owl .backwardCompatibleWith, .owl .incompatibleWith]

namespace Iri

/-- The category an IRI has in every graph, if it is a built-in entity. -/
def builtin? : Iri → Option Category
  | .owl .Thing | .owl .Nothing => some .owlClass
  | .owl .topObjectProperty | .owl .bottomObjectProperty => some .objectProperty
  | .owl .topDataProperty | .owl .bottomDataProperty => some .dataProperty
  | .rdfs .Literal | .rdf .PlainLiteral | .rdf .XMLLiteral | .rdf .LangString
  | .owl .real | .owl .rational | .xsd _ => some .datatype
  | i => if builtinAnnotationProperties.contains i then some .annotationProperty else none

/-- Is the IRI a built-in entity of the category? -/
def isBuiltin (c : Category) (i : Iri) : Bool := i.builtin? == some c

/-- Can the IRI annotate: is it outside the reserved namespaces or a built-in annotation
property? -/
def canAnnotate (i : Iri) : Bool := !i.isReserved || i.isBuiltin .annotationProperty

end Iri

/-- Is the node a built-in entity of the category? -/
def Node.isBuiltin (c : Category) : Node → Bool
  | .iri i => i.isBuiltin c
  | .blank _ => false

end Ontograph
