/-!
# The names of the ontology vocabularies

Four vocabularies have a fixed meaning in an ontology document: OWL, RDF, RDF Schema and the
XML Schema datatypes. Each is an enumeration of the local names this library gives a meaning to,
so that two vocabulary names are compared as constructors and never as texts.
-/

namespace Ontograph

/-- A name of the OWL 2 vocabulary. -/
inductive OwlName
  | AllDifferent | AllDisjointClasses | AllDisjointProperties | AnnotationResource
  | AnnotationProperty | AsymmetricProperty | Axiom | Class | DataRange | DatatypeProperty
  | DeprecatedClass | DeprecatedProperty | FunctionalProperty | InverseFunctionalProperty
  | IrreflexiveProperty | NamedIndividual | NegativePropertyAssertion | Nothing | ObjectProperty
  | Ontology | OntologyProperty | ReflexiveProperty | Restriction | SymmetricProperty | Thing
  | TransitiveProperty | allValuesFrom | annotatedProperty | annotatedSource | annotatedTarget
  | assertionProperty | backwardCompatibleWith | bottomDataProperty | bottomObjectProperty
  | cardinality | complementOf | datatypeComplementOf | deprecated | differentFrom
  | disjointUnionOf | disjointWith | distinctMembers | equivalentClass | equivalentProperty
  | hasKey | hasSelf | hasValue | imports | incompatibleWith | intersectionOf | inverseOf
  | maxCardinality | maxQualifiedCardinality | members | minCardinality | minQualifiedCardinality
  | onClass | onDataRange | onDatatype | onProperty | oneOf | priorVersion | propertyChainAxiom
  | propertyDisjointWith | qualifiedCardinality | rational | real | sameAs | someValuesFrom
  | sourceIndividual | targetIndividual | targetValue | topDataProperty | topObjectProperty
  | unionOf | versionIRI | versionInfo | withRestrictions
  deriving DecidableEq, Repr

namespace OwlName

/-- The local name, as it is written after the namespace. -/
def name : OwlName → String
  | .AllDifferent => "AllDifferent"
  | .AllDisjointClasses => "AllDisjointClasses"
  | .AllDisjointProperties => "AllDisjointProperties"
  | .AnnotationResource => "Annotation"
  | .AnnotationProperty => "AnnotationProperty"
  | .AsymmetricProperty => "AsymmetricProperty"
  | .Axiom => "Axiom"
  | .Class => "Class"
  | .DataRange => "DataRange"
  | .DatatypeProperty => "DatatypeProperty"
  | .DeprecatedClass => "DeprecatedClass"
  | .DeprecatedProperty => "DeprecatedProperty"
  | .FunctionalProperty => "FunctionalProperty"
  | .InverseFunctionalProperty => "InverseFunctionalProperty"
  | .IrreflexiveProperty => "IrreflexiveProperty"
  | .NamedIndividual => "NamedIndividual"
  | .NegativePropertyAssertion => "NegativePropertyAssertion"
  | .Nothing => "Nothing"
  | .ObjectProperty => "ObjectProperty"
  | .Ontology => "Ontology"
  | .OntologyProperty => "OntologyProperty"
  | .ReflexiveProperty => "ReflexiveProperty"
  | .Restriction => "Restriction"
  | .SymmetricProperty => "SymmetricProperty"
  | .Thing => "Thing"
  | .TransitiveProperty => "TransitiveProperty"
  | .allValuesFrom => "allValuesFrom"
  | .annotatedProperty => "annotatedProperty"
  | .annotatedSource => "annotatedSource"
  | .annotatedTarget => "annotatedTarget"
  | .assertionProperty => "assertionProperty"
  | .backwardCompatibleWith => "backwardCompatibleWith"
  | .bottomDataProperty => "bottomDataProperty"
  | .bottomObjectProperty => "bottomObjectProperty"
  | .cardinality => "cardinality"
  | .complementOf => "complementOf"
  | .datatypeComplementOf => "datatypeComplementOf"
  | .deprecated => "deprecated"
  | .differentFrom => "differentFrom"
  | .disjointUnionOf => "disjointUnionOf"
  | .disjointWith => "disjointWith"
  | .distinctMembers => "distinctMembers"
  | .equivalentClass => "equivalentClass"
  | .equivalentProperty => "equivalentProperty"
  | .hasKey => "hasKey"
  | .hasSelf => "hasSelf"
  | .hasValue => "hasValue"
  | .imports => "imports"
  | .incompatibleWith => "incompatibleWith"
  | .intersectionOf => "intersectionOf"
  | .inverseOf => "inverseOf"
  | .maxCardinality => "maxCardinality"
  | .maxQualifiedCardinality => "maxQualifiedCardinality"
  | .members => "members"
  | .minCardinality => "minCardinality"
  | .minQualifiedCardinality => "minQualifiedCardinality"
  | .onClass => "onClass"
  | .onDataRange => "onDataRange"
  | .onDatatype => "onDatatype"
  | .onProperty => "onProperty"
  | .oneOf => "oneOf"
  | .priorVersion => "priorVersion"
  | .propertyChainAxiom => "propertyChainAxiom"
  | .propertyDisjointWith => "propertyDisjointWith"
  | .qualifiedCardinality => "qualifiedCardinality"
  | .rational => "rational"
  | .real => "real"
  | .sameAs => "sameAs"
  | .someValuesFrom => "someValuesFrom"
  | .sourceIndividual => "sourceIndividual"
  | .targetIndividual => "targetIndividual"
  | .targetValue => "targetValue"
  | .topDataProperty => "topDataProperty"
  | .topObjectProperty => "topObjectProperty"
  | .unionOf => "unionOf"
  | .versionIRI => "versionIRI"
  | .versionInfo => "versionInfo"
  | .withRestrictions => "withRestrictions"

/-- Every name of the vocabulary, once. -/
def all : List OwlName :=
  [.AllDifferent, .AllDisjointClasses, .AllDisjointProperties, .AnnotationResource,
   .AnnotationProperty, .AsymmetricProperty, .Axiom, .Class, .DataRange, .DatatypeProperty,
   .DeprecatedClass, .DeprecatedProperty, .FunctionalProperty, .InverseFunctionalProperty,
   .IrreflexiveProperty, .NamedIndividual, .NegativePropertyAssertion, .Nothing, .ObjectProperty,
   .Ontology, .OntologyProperty, .ReflexiveProperty, .Restriction, .SymmetricProperty, .Thing,
   .TransitiveProperty, .allValuesFrom, .annotatedProperty, .annotatedSource, .annotatedTarget,
   .assertionProperty, .backwardCompatibleWith, .bottomDataProperty, .bottomObjectProperty,
   .cardinality, .complementOf, .datatypeComplementOf, .deprecated, .differentFrom,
   .disjointUnionOf, .disjointWith, .distinctMembers, .equivalentClass, .equivalentProperty,
   .hasKey, .hasSelf, .hasValue, .imports, .incompatibleWith, .intersectionOf, .inverseOf,
   .maxCardinality, .maxQualifiedCardinality, .members, .minCardinality,
   .minQualifiedCardinality, .onClass, .onDataRange, .onDatatype, .onProperty, .oneOf,
   .priorVersion, .propertyChainAxiom, .propertyDisjointWith, .qualifiedCardinality, .rational,
   .real, .sameAs, .someValuesFrom, .sourceIndividual, .targetIndividual, .targetValue,
   .topDataProperty, .topObjectProperty, .unionOf, .versionIRI, .versionInfo, .withRestrictions]

/-- The list of names leaves none out. -/
theorem mem_all (n : OwlName) : n ∈ all := by
  cases n <;> decide

/-- The vocabulary name with a given local name. -/
def ofName? (s : String) : Option OwlName :=
  all.find? fun n => n.name == s

end OwlName

/-- A name of the RDF vocabulary. -/
inductive RdfName
  | LangString | PlainLiteral | Property | XMLLiteral | first | nil | rest | type
  deriving DecidableEq, Repr

namespace RdfName

/-- The local name, as it is written after the namespace. -/
def name : RdfName → String
  | .LangString => "langString"
  | .PlainLiteral => "PlainLiteral"
  | .Property => "Property"
  | .XMLLiteral => "XMLLiteral"
  | .first => "first"
  | .nil => "nil"
  | .rest => "rest"
  | .type => "type"

/-- Every name of the vocabulary, once. -/
def all : List RdfName :=
  [.LangString, .PlainLiteral, .Property, .XMLLiteral, .first, .nil, .rest, .type]

/-- The list of names leaves none out. -/
theorem mem_all (n : RdfName) : n ∈ all := by
  cases n <;> decide

/-- The vocabulary name with a given local name. -/
def ofName? (s : String) : Option RdfName :=
  all.find? fun n => n.name == s

end RdfName

/-- A name of the RDF Schema vocabulary. -/
inductive RdfsName
  | Class | Datatype | Literal | comment | domain | isDefinedBy | label | range | seeAlso
  | subClassOf | subPropertyOf
  deriving DecidableEq, Repr

namespace RdfsName

/-- The local name, as it is written after the namespace. -/
def name : RdfsName → String
  | .Class => "Class"
  | .Datatype => "Datatype"
  | .Literal => "Literal"
  | .comment => "comment"
  | .domain => "domain"
  | .isDefinedBy => "isDefinedBy"
  | .label => "label"
  | .range => "range"
  | .seeAlso => "seeAlso"
  | .subClassOf => "subClassOf"
  | .subPropertyOf => "subPropertyOf"

/-- Every name of the vocabulary, once. -/
def all : List RdfsName :=
  [.Class, .Datatype, .Literal, .comment, .domain, .isDefinedBy, .label, .range, .seeAlso,
   .subClassOf, .subPropertyOf]

/-- The list of names leaves none out. -/
theorem mem_all (n : RdfsName) : n ∈ all := by
  cases n <;> decide

/-- The vocabulary name with a given local name. -/
def ofName? (s : String) : Option RdfsName :=
  all.find? fun n => n.name == s

end RdfsName

/-- A datatype of XML Schema. -/
inductive XsdName
  | Name | NCName | NMTOKEN | anyURI | base64Binary | boolean | byte | dateTime | dateTimeStamp
  | decimal | double | float | hexBinary | int | integer | language | long | negativeInteger
  | nonNegativeInteger | nonPositiveInteger | normalizedString | positiveInteger | short | string
  | token | unsignedByte | unsignedInt | unsignedLong | unsignedShort
  deriving DecidableEq, Repr

namespace XsdName

/-- The local name, as it is written after the namespace. -/
def name : XsdName → String
  | .Name => "Name"
  | .NCName => "NCName"
  | .NMTOKEN => "NMTOKEN"
  | .anyURI => "anyURI"
  | .base64Binary => "base64Binary"
  | .boolean => "boolean"
  | .byte => "byte"
  | .dateTime => "dateTime"
  | .dateTimeStamp => "dateTimeStamp"
  | .decimal => "decimal"
  | .double => "double"
  | .float => "float"
  | .hexBinary => "hexBinary"
  | .int => "int"
  | .integer => "integer"
  | .language => "language"
  | .long => "long"
  | .negativeInteger => "negativeInteger"
  | .nonNegativeInteger => "nonNegativeInteger"
  | .nonPositiveInteger => "nonPositiveInteger"
  | .normalizedString => "normalizedString"
  | .positiveInteger => "positiveInteger"
  | .short => "short"
  | .string => "string"
  | .token => "token"
  | .unsignedByte => "unsignedByte"
  | .unsignedInt => "unsignedInt"
  | .unsignedLong => "unsignedLong"
  | .unsignedShort => "unsignedShort"

/-- Every name of the vocabulary, once. -/
def all : List XsdName :=
  [.Name, .NCName, .NMTOKEN, .anyURI, .base64Binary, .boolean, .byte, .dateTime, .dateTimeStamp,
   .decimal, .double, .float, .hexBinary, .int, .integer, .language, .long, .negativeInteger,
   .nonNegativeInteger, .nonPositiveInteger, .normalizedString, .positiveInteger, .short,
   .string, .token, .unsignedByte, .unsignedInt, .unsignedLong, .unsignedShort]

/-- The list of names leaves none out. -/
theorem mem_all (n : XsdName) : n ∈ all := by
  cases n <;> decide

/-- The vocabulary name with a given local name. -/
def ofName? (s : String) : Option XsdName :=
  all.find? fun n => n.name == s

end XsdName

end Ontograph
