import Ontograph.Rdf.Iri

/-!
# RDF terms and triples

Subjects are nodes (an IRI or a blank node), predicates are IRIs, objects are nodes or literals.
A literal typed `xsd:string` is the plain literal, so the typed case excludes that datatype and
equality of literals is equality of values.
-/

namespace Ontograph

/-! ## Terms -/

/-- A blank node, known by its label. -/
structure Blank where
  label : String
  deriving DecidableEq, Repr

/-- A node of a graph: an IRI or a blank node. These are also the individuals of an ontology, the
named and the anonymous ones. -/
inductive Node
  | iri (i : Iri)
  | blank (b : Blank)
  deriving DecidableEq

/-- A literal: a plain text, a text in a language, or a text with a datatype. -/
inductive Literal
  | plain (value : String)
  | tagged (value language : String)
  | typed (value : String) (datatype : Iri) (notPlain : datatype ≠ .xsd .string)
  deriving DecidableEq

/-- Anything that can stand in the object position of a triple. -/
inductive Term
  | node (n : Node)
  | literal (l : Literal)
  deriving DecidableEq

/-- A statement: a subject, a predicate and an object. -/
structure Triple where
  subject : Node
  predicate : Iri
  object : Term
  deriving DecidableEq

instance : Coe Iri Node := ⟨.iri⟩
instance : Coe Blank Node := ⟨.blank⟩
instance : Coe Node Term := ⟨.node⟩
instance : Coe Literal Term := ⟨.literal⟩
instance : Inhabited Node := ⟨.iri default⟩
instance : Inhabited Term := ⟨.node default⟩

/-- The triple that types a node with a class. -/
abbrev Triple.typing (n : Node) (c : Iri) : Triple := ⟨n, .rdf .type, .node (.iri c)⟩

namespace Literal

/-- The literal with a given datatype; with `xsd:string` it is the plain literal. -/
def ofType (value : String) (datatype : Iri) : Literal :=
  if h : datatype = .xsd .string then .plain value else .typed value datatype h

/-- The text of the literal, without language or datatype. -/
def value : Literal → String
  | .plain value => value
  | .tagged value _ => value
  | .typed value _ _ => value

/-- The literal `true`. -/
def yes : Literal := .ofType "true" (.xsd .boolean)

/-- A number written as an `xsd:nonNegativeInteger`. -/
def ofNat (n : Nat) : Literal :=
  .ofType (String.ofList (Nat.toDigits 10 n)) (.xsd .nonNegativeInteger)

end Literal

namespace Node

/-- Is the node an IRI? -/
def isNamed : Node → Bool
  | .iri _ => true
  | .blank _ => false

/-- Is the node a blank node? -/
def isBlank : Node → Bool
  | .iri _ => false
  | .blank _ => true

/-- The IRI of a named node. -/
def iri? : Node → Option Iri
  | .iri i => some i
  | .blank _ => none

/-- The label of a blank node. -/
def blank? : Node → Option Blank
  | .iri _ => none
  | .blank b => some b

/-- Is the node an IRI in a reserved namespace? -/
def isReserved : Node → Bool
  | .iri i => i.isReserved
  | .blank _ => false

end Node

namespace Term

/-- The node a term is, if it is not a literal. -/
def node? : Term → Option Node
  | .node n => some n
  | .literal _ => none

/-- The IRI a term is, if it is one. -/
def iri? : Term → Option Iri
  | .node (.iri i) => some i
  | _ => none

/-- The literal a term is, if it is one. -/
def literal? : Term → Option Literal
  | .node _ => none
  | .literal l => some l

/-- Is the term a literal? -/
def isLiteral : Term → Bool
  | .node _ => false
  | .literal _ => true

/-- Is the term a blank node? -/
def isBlank : Term → Bool
  | .node n => n.isBlank
  | .literal _ => false

/-- Is the term an IRI? -/
def isNamed : Term → Bool
  | .node n => n.isNamed
  | .literal _ => false

end Term

end Ontograph
