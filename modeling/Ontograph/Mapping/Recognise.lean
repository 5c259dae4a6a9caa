import Ontograph.Mapping.Footprint
import Ontograph.Classify.Search

/-!
# Recognising axioms in a graph

An axiom is read from its main triple. The anonymous expressions, lists and group nodes that hang
from that triple are followed, and the triples met on the way are gathered into the footprint.
What does not form a complete axiom is no error: nothing is read from it. An anonymous expression
inside itself is not complete, so reading stops on every graph.
-/

namespace Ontograph

/-- A step of reading: it gathers triples, or finds that nothing can be read. -/
abbrev Reading := StateT (List Triple) Option

/-- A set of triples and the settings it is read with. -/
structure Source where
  triples : TripleSet
  settings : Settings

namespace Source

variable (R : Source)

/-- Is the term of the category? -/
def isA (c : Category) (x : Term) : Bool := R.triples.isA R.settings.budget c x

/-! ## Gathering triples -/

/-- Gathers triples. -/
def gather (ts : List Triple) : Reading Unit := modify (· ++ ts)

/-- The first object a node has for a predicate; its triple is gathered. -/
def required (n : Node) (p : Iri) : Reading Term := do
  let o ← R.triples.object? n p
  gather [⟨n, p, o⟩]
  return o

/-- Gathers the triple that types a node with a class, if there is one. -/
def noteType (n : Node) (c : Iri) : Reading Unit :=
  if R.triples.hasType n c then gather [⟨n, .rdf .type, c⟩] else pure ()

/-- The items of a list; the triples of its cells are gathered. -/
def list (head : Term) : Reading (List Term) := do
  let items ← (R.triples.readList R.settings.listLimit head).toOption
  gather (R.triples.listTriples R.settings.listLimit head)
  return items

/-- The term, if it is an IRI. -/
def named (x : Term) : Reading Iri := x.iri?

/-- The term, if it is an individual. -/
def individual (x : Term) : Reading Node := x.node?

/-- The term, if it is a literal. -/
def literal (x : Term) : Reading Literal := x.literal?

/-- The number a literal says: decimal digits, a plus sign allowed before them, below `2 ^ 32`. -/
def cardinality? (l : Literal) : Option UInt32 :=
  let digits :=
    match l.value.toList with
    | '+' :: rest => rest
    | cs => cs
  if digits.isEmpty || !digits.all Char.isDigit then none
  else
    let n := digits.foldl (fun n c => 10 * n + (c.toNat - '0'.toNat)) 0
    if n < UInt32.size then some (UInt32.ofNat n) else none

/-- The number a term says, if it is a literal. -/
def cardinality (x : Term) : Reading UInt32 := x.literal?.bind cardinality?

/-- The sort of a property: of an IRI, the first of object, data and annotation property that it
is; a blank node is an object property if it is the inverse of one. -/
def sortOf? (x : Term) : Option Category :=
  match x with
  | .node (.blank b) =>
    if R.triples.hasProperty b (.owl .inverseOf) then some .objectProperty else none
  | x => [Category.objectProperty, .dataProperty, .annotationProperty].find? fun c => R.isA c x

/-- The sort of the first of two properties that has one. -/
def sortOfEither? (x y : Term) : Option Category := R.sortOf? x <|> R.sortOf? y

/-! ## Expressions -/

/-- Reads an object property expression. -/
def objectProperty (x : Term) : Reading ObjectPropertyExpr :=
  match x with
  | .node (.iri p) => pure (.named p)
  | .node (.blank b) => do
    let base ← R.required b (.owl .inverseOf)
    return .inverse (← named base)
  | .literal _ => failure

/-- Reads one facet of a datatype restriction: a node with a single triple. -/
def facet (x : Term) : Reading (Iri × Literal) := do
  let n ← individual x
  match R.triples.outgoing n with
  | [t] => do
    let value ← literal t.object
    gather [t]
    return (t.predicate, value)
  | _ => failure

/-- Reads a node with operands, given how to read the operands. -/
def operandsOf {α : Type} (inner : Term → Reading α) (n : Node) (p : Iri) : Reading (List α) := do
  let head ← R.required n p
  (← R.list head).mapM inner

/-- Reads what a blank node says about a data range, given how to read the data ranges inside. -/
def dataRangeAt (inner : Term → Reading DataRange) (n : Node) : Reading DataRange := do
  R.noteType n (.rdfs .Datatype)
  if R.triples.hasProperty n (.owl .intersectionOf) then
    return .junction .intersection (← R.operandsOf inner n (.owl .intersectionOf))
  else if R.triples.hasProperty n (.owl .unionOf) then
    return .junction .union (← R.operandsOf inner n (.owl .unionOf))
  else if R.triples.hasProperty n (.owl .datatypeComplementOf) then
    return .complement (← inner (← R.required n (.owl .datatypeComplementOf)))
  else if R.triples.hasProperty n (.owl .oneOf) then
    return .oneOf (← R.operandsOf literal n (.owl .oneOf))
  else do
    let d ← named (← R.required n (.owl .onDatatype))
    return .restriction d (← R.operandsOf R.facet n (.owl .withRestrictions))

/-- Reads a data range, given the blank nodes it is inside of. -/
def dataRangeIn (within : List Node) : Term → Reading DataRange
  | .node (.iri d) => pure (.named d)
  | .node (.blank b) =>
    if h : R.triples.describes b = true ∧ (.blank b : Node) ∉ within then
      have : R.triples.unvisited (.blank b :: within) < R.triples.unvisited within :=
        (TripleSet.describes_iff.1 h.1).elim fun _ ht =>
          TripleSet.unvisited_cons_lt h.2 ht.1 ht.2
      R.dataRangeAt (fun x => dataRangeIn (.blank b :: within) x) b
    else failure
  | .literal _ => failure
termination_by R.triples.unvisited within

/-- Reads a data range. -/
def dataRange (x : Term) : Reading DataRange := R.dataRangeIn [] x

/-- Reads a cardinality and the predicate of its filler: the bound, the number, and the filler if
the cardinality is a qualified one. -/
def bounded (n : Node) (onFiller : Iri) : Reading (Bound × UInt32 × Option Term) :=
  go Bound.all
where
  /-- Reads the first of some bounds that the node has. -/
  go : List Bound → Reading (Bound × UInt32 × Option Term)
    | [] => failure
    | b :: bs => do
      if R.triples.hasProperty n b.plain then
        return (b, ← cardinality (← R.required n b.plain), none)
      else if R.triples.hasProperty n b.qualified then do
        let value ← R.required n b.qualified
        let filler ← R.required n onFiller
        return (b, ← cardinality value, some filler)
      else go bs

/-- Reads a restriction on an object property, given how to read its filler. -/
def objectRestriction (inner : Term → Reading ClassExpr) (n : Node) (p : ObjectPropertyExpr) :
    Reading ClassExpr := do
  if R.triples.hasProperty n (.owl .someValuesFrom) then
    return .objectValues .some p (← inner (← R.required n (.owl .someValuesFrom)))
  else if R.triples.hasProperty n (.owl .allValuesFrom) then
    return .objectValues .all p (← inner (← R.required n (.owl .allValuesFrom)))
  else if R.triples.hasProperty n (.owl .hasValue) then
    return .objectHasValue p (← individual (← R.required n (.owl .hasValue)))
  else if R.triples.hasProperty n (.owl .hasSelf) then do
    let _ ← R.required n (.owl .hasSelf)
    return .objectHasSelf p
  else
    match ← R.bounded n (.owl .onClass) with
    | (b, k, none) => return .objectCardinality b k p
    | (b, k, some filler) => return .objectQualified b k p (← inner filler)

/-- Reads a restriction on a data property, given how to read its filler. -/
def dataRestriction (inner : Term → Reading DataRange) (n : Node) (p : Iri) :
    Reading ClassExpr := do
  if R.triples.hasProperty n (.owl .someValuesFrom) then
    return .dataValues .some p (← inner (← R.required n (.owl .someValuesFrom)))
  else if R.triples.hasProperty n (.owl .allValuesFrom) then
    return .dataValues .all p (← inner (← R.required n (.owl .allValuesFrom)))
  else if R.triples.hasProperty n (.owl .hasValue) then
    return .dataHasValue p (← literal (← R.required n (.owl .hasValue)))
  else
    match ← R.bounded n (.owl .onDataRange) with
    | (b, k, none) => return .dataCardinality b k p
    | (b, k, some filler) => return .dataQualified b k p (← inner filler)

/-- Reads what a blank node says about a class expression, given how to read the class
expressions and data ranges inside. -/
def classExprAt (inner : Term → Reading ClassExpr) (innerData : Term → Reading DataRange)
    (n : Node) : Reading ClassExpr := do
  if R.triples.hasProperty n (.owl .onProperty) then do
    R.noteType n (.owl .Restriction)
    let p ← R.required n (.owl .onProperty)
    match R.sortOf? p with
    | some .objectProperty => R.objectRestriction inner n (← R.objectProperty p)
    | some .dataProperty => R.dataRestriction innerData n (← named p)
    | _ => failure
  else do
    R.noteType n (.owl .Class)
    if R.triples.hasProperty n (.owl .intersectionOf) then
      return .junction .intersection (← R.operandsOf inner n (.owl .intersectionOf))
    else if R.triples.hasProperty n (.owl .unionOf) then
      return .junction .union (← R.operandsOf inner n (.owl .unionOf))
    else if R.triples.hasProperty n (.owl .complementOf) then
      return .complement (← inner (← R.required n (.owl .complementOf)))
    else
      return .oneOf (← R.operandsOf individual n (.owl .oneOf))

/-- Reads a class expression, given the blank nodes it is inside of. -/
def classExprIn (within : List Node) : Term → Reading ClassExpr
  | .node (.iri c) => pure (.named c)
  | .node (.blank b) =>
    if h : R.triples.describes b = true ∧ (.blank b : Node) ∉ within then
      have : R.triples.unvisited (.blank b :: within) < R.triples.unvisited within :=
        (TripleSet.describes_iff.1 h.1).elim fun _ ht =>
          TripleSet.unvisited_cons_lt h.2 ht.1 ht.2
      R.classExprAt (fun x => classExprIn (.blank b :: within) x)
        (R.dataRangeIn (.blank b :: within)) b
    else failure
  | .literal _ => failure
termination_by R.triples.unvisited within

/-- Reads a class expression. -/
def classExpr (x : Term) : Reading ClassExpr := R.classExprIn [] x

/-! ## Axioms -/

/-- The types of blank nodes that belong to the encoding of something else. -/
def structuralTypes : List Iri :=
  [.owl .Axiom, .owl .AnnotationResource, .owl .Restriction, .owl .AllDisjointClasses,
    .owl .AllDisjointProperties, .owl .AllDifferent, .owl .NegativePropertyAssertion]

/-- The predicates of blank nodes that belong to the encoding of something else. -/
def structuralPredicates : List Iri :=
  [.rdf .first, .owl .unionOf, .owl .intersectionOf, .owl .complementOf, .owl .oneOf,
    .owl .inverseOf, .owl .onDatatype, .owl .datatypeComplementOf, .owl .withRestrictions,
    .owl .onProperty, .owl .annotatedSource]

/-- Is the node an ontology header, or a blank node of the encoding of something else? -/
def isStructural (n : Node) : Bool :=
  R.triples.hasType n (.owl .Ontology) ||
  (n.isBlank &&
    (structuralTypes.any (fun c => R.triples.hasType n c) ||
      structuralPredicates.any fun p => R.triples.hasProperty n p))

/-- Reads the axiom that a property between two terms asserts. -/
def assertion (s : Node) (p : Iri) (o : Term) : Reading Axiom :=
  if R.isStructural s then failure
  else if R.isA (if o.isLiteral then .dataProperty else .objectProperty) (.iri p : Node) then
    pure (.propertyAssertion p s o)
  else if R.isA .annotationProperty (.iri p : Node) then pure (.annotationAssertion p s o)
  else failure

/-- Reads the axiom that a type says about an entity. -/
def entityTyping? (i : Iri) (c : Iri) : Option Axiom :=
  match c with
  | .owl .Class => some (.declaration ⟨.owlClass, i⟩)
  | .rdfs .Datatype => some (.declaration ⟨.datatype, i⟩)
  | .owl .ObjectProperty => some (.declaration ⟨.objectProperty, i⟩)
  | .owl .DatatypeProperty => some (.declaration ⟨.dataProperty, i⟩)
  | .owl .AnnotationProperty => some (.declaration ⟨.annotationProperty, i⟩)
  | .owl .NamedIndividual => some (.declaration ⟨.namedIndividual, i⟩)
  | .owl .FunctionalProperty =>
    if R.isA .objectProperty (.iri i : Node) then some (.objectCharacteristic .functional i)
    else if R.isA .dataProperty (.iri i : Node) then some (.functionalDataProperty i)
    else none
  | .owl .InverseFunctionalProperty => some (.objectCharacteristic .inverseFunctional i)
  | .owl .ReflexiveProperty => some (.objectCharacteristic .reflexive i)
  | .owl .IrreflexiveProperty => some (.objectCharacteristic .irreflexive i)
  | .owl .SymmetricProperty => some (.objectCharacteristic .symmetric i)
  | .owl .AsymmetricProperty => some (.objectCharacteristic .asymmetric i)
  | .owl .TransitiveProperty => some (.objectCharacteristic .transitive i)
  | _ => none

/-- Reads the negative assertion of a node. -/
def negativeAssertion (root : Node) : Reading Axiom := do
  let source ← R.required root (.owl .sourceIndividual)
  let property ← R.required root (.owl .assertionProperty)
  let source ← individual source
  let property ← named property
  if R.triples.hasProperty root (.owl .targetIndividual) then do
    let target ← individual (← R.required root (.owl .targetIndividual))
    return .negativePropertyAssertion property source target
  else do
    let target ← literal (← R.required root (.owl .targetValue))
    return .negativePropertyAssertion property source target

/-- Reads the axiom about the members that a node groups. -/
def group (root : Node) (c : Iri) : Reading Axiom := do
  let head ←
    if c == .owl .AllDifferent && !R.triples.hasProperty root (.owl .members) then
      R.required root (.owl .distinctMembers)
    else R.required root (.owl .members)
  let members ← R.list head
  match c with
  | .owl .AllDisjointClasses => return .disjointClasses (← members.mapM R.classExpr)
  | .owl .AllDifferent => return .differentIndividuals (← members.mapM individual)
  | _ =>
    match members.head?.bind R.sortOf? with
    | some .objectProperty => return .disjointProperties .object (← members.mapM named)
    | some .dataProperty => return .disjointProperties .data (← members.mapM named)
    | _ => failure

/-- Reads the axiom of a typing triple; also answers whether its remarks belong to the subject. -/
def typing (s : Node) (o : Term) : Reading (Axiom × Bool) :=
  match o with
  | .literal _ => failure
  | .node (.blank b) => do
    if R.isStructural s then failure
    return (.classAssertion (← R.classExpr b) s, false)
  | .node (.iri c) =>
    match c with
    | .owl .NegativePropertyAssertion => return (← R.negativeAssertion s, true)
    | .owl .AllDisjointClasses | .owl .AllDisjointProperties | .owl .AllDifferent =>
      return (← R.group s c, true)
    | _ =>
      match s.iri?.bind fun i => R.entityTyping? i c with
      | some ax => pure (ax, false)
      | none =>
        if (!c.isReserved || c.isBuiltin .owlClass) && !R.isStructural s then
          pure (.classAssertion (.named c) s, false)
        else failure

/-- Reads the axiom of a property between two properties: the sub-property axioms. -/
def subProperty (s : Node) (o : Term) : Reading Axiom :=
  match R.sortOfEither? s o with
  | some .objectProperty =>
    return .subObjectPropertyOf (← R.objectProperty s) (← R.objectProperty o)
  | some .dataProperty => return .subDataPropertyOf (← named s) (← named o)
  | some .annotationProperty => return .subAnnotationPropertyOf (← named s) (← named o)
  | _ => failure

/-- The sort of the properties that an equivalence or disjointness relates. -/
def pairSort (s : Node) (o : Term) : Reading PropertySort :=
  match R.sortOfEither? s o with
  | some .objectProperty => pure .object
  | some .dataProperty => pure .data
  | _ => failure

/-- Reads the axiom of a property's domain. -/
def domain (s : Node) (o : Term) : Reading Axiom :=
  match R.sortOf? s with
  | some .objectProperty => return .propertyDomain .object (← named s) (← R.classExpr o)
  | some .dataProperty => return .propertyDomain .data (← named s) (← R.classExpr o)
  | some .annotationProperty => return .annotationPropertyDomain (← named s) (← named o)
  | _ => failure

/-- Reads the axiom of a property's range. -/
def range (s : Node) (o : Term) : Reading Axiom :=
  match R.sortOf? s with
  | some .objectProperty => return .objectPropertyRange (← named s) (← R.classExpr o)
  | some .dataProperty => return .dataPropertyRange (← named s) (← R.dataRange o)
  | some .annotationProperty => return .annotationPropertyRange (← named s) (← named o)
  | _ => failure

/-- Reads the axiom of an equivalence of classes: a definition, if the subject is a datatype and
no class. -/
def equivalence (s : Node) (o : Term) : Reading Axiom :=
  if s.isNamed && R.isA .datatype s && !R.isA .owlClass s then
    return .datatypeDefinition (← named s) (← R.dataRange o)
  else return .equivalentClasses [← R.classExpr s, ← R.classExpr o]

/-- Reads a key. Each property is an object property or else a data property. -/
def key (s : Node) (o : Term) : Reading Axiom := do
  let properties ← R.list o
  let (ops, rest) := properties.partition fun p => R.isA .objectProperty p
  if !rest.all (fun p => R.isA .dataProperty p) then failure
  return .hasKey (← R.classExpr s) (← ops.mapM named) (← rest.mapM named)

/-- Reads the axiom of a triple; also answers whether its remarks belong to the subject. -/
def statement (t : Triple) : Reading (Axiom × Bool) :=
  let s := t.subject
  let o := t.object
  if R.triples.hasType s (.owl .Ontology) then failure
  else match t.predicate with
  | .rdf .type => R.typing s o
  | .rdfs .subClassOf => plain do return .subClassOf (← R.classExpr s) (← R.classExpr o)
  | .owl .equivalentClass => plain (R.equivalence s o)
  | .owl .disjointWith => plain do return .disjointClasses [← R.classExpr s, ← R.classExpr o]
  | .owl .disjointUnionOf =>
    plain do return .disjointUnion (← named s) (← (← R.list o).mapM R.classExpr)
  | .rdfs .subPropertyOf => plain (R.subProperty s o)
  | .owl .propertyChainAxiom => plain do
    let chain ← (← R.list o).mapM R.objectProperty
    return .subPropertyChainOf chain (← named s)
  | .owl .equivalentProperty =>
    plain do return .equivalentProperties (← R.pairSort s o) [← named s, ← named o]
  | .owl .propertyDisjointWith =>
    plain do return .disjointProperties (← R.pairSort s o) [← named s, ← named o]
  | .rdfs .domain => plain (R.domain s o)
  | .rdfs .range => plain (R.range s o)
  | .owl .inverseOf => plain do return .inverseObjectProperties (← named s) (← named o)
  | .owl .sameAs => plain do return .sameIndividual [s, ← individual o]
  | .owl .differentFrom => plain do return .differentIndividuals [s, ← individual o]
  | .owl .hasKey => plain (R.key s o)
  | p => if p.canAnnotate then plain (R.assertion s p o) else failure
where
  /-- The axiom is encoded by the triple itself, not by its subject. -/
  plain (read : Reading Axiom) : Reading (Axiom × Bool) := return (← read, false)

/-! ## Remarks -/

/-- The triples that make a remark on a node. -/
def remarkTriples (n : Node) : List Triple :=
  (R.triples.outgoing n).filter fun t => t.predicate.canAnnotate

/-- The remarks that triples make on their subject. -/
def remarksOf (ts : List Triple) : List Remark := ts.map fun t => ⟨t.predicate, t.object⟩

/-- The nodes that stand for a triple. -/
def reifiers (t : Triple) : List Node :=
  (R.triples.subjects (.owl .annotatedSource) t.subject).filter fun n =>
    decide (⟨n, .owl .annotatedProperty, (.iri t.predicate : Node)⟩ ∈ R.triples) &&
    decide (⟨n, .owl .annotatedTarget, t.object⟩ ∈ R.triples)

/-- The triples that make a node stand for a triple. -/
def reification (n : Node) (t : Triple) : List Triple :=
  [⟨n, .owl .annotatedSource, t.subject⟩,
    ⟨n, .owl .annotatedProperty, (.iri t.predicate : Node)⟩,
    ⟨n, .owl .annotatedTarget, t.object⟩] ++
  if R.triples.hasType n (.owl .Axiom) then [.typing n (.owl .Axiom)] else []

/-- The axioms read from a main triple, with their footprints. A main triple that nodes stand for
is read once for each of these nodes, with the remarks on it, and not without them. -/
def axiomsAt (main : Triple) : List (AnnotatedAxiom × Footprint) :=
  if main ∈ R.triples then
    match (R.statement main).run [] with
    | none => []
    | some ((ax, true), ts) =>
      let notes := R.remarkTriples main.subject
      [(.of ax (remarksOf notes), .of main (ts ++ notes))]
    | some ((ax, false), ts) =>
      match R.reifiers main with
      | [] => [(⟨ax, []⟩, .of main ts)]
      | ns => ns.map fun n =>
        let notes := R.remarkTriples n
        (.of ax (remarksOf notes), .of main (ts ++ R.reification n main ++ notes))
  else []

/-- Every axiom of the set, with its footprints. -/
def scan : List (AnnotatedAxiom × Footprint) := R.triples.toList.flatMap R.axiomsAt

end Source

end Ontograph
