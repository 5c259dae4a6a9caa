import Ontograph.Mapping.Footprint
import Ontograph.Owl.Axiom

/-!
# Encoding axioms as triples

`AnnotatedAxiom.encode` gives the footprint of an axiom. Anonymous expressions, lists and remarks
get blank nodes of their own, taken from a supply of names. Triples are written in a fixed order:
the parts of an expression before the expression, a list from its end, a group node before its
list. An axiom that lacks operands has no encoding.
-/

namespace Ontograph

/-! ## Fresh names -/

/-- A supply of blank nodes: a stem and the number of the next one. -/
structure Supply where
  stem : String
  next : Nat := 0
  deriving DecidableEq, Repr

/-- The next blank node, and the supply without it. -/
def Supply.take (s : Supply) : Blank × Supply :=
  (⟨s.stem ++ String.ofList (Nat.toDigits 10 s.next)⟩, { s with next := s.next + 1 })

/-! ## What can be wrong with an axiom -/

/-- Why an axiom has no encoding. -/
inductive OperandDefect
  | tooFew (least found : Nat)
  | notPair (found : Nat)
  | emptyKey
  deriving DecidableEq, Repr

/-- The reason in words. -/
def OperandDefect.message : OperandDefect → String
  | .tooFew least found =>
    "expected at least " ++ String.ofList (Nat.toDigits 10 least) ++ " operands, found " ++
      String.ofList (Nat.toDigits 10 found)
  | .notPair found =>
    "expected exactly 2 operands, found " ++ String.ofList (Nat.toDigits 10 found)
  | .emptyKey => "a key needs at least one property"

/-- An axiom that has no encoding. -/
structure MalformedAxiom where
  ax : Axiom
  defect : OperandDefect
  deriving DecidableEq

/-- The refusal in words. -/
def MalformedAxiom.message (e : MalformedAxiom) : String :=
  "malformed axiom " ++ e.ax.text ++ ": " ++ e.defect.message

/-! ## Drafts -/

/-- The names left and the triples written so far, in order. -/
structure Draft where
  supply : Supply
  triples : List Triple := []
  deriving DecidableEq

/-- A step of an encoding: it writes triples, or finds the axiom wanting. -/
abbrev Drafting := StateT Draft (Except OperandDefect)

namespace Drafting

/-- Refuses the axiom. -/
def refuse {α : Type} (d : OperandDefect) : Drafting α := fun _ => .error d

/-- Writes a triple. -/
def emit (s : Node) (p : Iri) (o : Term) : Drafting Unit :=
  modify fun d => { d with triples := d.triples ++ [⟨s, p, o⟩] }

/-- Takes a new blank node. -/
def fresh : Drafting Node :=
  modifyGet fun d => (.blank d.supply.take.1, { d with supply := d.supply.take.2 })

/-- Takes a new blank node and types it. -/
def freshOf (c : Iri) : Drafting Node := do
  let node ← fresh
  emit node (.rdf .type) c
  return node

/-- Demands a number of operands. -/
def atLeast (least found : Nat) : Drafting Unit :=
  if found < least then refuse (.tooFew least found) else pure ()

end Drafting

open Drafting

/-! ## Lists and expressions -/

/-- Writes a list, its last cell first; answers its head. -/
def encodeList : List Term → Drafting Term
  | [] => pure (.node (.iri (.rdf .nil)))
  | x :: xs => do
    let rest ← encodeList xs
    let cell ← fresh
    emit cell (.rdf .first) x
    emit cell (.rdf .rest) rest
    return cell

/-- Writes an object property expression; answers its node. -/
def ObjectPropertyExpr.encode : ObjectPropertyExpr → Drafting Node
  | .named p => pure p
  | .inverse p => do
    let node ← fresh
    emit node (.owl .inverseOf) (.iri p : Node)
    return node

/-- Writes object property expressions; answers their nodes. -/
def ObjectPropertyExpr.encodeAll : List ObjectPropertyExpr → Drafting (List Term)
  | [] => pure []
  | p :: ps => do
    let node ← p.encode
    let nodes ← encodeAll ps
    return .node node :: nodes

/-- Writes the node of a restriction on a property. -/
def encodeRestriction (property : Node) : Drafting Node := do
  let node ← freshOf (.owl .Restriction)
  emit node (.owl .onProperty) property
  return node

/-- Writes the facets of a datatype restriction, a node each; answers the nodes. -/
def encodeFacets : List (Iri × Literal) → Drafting (List Term)
  | [] => pure []
  | (facet, value) :: facets => do
    let node ← fresh
    emit node facet value
    let nodes ← encodeFacets facets
    return .node node :: nodes

mutual

/-- Writes a data range; answers its node. -/
def DataRange.encode : DataRange → Drafting Node
  | .named d => pure d
  | .junction j ds => do
    atLeast 1 ds.length
    let operands ← encodeAll ds
    let node ← freshOf (.rdfs .Datatype)
    let list ← encodeList operands
    emit node j.predicate list
    return node
  | .complement d => do
    let operand ← encode d
    let node ← freshOf (.rdfs .Datatype)
    emit node (.owl .datatypeComplementOf) operand
    return node
  | .oneOf values => do
    atLeast 1 values.length
    let node ← freshOf (.rdfs .Datatype)
    let list ← encodeList (values.map .literal)
    emit node (.owl .oneOf) list
    return node
  | .restriction d facets => do
    atLeast 1 facets.length
    let node ← freshOf (.rdfs .Datatype)
    emit node (.owl .onDatatype) (.iri d : Node)
    let nodes ← encodeFacets facets
    let list ← encodeList nodes
    emit node (.owl .withRestrictions) list
    return node

/-- Writes data ranges; answers their nodes. -/
def DataRange.encodeAll : List DataRange → Drafting (List Term)
  | [] => pure []
  | d :: ds => do
    let node ← encode d
    let nodes ← encodeAll ds
    return .node node :: nodes

end

mutual

/-- Writes a class expression; answers its node. -/
def ClassExpr.encode : ClassExpr → Drafting Node
  | .named c => pure c
  | .junction j cs => do
    atLeast 1 cs.length
    let operands ← encodeAll cs
    let node ← freshOf (.owl .Class)
    let list ← encodeList operands
    emit node j.predicate list
    return node
  | .complement c => do
    let operand ← encode c
    let node ← freshOf (.owl .Class)
    emit node (.owl .complementOf) operand
    return node
  | .oneOf members => do
    atLeast 1 members.length
    let node ← freshOf (.owl .Class)
    let list ← encodeList (members.map .node)
    emit node (.owl .oneOf) list
    return node
  | .objectValues q p c => do
    let filler ← encode c
    let node ← encodeRestriction (← p.encode)
    emit node q.predicate filler
    return node
  | .objectHasValue p value => do
    let node ← encodeRestriction (← p.encode)
    emit node (.owl .hasValue) value
    return node
  | .objectHasSelf p => do
    let node ← encodeRestriction (← p.encode)
    emit node (.owl .hasSelf) Literal.yes
    return node
  | .objectCardinality b n p => do
    let node ← encodeRestriction (← p.encode)
    emit node b.plain (Literal.ofNat n.toNat)
    return node
  | .objectQualified b n p c => do
    let filler ← encode c
    let node ← encodeRestriction (← p.encode)
    emit node b.qualified (Literal.ofNat n.toNat)
    emit node (.owl .onClass) filler
    return node
  | .dataValues q p d => do
    let filler ← d.encode
    let node ← encodeRestriction p
    emit node q.predicate filler
    return node
  | .dataHasValue p value => do
    let node ← encodeRestriction p
    emit node (.owl .hasValue) value
    return node
  | .dataCardinality b n p => do
    let node ← encodeRestriction p
    emit node b.plain (Literal.ofNat n.toNat)
    return node
  | .dataQualified b n p d => do
    let filler ← d.encode
    let node ← encodeRestriction p
    emit node b.qualified (Literal.ofNat n.toNat)
    emit node (.owl .onDataRange) filler
    return node

/-- Writes class expressions; answers their nodes. -/
def ClassExpr.encodeAll : List ClassExpr → Drafting (List Term)
  | [] => pure []
  | c :: cs => do
    let node ← encode c
    let nodes ← encodeAll cs
    return .node node :: nodes

end

/-! ## Axioms -/

/-- Where an axiom is encoded: its main triple, and whether remarks about the axiom belong to the
subject of that triple. -/
structure Anchor where
  main : Triple
  rooted : Bool
  deriving DecidableEq

/-- Writes the main triple of an axiom whose remarks are said about that triple. -/
def encodePlain (s : Node) (p : Iri) (o : Term) : Drafting Anchor := do
  emit s p o
  return ⟨⟨s, p, o⟩, false⟩

/-- Writes a node of its own for an axiom, with a type. -/
def encodeRoot (c : Iri) : Drafting (Node × Anchor) := do
  let root ← freshOf c
  return (root, ⟨.typing root c, true⟩)

/-- Writes a node that groups the members of an axiom. -/
def encodeGroup (c : Iri) (members : List Term) : Drafting Anchor := do
  let (root, anchor) ← encodeRoot c
  let list ← encodeList members
  emit root (.owl .members) list
  return anchor

namespace Axiom

/-- Writes an axiom; answers where it is encoded. -/
def encode : Axiom → Drafting Anchor
  | .declaration e => encodePlain e.iri (.rdf .type) e.kind.declaration
  | .subClassOf sub super => do
    let sub ← sub.encode
    let super ← super.encode
    encodePlain sub (.rdfs .subClassOf) super
  | .equivalentClasses [c, d] => do
    let c ← c.encode
    let d ← d.encode
    encodePlain c (.owl .equivalentClass) d
  | .equivalentClasses cs => refuse (.notPair cs.length)
  | .disjointClasses [c, d] => do
    let c ← c.encode
    let d ← d.encode
    encodePlain c (.owl .disjointWith) d
  | .disjointClasses cs => do
    atLeast 2 cs.length
    let members ← ClassExpr.encodeAll cs
    encodeGroup (.owl .AllDisjointClasses) members
  | .disjointUnion c parts => do
    atLeast 1 parts.length
    let members ← ClassExpr.encodeAll parts
    let list ← encodeList members
    encodePlain c (.owl .disjointUnionOf) list
  | .subObjectPropertyOf sub super => do
    let sub ← sub.encode
    let super ← super.encode
    encodePlain sub (.rdfs .subPropertyOf) super
  | .subPropertyChainOf chain super => do
    atLeast 2 chain.length
    let links ← ObjectPropertyExpr.encodeAll chain
    let list ← encodeList links
    encodePlain super (.owl .propertyChainAxiom) list
  | .subDataPropertyOf sub super | .subAnnotationPropertyOf sub super =>
    encodePlain sub (.rdfs .subPropertyOf) (.iri super : Node)
  | .equivalentProperties _ [p, q] => encodePlain p (.owl .equivalentProperty) (.iri q : Node)
  | .equivalentProperties _ ps => refuse (.notPair ps.length)
  | .disjointProperties _ [p, q] => encodePlain p (.owl .propertyDisjointWith) (.iri q : Node)
  | .disjointProperties _ ps => do
    atLeast 2 ps.length
    encodeGroup (.owl .AllDisjointProperties) (ps.map fun p => .node (.iri p))
  | .propertyDomain _ p domain => do
    let domain ← domain.encode
    encodePlain p (.rdfs .domain) domain
  | .objectPropertyRange p range => do
    let range ← range.encode
    encodePlain p (.rdfs .range) range
  | .dataPropertyRange p range => do
    let range ← range.encode
    encodePlain p (.rdfs .range) range
  | .inverseObjectProperties p q => encodePlain p (.owl .inverseOf) (.iri q : Node)
  | .objectCharacteristic c p => encodePlain p (.rdf .type) (.iri c.type : Node)
  | .functionalDataProperty p => encodePlain p (.rdf .type) (.iri (.owl .FunctionalProperty) : Node)
  | .datatypeDefinition d range => do
    let range ← range.encode
    encodePlain d (.owl .equivalentClass) range
  | .classAssertion c a => do
    let c ← c.encode
    encodePlain a (.rdf .type) c
  | .propertyAssertion p source target => encodePlain source p target
  | .negativePropertyAssertion p source target => do
    let (root, anchor) ← encodeRoot (.owl .NegativePropertyAssertion)
    emit root (.owl .sourceIndividual) source
    emit root (.owl .assertionProperty) (.iri p : Node)
    emit root (if target.isLiteral then .owl .targetValue else .owl .targetIndividual) target
    return anchor
  | .sameIndividual [a, b] => encodePlain a (.owl .sameAs) b
  | .sameIndividual as => refuse (.notPair as.length)
  | .differentIndividuals [a, b] => encodePlain a (.owl .differentFrom) b
  | .differentIndividuals as => do
    atLeast 2 as.length
    encodeGroup (.owl .AllDifferent) (as.map .node)
  | .hasKey c ops dps => do
    if ops.isEmpty && dps.isEmpty then refuse .emptyKey
    let c ← c.encode
    let list ← encodeList ((ops ++ dps).map fun p => .node (.iri p))
    encodePlain c (.owl .hasKey) list
  | .annotationAssertion p subject value => encodePlain subject p value
  | .annotationPropertyDomain p domain => encodePlain p (.rdfs .domain) (.iri domain : Node)
  | .annotationPropertyRange p range => encodePlain p (.rdfs .range) (.iri range : Node)

end Axiom

/-- Writes remarks on a node. -/
def encodeRemarks (node : Node) : List Remark → Drafting Unit
  | [] => pure ()
  | r :: rs => do
    emit node r.property r.value
    encodeRemarks node rs

/-- Writes a node that stands for a triple, with remarks on it. -/
def encodeReified (main : Triple) (rs : List Remark) : Drafting Unit := do
  let node ← freshOf (.owl .Axiom)
  emit node (.owl .annotatedSource) main.subject
  emit node (.owl .annotatedProperty) (.iri main.predicate : Node)
  emit node (.owl .annotatedTarget) main.object
  encodeRemarks node rs

namespace AnnotatedAxiom

/-- Writes an axiom with its remarks; answers its main triple. -/
def draft (a : AnnotatedAxiom) : Drafting Triple := do
  let anchor ← a.base.encode
  if anchor.rooted then encodeRemarks anchor.main.subject a.remarks
  else if a.isAnnotated then encodeReified anchor.main a.remarks
  return anchor.main

/-- The footprint of an axiom, with blank nodes from a supply; also answers the supply that is
left. -/
def encode (a : AnnotatedAxiom) (supply : Supply) :
    Except MalformedAxiom (Footprint × Supply) :=
  match a.draft { supply } with
  | .ok (main, d) => .ok (Footprint.of main d.triples, d.supply)
  | .error d => .error ⟨a.base, d⟩

end AnnotatedAxiom

end Ontograph
