import Ontograph.Classify.Search

/-!
# What an edit can change

Inserting or removing triples can change only some answers directly: those with direct evidence
among the edited triples. `TripleSet.touched?` lists them, or says that they cannot be listed
because the edit rewires lists. An answer that changed matters elsewhere only if another question
can lead to it, which `TripleSet.isDependedOn` decides.
-/

namespace Ontograph

namespace Question

/-- The questions of some categories about a term; literals have none. -/
def about (cs : List Category) : Term → List Question
  | .node n => cs.map (⟨·, n⟩)
  | .literal _ => []

/-- The questions of some categories about several terms. -/
def aboutAll (cs : List Category) (xs : List Term) : List Question := xs.flatMap (about cs)

end Question

/-- The sorts of properties a property can be inferred to be of. -/
def Category.properties : List Category := [.objectProperty, .dataProperty, .annotationProperty]

/-- The two sorts of properties that individuals have. -/
def Category.individualProperties : List Category := [.objectProperty, .dataProperty]

/-- The categories of class expressions and data ranges. -/
def Category.ranges : List Category := [.owlClass, .datatype]

/-- The types of the nodes that group the members of an axiom. -/
def groupTypes : List Iri :=
  [.owl .AllDisjointClasses, .owl .AllDisjointProperties, .owl .AllDifferent]

/-- The types that make a node a class or a datatype. -/
def rangeTypes : List Iri :=
  [.owl .Class, .owl .Restriction, .rdfs .Class, .rdfs .Datatype, .owl .DataRange]

/-- The types that make a node a property, or say something about one. -/
def propertyMarks : List Iri :=
  propertyTypes ++ [.owl .FunctionalProperty] ++ Characteristic.objectOnly.map Characteristic.type

namespace TripleSet

/-- The questions that a typing of a node is direct evidence for, apart from the individual. -/
def touchedByType (around : TripleSet) (s : Node) (o : Term) : Option (List Question) :=
  let asClass := Question.about [.owlClass] o
  match o with
  | .node (.iri c) =>
    if groupTypes.contains c then none
    else if rangeTypes.contains c then some (asClass ++ Question.about Category.ranges s)
    else if propertyMarks.contains c then some (asClass ++ Question.about Category.properties s)
    else if annotatedTypes.contains c then
      some (asClass ++ (around.outgoing s).map fun t => ⟨.annotationProperty, t.predicate⟩)
    else some asClass
  | _ => some asClass

/-- The questions that a triple with a given predicate is direct evidence for, apart from those
every triple is evidence for. -/
def touchedByPredicate (around : TripleSet) (t : Triple) : Option (List Question) :=
  let s : Term := t.subject
  let o := t.object
  let related (p : Iri) := around.objects t.subject p
  match t.predicate with
  | .rdf .first | .rdf .rest => none
  | .rdf .type => around.touchedByType t.subject o
  | .rdfs .subClassOf | .owl .disjointWith | .owl .complementOf =>
    some (Question.aboutAll [.owlClass] [s, o])
  | .owl .equivalentClass | .owl .unionOf | .owl .intersectionOf | .owl .oneOf =>
    some (Question.aboutAll Category.ranges [s, o])
  | .owl .disjointUnionOf | .owl .hasKey => some (Question.about [.owlClass] s)
  | .owl .onClass =>
    some (Question.aboutAll [.owlClass] [s, o] ++
      Question.aboutAll [.objectProperty] (related (.owl .onProperty)))
  | .owl .onProperty =>
    some (Question.about [.owlClass] s ++ Question.about Category.individualProperties o ++
      Question.aboutAll Category.ranges
        (related (.owl .someValuesFrom) ++ related (.owl .allValuesFrom)))
  | .owl .someValuesFrom | .owl .allValuesFrom =>
    some (Question.about Category.ranges o ++
      Question.aboutAll Category.individualProperties (related (.owl .onProperty)))
  | .owl .hasValue | .owl .hasSelf | .owl .onDataRange =>
    some (Question.about [.individual, .datatype] o ++
      Question.aboutAll Category.individualProperties (related (.owl .onProperty)))
  | .owl .inverseOf | .owl .propertyChainAxiom =>
    some (Question.aboutAll [.objectProperty] [s, o])
  | .rdfs .subPropertyOf | .owl .equivalentProperty | .owl .propertyDisjointWith =>
    some (Question.aboutAll Category.properties [s, o])
  | .rdfs .domain =>
    some (Question.about Category.individualProperties s ++ Question.about [.owlClass] o)
  | .rdfs .range =>
    some (Question.about Category.individualProperties s ++ Question.about Category.ranges o)
  | .owl .onDatatype | .owl .datatypeComplementOf | .owl .withRestrictions =>
    some (Question.aboutAll [.datatype] [s, o])
  | .owl .assertionProperty => some (Question.about Category.individualProperties o)
  | .owl .targetIndividual | .owl .targetValue =>
    some (Question.about [.individual] o ++
      Question.aboutAll Category.individualProperties (related (.owl .assertionProperty)))
  | .owl .sameAs | .owl .differentFrom | .owl .sourceIndividual =>
    some (Question.about [.individual] o)
  | _ => some []

/-- The questions about the items of the list that a triple gives its subject; unanswered if the
list cannot be read. -/
def touchedByList (S : TripleSet) (limit : Nat) (t : Triple) : Option (List Question) :=
  if listPredicates.contains t.predicate then
    (S.readList limit t.object).toOption.map (Question.aboutAll Category.all)
  else some []

/-- The questions that one triple is direct evidence for, in a set and in the set with the edited
triples around it. -/
def touchedBy (S around : TripleSet) (limit : Nat) (t : Triple) : Option (List Question) := do
  let listed ← S.touchedByList limit t
  let marked ← around.touchedByPredicate t
  return Question.about [.individual] t.subject ++
    (if t.predicate.isReserved then [] else Question.about [.individual] t.object) ++
    (if around.isAnnotationRoot t.subject then [⟨.annotationProperty, t.predicate⟩] else []) ++
    listed ++ marked

/-- The questions that the triples of an edit are direct evidence for, each once, whether the
triples are in the set or about to be inserted. Unanswered if the edit links list cells or types
a group of list members. -/
def touched? (S : TripleSet) (limit : Nat) (ts : List Triple) : Option (List Question) :=
  let around := S.insertMany ts
  (ts.mapM (S.touchedBy around limit)).map fun qs => qs.flatten.eraseDups

/-- Can another question lead to this one? -/
def isDependedOn (S : TripleSet) (q : Question) : Bool :=
  let n := q.node
  let linked (p : Iri) := S.hasSubject p n || S.hasProperty n p
  match q.category with
  | .owlClass | .datatype =>
    S.hasSubject (.rdf .first) n || linked (.owl .equivalentClass) ||
    S.hasSubject (.rdfs .range) n || S.hasSubject (.owl .someValuesFrom) n ||
    S.hasSubject (.owl .allValuesFrom) n
  | .objectProperty | .dataProperty =>
    S.hasProperty n (.rdfs .domain) || S.hasProperty n (.rdfs .range) ||
    S.hasSubject (.owl .onProperty) n || S.hasSubject (.rdf .first) n ||
    linked (.rdfs .subPropertyOf) || linked (.owl .equivalentProperty) ||
    linked (.owl .propertyDisjointWith) || n.iri?.any S.isUsed
  | .annotationProperty => linked (.rdfs .subPropertyOf)
  | .individual => false

end TripleSet

end Ontograph
