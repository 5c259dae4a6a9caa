import Ontograph.Proofs.Mapping.Reading

/-!
# Triples that nothing is read from

Most triples of an encoding are no axioms of their own: their predicate appears in encodings only,
or they type the node of an expression.  The exception to watch is the facet of a datatype
restriction, whose predicate is any IRI: it is read as an assertion if that IRI is a data or
annotation property.  `Source.mute_facet` says that it is read in no other way.
-/

namespace Ontograph

open Reading

/-! ## The words of encodings -/

/-- The predicates that appear in encodings only. -/
def encodingPredicates : List Iri :=
  [.rdf .first, .rdf .rest, .owl .unionOf, .owl .intersectionOf, .owl .complementOf,
    .owl .datatypeComplementOf, .owl .oneOf, .owl .onDatatype, .owl .withRestrictions,
    .owl .onProperty, .owl .someValuesFrom, .owl .allValuesFrom, .owl .hasValue, .owl .hasSelf,
    .owl .minCardinality, .owl .maxCardinality, .owl .cardinality,
    .owl .minQualifiedCardinality, .owl .maxQualifiedCardinality, .owl .qualifiedCardinality,
    .owl .onClass, .owl .onDataRange, .owl .members, .owl .sourceIndividual,
    .owl .assertionProperty, .owl .targetIndividual, .owl .targetValue]

/-- The predicates that make a node stand for a triple. -/
def reifyingPredicates : List Iri :=
  [.owl .annotatedSource, .owl .annotatedProperty, .owl .annotatedTarget]

/-- The types of the nodes of expressions and of the nodes that stand for triples. -/
def encodingTypes : List Iri :=
  [.owl .Class, .owl .Restriction, .rdfs .Datatype, .owl .Axiom]

/-- The predicates that describe expressions, lists, groups and negative assertions. -/
def describingPredicates : List Iri :=
  .owl .inverseOf :: .owl .distinctMembers :: encodingPredicates

/-- Is the triple of a kind that is gathered on the way from a main triple: does it describe a node
or type it as an expression, or does it end in a value? -/
def Triple.isGathered (t : Triple) : Bool :=
  describingPredicates.contains t.predicate || t.object.isLiteral ||
    t.predicate == .rdf .type && encodingTypes.any fun c => t.object == .node (.iri c)

namespace Source

variable {R : Source} {s n : Node} {p c : Iri} {o : Term} {t : Triple}

/-- No axiom is read from the triple. -/
def Mute (R : Source) (t : Triple) : Prop := Fails (R.statement t)

/-- Nothing is read from an ontology header; other triples are read by their predicate. -/
theorem mute_of_read {read : Reading (Axiom × Bool)} (h : Fails read)
    (hstatement : R.statement t =
      if R.triples.hasType t.subject (.owl .Ontology) then failure else read) : R.Mute t := by
  unfold Mute
  rw [hstatement]
  cases R.triples.hasType t.subject (.owl .Ontology) with
  | true => exact fails_failure
  | false => exact h

/-- What fails to be read fails to be read as an axiom of one triple. -/
theorem fails_plain {read : Reading Axiom} (h : Fails read) : Fails (statement.plain read) :=
  h.bind

/-- No axiom is read from the predicates that only encodings have. -/
theorem mute_of_mem_encodingPredicates (h : t.predicate ∈ encodingPredicates) : R.Mute t := by
  obtain ⟨s, p, o⟩ := t
  have hall : ∀ q ∈ encodingPredicates, R.Mute ⟨s, q, o⟩ := by
    simp only [encodingPredicates, List.forall_mem_cons, List.not_mem_nil, false_implies,
      implies_true, and_true]
    refine ⟨?_, ?_, ?_, ?_, ?_, ?_, ?_, ?_, ?_, ?_, ?_, ?_, ?_, ?_, ?_, ?_, ?_, ?_, ?_, ?_, ?_, ?_,
      ?_, ?_, ?_, ?_, ?_⟩
    all_goals exact mute_of_read fails_failure rfl
  exact hall p h

/-- No axiom is read from the parts of a triple that a node stands for. -/
theorem mute_of_mem_reifyingPredicates (h : t.predicate ∈ reifyingPredicates) : R.Mute t := by
  obtain ⟨s, p, o⟩ := t
  have hall : ∀ q ∈ reifyingPredicates, R.Mute ⟨s, q, o⟩ := by
    simp only [reifyingPredicates, List.forall_mem_cons, List.not_mem_nil, false_implies,
      implies_true, and_true]
    refine ⟨?_, ?_, ?_⟩
    all_goals exact mute_of_read fails_failure rfl
  exact hall p h

/-- No axiom is read from the type of an anonymous expression. -/
theorem mute_typing (hn : n.isBlank = true) (hc : c ∈ encodingTypes) :
    R.Mute (.typing n c) := by
  cases n with
  | iri i => cases hn
  | blank b =>
    have hall : ∀ c ∈ encodingTypes, R.Mute (.typing (.blank b) c) := by
      simp only [encodingTypes, List.forall_mem_cons, List.not_mem_nil, false_implies,
        implies_true, and_true]
      refine ⟨?_, ?_, ?_, ?_⟩
      all_goals exact mute_of_read fails_failure rfl
    exact hall c hc

/-- No axiom is read from an anonymous inverse. -/
theorem mute_inverseOf (hn : n.isBlank = true) : R.Mute ⟨n, .owl .inverseOf, o⟩ := by
  cases n with
  | iri i => cases hn
  | blank b =>
    refine mute_of_read ?_ rfl
    exact fails_plain (Fails.bind fun _ => rfl)

/-! ## Properties -/

/-- The IRI is an object property. -/
def KnowsObjectProperty (R : Source) (p : Iri) : Prop :=
  R.isA .objectProperty (.node (.iri p)) = true

/-- The IRI is a data property and no object property. -/
def KnowsDataProperty (R : Source) (p : Iri) : Prop :=
  R.isA .dataProperty (.node (.iri p)) = true ∧ R.isA .objectProperty (.node (.iri p)) = false

/-- The IRI is an annotation property, and neither an object nor a data property. -/
def KnowsAnnotationProperty (R : Source) (p : Iri) : Prop :=
  R.isA .annotationProperty (.node (.iri p)) = true ∧
    R.isA .objectProperty (.node (.iri p)) = false ∧ R.isA .dataProperty (.node (.iri p)) = false

/-- A literal with the property is not read as an assertion. -/
def KeepsQuiet (R : Source) (p : Iri) : Prop :=
  p.canAnnotate = true →
    R.isA .dataProperty (.node (.iri p)) = false ∧
      R.isA .annotationProperty (.node (.iri p)) = false

/-- An object property is of that sort. -/
theorem KnowsObjectProperty.sortOf? (h : R.KnowsObjectProperty p) :
    R.sortOf? (.node (.iri p)) = some .objectProperty := by
  unfold KnowsObjectProperty at h
  simp [Source.sortOf?, h]

/-- A data property that is no object property is of that sort. -/
theorem KnowsDataProperty.sortOf? (h : R.KnowsDataProperty p) :
    R.sortOf? (.node (.iri p)) = some .dataProperty := by
  obtain ⟨hdata, hobject⟩ := h
  simp [Source.sortOf?, hdata, hobject]

/-- An annotation property that is of no other sort is of that sort. -/
theorem KnowsAnnotationProperty.sortOf? (h : R.KnowsAnnotationProperty p) :
    R.sortOf? (.node (.iri p)) = some .annotationProperty := by
  obtain ⟨hann, hobject, hdata⟩ := h
  simp [Source.sortOf?, hann, hobject, hdata]

/-- A literal is of no category. -/
theorem isA_literal {k : Category} {l : Literal} : R.isA k (.literal l) = false := rfl

/-- A literal is of no sort of property. -/
theorem sortOf?_literal {l : Literal} : R.sortOf? (.literal l) = none := by
  simp [sortOf?, isA_literal]

/-- A literal is read as no class expression. -/
theorem fails_classExpr_literal {l : Literal} : Fails (R.classExpr (.literal l)) := by
  unfold classExpr
  rw [classExprIn]
  exact fails_failure

/-- A literal is read as no list. -/
theorem fails_list_literal {l : Literal} : Fails (R.list (.literal l)) := by
  have hnone : (R.triples.readList R.settings.listLimit (.literal l)).toOption = none := by
    unfold TripleSet.readList
    rw [TripleSet.readCells]
    rfl
  unfold list
  rw [hnone]
  exact Fails.bind fun _ => rfl

/-- A blank node is equivalent to no literal. -/
theorem fails_equivalence_literal {b : Blank} {l : Literal} :
    Fails (R.equivalence (.blank b) (.literal l)) := by
  have hnamed : ((Node.blank b).isNamed && R.isA .datatype (.node (.blank b)) &&
      !R.isA .owlClass (.node (.blank b))) = false := rfl
  unfold equivalence
  rw [hnamed]
  exact fails_bind fun _ => fails_classExpr_literal.bind

/-- A node of no sort and a literal are of no sort together. -/
theorem fails_pairSort_literal {l : Literal} (h : R.sortOf? (.node s) = none) :
    Fails (R.pairSort s (.literal l)) := by
  unfold pairSort sortOfEither?
  rw [h, sortOf?_literal]
  exact fails_failure

/-- A node of no sort is below no literal. -/
theorem fails_subProperty_literal {l : Literal} (h : R.sortOf? (.node s) = none) :
    Fails (R.subProperty s (.literal l)) := by
  unfold subProperty sortOfEither?
  rw [h, sortOf?_literal]
  exact fails_failure

/-- A node of no sort has no domain. -/
theorem fails_domain (h : R.sortOf? (.node s) = none) : Fails (R.domain s o) := by
  unfold domain
  rw [h]
  exact fails_failure

/-- A node of no sort has no range. -/
theorem fails_range (h : R.sortOf? (.node s) = none) : Fails (R.range s o) := by
  unfold range
  rw [h]
  exact fails_failure

/-- A literal is asserted for data and annotation properties only. -/
theorem fails_assertion_literal {l : Literal} (hdata : R.isA .dataProperty (.node (.iri p)) = false)
    (hann : R.isA .annotationProperty (.node (.iri p)) = false) :
    Fails (R.assertion s p (.literal l)) := by
  unfold assertion
  split
  case isTrue => exact fails_failure
  case isFalse =>
    rw [show (Term.literal l).isLiteral = true from rfl, if_pos rfl, hdata, hann]
    exact fails_failure

/-- A node whose only triple is a facet is of no sort, unless the facet is an inverse. -/
theorem sortOf?_of_facet {b : Blank} {f : Iri} {v : Literal}
    (honly : ∀ u ∈ R.triples, u.subject = .blank b → u = ⟨.blank b, f, v⟩)
    (hf : f ≠ .owl .inverseOf) : R.sortOf? (.node (.blank b)) = none := by
  have hno : R.triples.hasProperty (.blank b) (.owl .inverseOf) = false := by
    rw [Bool.eq_false_iff]
    intro hyes
    obtain ⟨o, ho⟩ := TripleSet.hasProperty_iff.1 hyes
    have he := honly _ ho rfl
    exact hf (congrArg Triple.predicate he).symm
  simp [Source.sortOf?, hno]

/-- A facet of a datatype restriction is no axiom. -/
theorem mute_facet {b : Blank} {f : Iri} {v : Literal}
    (honly : ∀ u ∈ R.triples, u.subject = .blank b → u = ⟨.blank b, f, v⟩)
    (hquiet : R.KeepsQuiet f) : R.Mute ⟨.blank b, f, v⟩ := by
  have hsort := sortOf?_of_facet honly
  refine mute_of_read ?_ rfl
  dsimp only
  -- the literal is no expression, no list and no property, and no predicate does with another term
  split
  case h_1 => exact fails_failure
  case h_2 => exact fails_plain (fails_bind fun _ => fails_classExpr_literal.bind)
  case h_3 => exact fails_plain fails_equivalence_literal
  case h_4 => exact fails_plain (fails_bind fun _ => fails_classExpr_literal.bind)
  case h_5 => exact fails_plain (Fails.bind fun _ => rfl)
  case h_6 => exact fails_plain (fails_subProperty_literal (hsort (by simp)))
  case h_7 => exact fails_plain fails_list_literal.bind
  case h_8 => exact fails_plain (fails_pairSort_literal (hsort (by simp))).bind
  case h_9 => exact fails_plain (fails_pairSort_literal (hsort (by simp))).bind
  case h_10 => exact fails_plain (fails_domain (hsort (by simp)))
  case h_11 => exact fails_plain (fails_range (hsort (by simp)))
  case h_12 => exact fails_plain (Fails.bind fun _ => rfl)
  case h_13 => exact fails_plain (Fails.bind fun _ => rfl)
  case h_14 => exact fails_plain (Fails.bind fun _ => rfl)
  case h_15 => exact fails_plain fails_list_literal.bind
  case h_16 =>
    split
    case isFalse => exact fails_failure
    case isTrue hf =>
      obtain ⟨hdata, hann⟩ := hquiet hf
      exact fails_plain (fails_assertion_literal hdata hann)

end Source

end Ontograph
