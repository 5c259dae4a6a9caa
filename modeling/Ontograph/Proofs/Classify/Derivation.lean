import Mathlib.Logic.Relation
import Ontograph.Classify.Search

/-!
# Derivable categories

What the rules of evidence say about a node, apart from any search.  A question may be *ruled out*
by what the node is; if it is not, it may be *evident*, or it *consults* other questions, one for
each triple that could make the node be of the category.  A category is *derivable* if a chain of
consulted questions ends in an evident one.

`TripleSet.Consults` lists the rules as facts about membership of triples.  The list of leads that
a search follows says the same (`TripleSet.ask_mem_leads_iff`), in some order and with repetitions,
which is why nothing below depends on that order.
-/

namespace Ontograph

/-- The sort of things that the values of an object or data property are: classes describe the
values of object properties, datatypes those of data properties. -/
inductive Category.Describes : Category → Category → Prop
  | object : Describes .owlClass .objectProperty
  | data : Describes .datatype .dataProperty

namespace TripleSet

variable (S : TripleSet)

/-! ## The rules -/

/-- A predicate relates two nodes, in one direction or the other. -/
def Links (p : Iri) (n m : Node) : Prop := ⟨n, p, m⟩ ∈ S ∨ ⟨m, p, n⟩ ∈ S

/-- A quantified restriction has a filler. -/
def Fills (r : Node) (x : Term) : Prop := ∃ q : Quantifier, ⟨r, q.predicate, x⟩ ∈ S

/-- The predicates that relate properties of one sort. -/
def kinPredicates : List Iri :=
  [.rdfs .subPropertyOf, .owl .equivalentProperty, .owl .propertyDisjointWith]

/-- A question consults another one: a rule of evidence makes the first true if the second is. -/
inductive Consults : Question → Question → Prop
  | operandClass {n m : Node} {j : Junction} {head : Term}
      (hn : ⟨n, .rdf .type, (.iri (.rdfs .Datatype) : Node)⟩ ∉ S)
      (hj : ⟨n, j.predicate, head⟩ ∈ S) (hm : .node m ∈ S.items head) :
      Consults ⟨.owlClass, n⟩ ⟨.owlClass, m⟩
  | operandRange {n m : Node} {j : Junction} {head : Term}
      (hn : ⟨n, .rdf .type, (.iri (.owl .Class) : Node)⟩ ∉ S)
      (hj : ⟨n, j.predicate, head⟩ ∈ S) (hm : .node m ∈ S.items head) :
      Consults ⟨.datatype, n⟩ ⟨.datatype, m⟩
  | equivalent {c d : Category} {n m : Node} (hc : c.Describes d)
      (h : S.Links (.owl .equivalentClass) n m) : Consults ⟨c, n⟩ ⟨c, m⟩
  | domainOf {c d : Category} {n p : Node} (hc : c.Describes d)
      (h : ⟨p, .rdfs .domain, n⟩ ∈ S) : Consults ⟨.owlClass, n⟩ ⟨d, p⟩
  | rangeOf {c d : Category} {n p : Node} (hc : c.Describes d)
      (h : ⟨p, .rdfs .range, n⟩ ∈ S) : Consults ⟨c, n⟩ ⟨d, p⟩
  | fillsClass {n r : Node} {p : Iri} (hr : S.Fills r n)
      (hp : ⟨r, .owl .onProperty, (.iri p : Node)⟩ ∈ S) :
      Consults ⟨.owlClass, n⟩ ⟨.objectProperty, p⟩
  | fillsRange {n r p : Node} (hr : S.Fills r n) (hp : ⟨r, .owl .onProperty, p⟩ ∈ S) :
      Consults ⟨.datatype, n⟩ ⟨.dataProperty, p⟩
  | kin {c d : Category} {n m : Node} {p : Iri} (hc : c.Describes d) (hp : p ∈ kinPredicates)
      (h : S.Links p n m) : Consults ⟨d, n⟩ ⟨d, m⟩
  | sibling {c d : Category} {n m : Node} {t : Triple} {head : Term} (hc : c.Describes d)
      (ht : t ∈ S.listLinks n) (hp : t.predicate = .owl .members)
      (hg : ⟨t.subject, .rdf .type, (.iri (.owl .AllDisjointProperties) : Node)⟩ ∈ S)
      (hh : ⟨t.subject, .owl .members, head⟩ ∈ S) (hm : .node m ∈ S.items head) (hne : m ≠ n) :
      Consults ⟨d, n⟩ ⟨d, m⟩
  | range {c d : Category} {n m : Node} (hc : c.Describes d)
      (h : ⟨n, .rdfs .range, m⟩ ∈ S) : Consults ⟨d, n⟩ ⟨c, m⟩
  | filler {c d : Category} {n m r : Node} (hc : c.Describes d)
      (hp : ⟨r, .owl .onProperty, n⟩ ∈ S) (hr : S.Fills r m) : Consults ⟨d, n⟩ ⟨c, m⟩
  | subProperty {n m : Node} (h : S.Links (.rdfs .subPropertyOf) n m) :
      Consults ⟨.annotationProperty, n⟩ ⟨.annotationProperty, m⟩
  | assertsNode {n m : Node} {p : Iri} (h : ⟨n, p, m⟩ ∈ S) (hp : p.isReserved = false) :
      Consults ⟨.individual, n⟩ ⟨.objectProperty, p⟩
  | assertsLiteral {n : Node} {l : Literal} {p : Iri} (h : ⟨n, p, l⟩ ∈ S)
      (hp : p.isReserved = false) : Consults ⟨.individual, n⟩ ⟨.dataProperty, p⟩
  | valueOf {n m : Node} {p : Iri} (h : ⟨m, p, n⟩ ∈ S) (hp : p.isReserved = false) :
      Consults ⟨.individual, n⟩ ⟨.objectProperty, p⟩

/-- What the node is rules the question out: it is a reserved IRI of another kind, a property
declared of another sort only, or a blank node where an annotation property is asked for. -/
def RuledOut (q : Question) : Prop :=
  q.node.isBuiltin q.category = false ∧
    (q.node.isReserved = true ∨
      match q.category with
      | .objectProperty => S.isTypedObjectProperty q.node = false ∧
          S.isDeclaredOtherwise q.node (.owl .ObjectProperty) = true
      | .dataProperty => S.hasType q.node (.owl .DatatypeProperty) = false ∧
          S.isDeclaredOtherwise q.node (.owl .DatatypeProperty) = true
      | .annotationProperty => q.node.isBlank = true ∨
          S.hasType q.node (.owl .AnnotationProperty) = false ∧
            S.isDeclaredOtherwise q.node (.owl .AnnotationProperty) = true
      | .owlClass | .datatype | .individual => False)

/-- The types of the node, or the triples around it, make it be of the category. -/
def Shows (q : Question) : Prop :=
  match q.category with
  | .owlClass => S.looksLikeClass q.node = true
  | .objectProperty => S.isTypedObjectProperty q.node = true ∨
      S.looksLikeObjectProperty q.node = true
  | .dataProperty => S.hasType q.node (.owl .DatatypeProperty) = true ∨
      S.looksLikeDataProperty q.node = true
  | .annotationProperty => S.hasType q.node (.owl .AnnotationProperty) = true ∨
      ∃ i, q.node = .iri i ∧ S.looksLikeAnnotationProperty i = true
  | .datatype => S.looksLikeDatatype q.node = true
  | .individual => S.looksLikeIndividual q.node = true

/-- The node fills a restriction on the inverse of a property. -/
def FillsInverse (n : Node) : Prop :=
  ∃ r b, S.Fills r n ∧ ⟨r, .owl .onProperty, (.blank b : Node)⟩ ∈ S

/-- The question needs no other one: the node is built in; or the question is not ruled out, and
the triples around the node show its category, or it asks for a class and the node fills a
restriction on a blank property. -/
def Evident (q : Question) : Prop :=
  q.node.isBuiltin q.category = true ∨
    ¬ S.RuledOut q ∧ (S.Shows q ∨ q.category = .owlClass ∧ S.FillsInverse q.node)

/-- A question that is not ruled out consults another one. -/
def Pursues (q r : Question) : Prop := ¬ S.RuledOut q ∧ S.Consults q r

/-- A chain of consulted questions ends in an evident one. -/
def Derivable (q : Question) : Prop := ∃ r, Relation.ReflTransGen S.Pursues q r ∧ S.Evident r

variable {S}

/-- What is evident is derivable. -/
theorem Evident.derivable {q : Question} (h : S.Evident q) : S.Derivable q :=
  ⟨q, .refl, h⟩

/-- A question is derivable if one that it consults is. -/
theorem Pursues.derivable {q r : Question} (h : S.Pursues q r) (hr : S.Derivable r) :
    S.Derivable q := by
  obtain ⟨e, hre, he⟩ := hr
  exact ⟨e, .head h hre, he⟩

/-- A question is settled with no exactly if it is ruled out. -/
theorem settled?_eq_false_iff {q : Question} : S.settled? q = some false ↔ S.RuledOut q := by
  obtain ⟨c, n⟩ := q
  unfold RuledOut settled? settled?.confirmed
  cases hb : n.isBuiltin c
  · cases hr : n.isReserved
    · cases c <;> cases n <;> simp [hb, hr, Node.isBlank, -hasType_iff] <;> grind
    · simp [hb, hr]
  · simp [hb]

/-- A question is settled with yes exactly if the node is built in, or nothing rules the question
out and the triples around the node show its category. -/
theorem settled?_eq_true_iff {q : Question} : S.settled? q = some true ↔
    q.node.isBuiltin q.category = true ∨ ¬ S.RuledOut q ∧ S.Shows q := by
  obtain ⟨c, n⟩ := q
  unfold RuledOut Shows settled? settled?.confirmed
  cases hb : n.isBuiltin c
  · cases hr : n.isReserved
    · cases c <;> cases n <;> simp [hb, hr, Node.isBlank, -hasType_iff] <;> grind
    · simp [hb, hr]
  · simp [hb]

/-! ## The leads of a question -/

variable {c d : Category} {n m : Node} {p : Iri} {x : Term} {q r : Question}

/-- About a node its question is asked; about a literal there is none. -/
@[simp] theorem ask_mem_about : Lead.ask r ∈ Lead.about c x ↔ ∃ m, x = .node m ∧ r = ⟨c, m⟩ := by
  cases x <;> simp [Lead.about]

/-- Asking about a term is no certainty. -/
@[simp] theorem certain_notMem_about : Lead.certain ∉ Lead.about c x := by
  cases x <;> simp [Lead.about]

/-- The neighbours by a predicate are the nodes it links, in either direction. -/
@[simp] theorem node_mem_neighbours : .node m ∈ S.neighbours n p ↔ S.Links p n m := by
  simp [neighbours, Links]

/-- The predicates of quantified restrictions and of combinations, one by one. -/
theorem exists_quantifier {P : Iri → Prop} :
    (∃ q : Quantifier, P q.predicate) ↔ P (.owl .someValuesFrom) ∨ P (.owl .allValuesFrom) := by
  constructor
  · rintro ⟨q, h⟩
    cases q
    · exact Or.inl h
    · exact Or.inr h
  · rintro (h | h)
    · exact ⟨.some, h⟩
    · exact ⟨.all, h⟩

/-- A junction is a union or an intersection. -/
theorem exists_junction {P : Iri → Prop} :
    (∃ j : Junction, P j.predicate) ↔ P (.owl .unionOf) ∨ P (.owl .intersectionOf) := by
  constructor
  · rintro ⟨j, h⟩
    cases j
    · exact Or.inr h
    · exact Or.inl h
  · rintro (h | h)
    · exact ⟨.union, h⟩
    · exact ⟨.intersection, h⟩

/-- The restrictions filled by a node are the subjects of its quantifiers. -/
@[simp] theorem mem_restrictionsFilledBy {r : Node} :
    r ∈ S.restrictionsFilledBy n ↔ S.Fills r n := by
  simp only [restrictionsFilledBy, Fills, List.mem_flatMap, mem_subjects]
  rw [exists_quantifier (P := fun p => ⟨r, p, n⟩ ∈ S)]
  simp

/-- The operands of a node are asked for the same category. -/
theorem ask_mem_operandLeads : Lead.ask r ∈ S.operandLeads c n ↔
    ∃ (j : Junction) (head : Term) (m : Node),
      ⟨n, j.predicate, head⟩ ∈ S ∧ .node m ∈ S.items head ∧ r = ⟨c, m⟩ := by
  have hone : ∀ p, (Lead.ask r ∈ (S.objects n p).flatMap fun head =>
      (S.items head).flatMap (Lead.about c)) ↔ ∃ (head : Term) (m : Node),
        ⟨n, p, head⟩ ∈ S ∧ .node m ∈ S.items head ∧ r = ⟨c, m⟩ := by
    intro p
    simp only [List.mem_flatMap, mem_objects, ask_mem_about]
    constructor
    · rintro ⟨head, hhead, x, hx, m, rfl, hr⟩
      exact ⟨head, m, hhead, hx, hr⟩
    · rintro ⟨head, m, hhead, hm, hr⟩
      exact ⟨head, hhead, .node m, hm, m, rfl, hr⟩
  rw [exists_junction (P := fun p => ∃ (head : Term) (m : Node),
    ⟨n, p, head⟩ ∈ S ∧ .node m ∈ S.items head ∧ r = ⟨c, m⟩), ← hone, ← hone]
  unfold operandLeads
  rw [List.flatMap_cons, List.flatMap_cons, List.flatMap_nil, List.append_nil, List.mem_append]

/-- The leads about the neighbours of a node, in the direction of the predicate or against it. -/
theorem ask_mem_flatMap_neighbours :
    (Lead.ask r ∈ (S.neighbours n p).flatMap (Lead.about c)) ↔
    ∃ m, S.Links p n m ∧ r = ⟨c, m⟩ := by
  simp only [List.mem_flatMap, ask_mem_about]
  constructor
  · rintro ⟨_, hx, m, rfl, rfl⟩
    exact ⟨m, node_mem_neighbours.1 hx, rfl⟩
  · rintro ⟨m, h, rfl⟩
    exact ⟨_, node_mem_neighbours.2 h, m, rfl, rfl⟩

/-- Equivalent nodes are asked for the same category. -/
theorem ask_mem_equivalentLeads : Lead.ask r ∈ S.equivalentLeads c n ↔
    ∃ m, S.Links (.owl .equivalentClass) n m ∧ r = ⟨c, m⟩ :=
  ask_mem_flatMap_neighbours

/-- A node that fills a restriction asks whether the property with a name is an object property. -/
theorem ask_mem_restrictedObjectLeads : Lead.ask r ∈ S.restrictedObjectLeads n ↔
    ∃ (t : Node) (p : Iri), S.Fills t n ∧ ⟨t, .owl .onProperty, (.iri p : Node)⟩ ∈ S ∧
      r = ⟨.objectProperty, p⟩ := by
  simp only [restrictedObjectLeads, List.mem_flatMap, mem_restrictionsFilledBy, mem_objects]
  constructor
  · rintro ⟨t, ht, o, ho, h⟩
    cases o with
    | literal l => simp [Term.isBlank, Lead.about] at h
    | node m =>
      cases m with
      | blank b => simp [Term.isBlank, Node.isBlank] at h
      | iri p =>
        simp only [Term.isBlank, Node.isBlank, Bool.false_eq_true, if_false, ask_mem_about] at h
        obtain ⟨m, hm, rfl⟩ := h
        cases hm
        exact ⟨t, p, ht, ho, rfl⟩
  · rintro ⟨t, p, ht, hp, rfl⟩
    exact ⟨t, ht, _, hp, by simp [Term.isBlank, Node.isBlank]⟩

/-- It is certain that a node that fills a restriction on a blank property is a class. -/
theorem certain_mem_restrictedObjectLeads :
    Lead.certain ∈ S.restrictedObjectLeads n ↔ S.FillsInverse n := by
  simp only [restrictedObjectLeads, List.mem_flatMap, mem_restrictionsFilledBy, mem_objects]
  constructor
  · rintro ⟨t, ht, o, ho, h⟩
    cases o with
    | literal l => simp [Term.isBlank, Lead.about] at h
    | node m =>
      cases m with
      | iri p => simp [Term.isBlank, Node.isBlank] at h
      | blank b => exact ⟨t, b, ht, ho⟩
  · rintro ⟨t, b, ht, hb⟩
    exact ⟨t, ht, _, hb, by simp [Term.isBlank, Node.isBlank]⟩

/-- A node that fills a restriction asks whether its property is a data property. -/
theorem ask_mem_restrictedDataLeads : Lead.ask r ∈ S.restrictedDataLeads n ↔
    ∃ t p : Node, S.Fills t n ∧ ⟨t, .owl .onProperty, p⟩ ∈ S ∧ r = ⟨.dataProperty, p⟩ := by
  simp only [restrictedDataLeads, List.mem_flatMap, mem_restrictionsFilledBy, mem_objects,
    ask_mem_about]
  constructor
  · rintro ⟨t, ht, _, hp, p, rfl, rfl⟩
    exact ⟨t, p, ht, hp, rfl⟩
  · rintro ⟨t, p, ht, hp, rfl⟩
    exact ⟨t, ht, _, hp, p, rfl, rfl⟩

/-- A property asks the properties it is related to: by a predicate between properties, or as
another member of a group of disjoint ones. -/
theorem ask_mem_relatedPropertyLeads : Lead.ask r ∈ S.relatedPropertyLeads c n ↔
    (∃ p ∈ kinPredicates, ∃ m, S.Links p n m ∧ r = ⟨c, m⟩) ∨
    ∃ t ∈ S.listLinks n, t.predicate = .owl .members ∧
      ⟨t.subject, .rdf .type, (.iri (.owl .AllDisjointProperties) : Node)⟩ ∈ S ∧
      ∃ head m, ⟨t.subject, .owl .members, head⟩ ∈ S ∧ .node m ∈ S.items head ∧ m ≠ n ∧
        r = ⟨c, m⟩ := by
  rw [relatedPropertyLeads, List.mem_append]
  refine or_congr ?_ ?_
  · rw [List.mem_flatMap]
    exact exists_congr fun p => and_congr_right fun _ => ask_mem_flatMap_neighbours
  · simp only [List.mem_flatMap]
    refine exists_congr fun t => and_congr_right fun _ => ?_
    split
    case isTrue h =>
      simp only [Bool.and_eq_true, beq_iff_eq, hasType_iff] at h
      simp only [h, true_and, List.mem_flatMap, mem_objects, List.mem_filter, ask_mem_about,
        bne_iff_ne]
      constructor
      · rintro ⟨head, hh, _, ⟨hm, hne⟩, m, rfl, rfl⟩
        exact ⟨head, m, hh, hm, fun e => hne (e ▸ rfl), rfl⟩
      · rintro ⟨head, m, hh, hm, hne, rfl⟩
        exact ⟨head, hh, _, ⟨hm, fun e => hne (by simpa using e)⟩, m, rfl, rfl⟩
    case isFalse h =>
      simp only [Bool.and_eq_true, beq_iff_eq, hasType_iff] at h
      simp only [List.not_mem_nil, false_iff]
      rintro ⟨hp, hg, -⟩
      exact h ⟨hp, hg⟩

/-- A property asks what sort of things its range is. -/
theorem ask_mem_rangeLeads : Lead.ask r ∈ S.rangeLeads c n ↔
    ∃ m : Node, ⟨n, .rdfs .range, m⟩ ∈ S ∧ r = ⟨c, m⟩ := by
  simp only [rangeLeads, List.mem_flatMap, mem_objects, ask_mem_about]
  constructor
  · rintro ⟨_, h, m, rfl, rfl⟩
    exact ⟨m, h, rfl⟩
  · rintro ⟨m, h, rfl⟩
    exact ⟨_, h, m, rfl, rfl⟩

/-- A property asks what sort of things fill the restrictions on it. -/
theorem ask_mem_fillerLeads : Lead.ask r ∈ S.fillerLeads c n ↔
    ∃ t m : Node, ⟨t, .owl .onProperty, n⟩ ∈ S ∧ S.Fills t m ∧ r = ⟨c, m⟩ := by
  simp only [fillerLeads, List.mem_flatMap, mem_subjects, mem_objects, ask_mem_about]
  constructor
  · rintro ⟨t, ht, p, hp, _, hm, m, rfl, rfl⟩
    refine ⟨t, m, ht, ?_, rfl⟩
    simp only [List.mem_cons, List.not_mem_nil, or_false] at hp
    rcases hp with rfl | rfl
    · exact ⟨.some, hm⟩
    · exact ⟨.all, hm⟩
  · rintro ⟨t, m, ht, ⟨q, hq⟩, rfl⟩
    exact ⟨t, ht, q.predicate, by cases q <;> simp [Quantifier.predicate], _, hq, m, rfl, rfl⟩

/-- A node asks whether the predicates of the triples with it in them, or with a value of it, are
properties that make it an individual. -/
theorem ask_mem_assertionLeads : Lead.ask r ∈ S.assertionLeads n ↔
    ∃ p : Iri, p.isReserved = false ∧
      ((∃ m : Node, ⟨n, p, m⟩ ∈ S ∧ r = ⟨.objectProperty, p⟩) ∨
      (∃ l : Literal, ⟨n, p, l⟩ ∈ S ∧ r = ⟨.dataProperty, p⟩) ∨
      ∃ m : Node, ⟨m, p, n⟩ ∈ S ∧ r = ⟨.objectProperty, p⟩) := by
  simp only [assertionLeads, List.mem_append, List.mem_map, List.mem_filter, mem_outgoing,
    mem_incoming, Bool.not_eq_true', Lead.ask.injEq]
  constructor
  · rintro (⟨⟨s, p, o⟩, ⟨⟨h, rfl⟩, hp⟩, rfl⟩ | ⟨⟨s, p, o⟩, ⟨⟨h, rfl⟩, hp⟩, rfl⟩)
    · cases o with
      | node m => exact ⟨p, hp, .inl ⟨m, h, rfl⟩⟩
      | literal l => exact ⟨p, hp, .inr (.inl ⟨l, h, rfl⟩)⟩
    · exact ⟨p, hp, .inr (.inr ⟨s, h, rfl⟩)⟩
  · rintro ⟨p, hp, ⟨m, h, rfl⟩ | ⟨l, h, rfl⟩ | ⟨m, h, rfl⟩⟩
    · exact .inl ⟨_, ⟨⟨h, rfl⟩, hp⟩, rfl⟩
    · exact .inl ⟨_, ⟨⟨h, rfl⟩, hp⟩, rfl⟩
    · exact .inr ⟨_, ⟨⟨h, rfl⟩, hp⟩, rfl⟩

/-- The leads to the domain of a property come in pairs, one for each sort of property. -/
theorem ask_mem_domainLeads :
    (Lead.ask r ∈ (S.subjects (.rdfs .domain) n).flatMap fun p =>
      [Lead.ask ⟨.objectProperty, p⟩, .ask ⟨.dataProperty, p⟩]) ↔
    ∃ p : Node, ⟨p, .rdfs .domain, n⟩ ∈ S ∧ ∃ c d : Category, c.Describes d ∧ r = ⟨d, p⟩ := by
  simp only [List.mem_flatMap, mem_subjects, List.mem_cons, Lead.ask.injEq, List.not_mem_nil,
    or_false]
  refine exists_congr fun p => and_congr_right fun _ => ?_
  constructor
  · rintro (rfl | rfl)
    · exact ⟨_, _, .object, rfl⟩
    · exact ⟨_, _, .data, rfl⟩
  · rintro ⟨_, _, h, rfl⟩
    cases h
    · exact Or.inl rfl
    · exact Or.inr rfl

/-- Leads that a test suppresses are followed if the test fails. -/
theorem ask_mem_ite {b : Bool} {ls : List Lead} :
    Lead.ask r ∈ (if b then [] else ls) ↔ b = false ∧ Lead.ask r ∈ ls := by
  cases b <;> simp

/-- Every lead of a question is one of the rules. -/
theorem consults_of_ask_mem_leads (h : Lead.ask r ∈ S.leads q) : S.Consults q r := by
  obtain ⟨c, n⟩ := q
  cases c with
  | owlClass =>
    simp only [leads, List.mem_append, ask_mem_ite, ask_mem_operandLeads, ask_mem_equivalentLeads,
      ask_mem_domainLeads, ask_mem_restrictedObjectLeads] at h
    rcases h with (((⟨hn, j, head, m, hj, hm, rfl⟩ | ⟨m, hm, rfl⟩) | ⟨p, hp, _, _, hd, rfl⟩) |
      hr) | ⟨t, p, ht, hp, rfl⟩
    · exact .operandClass (fun e => by simp [hasType_iff.2 e] at hn) hj hm
    · exact .equivalent .object hm
    · exact .domainOf hd hp
    · obtain ⟨p, hp, he⟩ := List.mem_map.1 hr
      cases he
      exact .rangeOf .object (mem_subjects.1 hp)
    · exact .fillsClass ht hp
  | objectProperty =>
    simp only [leads, List.mem_append, ask_mem_relatedPropertyLeads, ask_mem_rangeLeads,
      ask_mem_fillerLeads] at h
    rcases h with ((⟨p, hp, m, hm, rfl⟩ | ⟨t, ht, hp, hg, head, m, hh, hm, hne, rfl⟩) |
      ⟨m, hm, rfl⟩) | ⟨t, m, ht, hm, rfl⟩
    · exact .kin .object hp hm
    · exact .sibling .object ht hp hg hh hm hne
    · exact .range .object hm
    · exact .filler .object ht hm
  | dataProperty =>
    simp only [leads, List.mem_append, ask_mem_relatedPropertyLeads, ask_mem_rangeLeads,
      ask_mem_fillerLeads] at h
    rcases h with ((⟨p, hp, m, hm, rfl⟩ | ⟨t, ht, hp, hg, head, m, hh, hm, hne, rfl⟩) |
      ⟨m, hm, rfl⟩) | ⟨t, m, ht, hm, rfl⟩
    · exact .kin .data hp hm
    · exact .sibling .data ht hp hg hh hm hne
    · exact .range .data hm
    · exact .filler .data ht hm
  | annotationProperty =>
    obtain ⟨m, hm, rfl⟩ := ask_mem_flatMap_neighbours.1 h
    exact .subProperty hm
  | datatype =>
    simp only [leads, List.mem_append, ask_mem_ite, ask_mem_operandLeads, ask_mem_equivalentLeads,
      ask_mem_restrictedDataLeads] at h
    rcases h with ((⟨hn, j, head, m, hj, hm, rfl⟩ | ⟨m, hm, rfl⟩) | hr) | ⟨t, p, ht, hp, rfl⟩
    · exact .operandRange (fun e => by simp [hasType_iff.2 e] at hn) hj hm
    · exact .equivalent .data hm
    · obtain ⟨p, hp, he⟩ := List.mem_map.1 hr
      cases he
      exact .rangeOf .data (mem_subjects.1 hp)
    · exact .fillsRange ht hp
  | individual =>
    obtain ⟨p, hp, ⟨m, hm, rfl⟩ | ⟨l, hl, rfl⟩ | ⟨m, hm, rfl⟩⟩ := ask_mem_assertionLeads.1 h
    · exact .assertsNode hm hp
    · exact .assertsLiteral hl hp
    · exact .valueOf hm hp

/-- Every rule is among the leads. -/
theorem ask_mem_leads_of_consults (h : S.Consults q r) : Lead.ask r ∈ S.leads q := by
  cases h with
  | operandClass hn hj hm =>
    simp only [leads, List.mem_append, ask_mem_ite, ask_mem_operandLeads]
    exact .inl (.inl (.inl (.inl ⟨by simpa [← Bool.not_eq_true] using hn, _, _, _, hj, hm, rfl⟩)))
  | operandRange hn hj hm =>
    simp only [leads, List.mem_append, ask_mem_ite, ask_mem_operandLeads]
    exact .inl (.inl (.inl ⟨by simpa [← Bool.not_eq_true] using hn, _, _, _, hj, hm, rfl⟩))
  | equivalent hc hm =>
    cases hc
    · simp only [leads, List.mem_append, ask_mem_equivalentLeads]
      exact .inl (.inl (.inl (.inr ⟨_, hm, rfl⟩)))
    · simp only [leads, List.mem_append, ask_mem_equivalentLeads]
      exact .inl (.inl (.inr ⟨_, hm, rfl⟩))
  | domainOf hc hp =>
    simp only [leads, List.mem_append, ask_mem_domainLeads]
    exact .inl (.inl (.inr ⟨_, hp, _, _, hc, rfl⟩))
  | rangeOf hc hp =>
    cases hc
    · simp only [leads, List.mem_append]
      exact .inl (.inr (List.mem_map.2 ⟨_, mem_subjects.2 hp, rfl⟩))
    · simp only [leads, List.mem_append]
      exact .inl (.inr (List.mem_map.2 ⟨_, mem_subjects.2 hp, rfl⟩))
  | fillsClass ht hp =>
    simp only [leads, List.mem_append, ask_mem_restrictedObjectLeads]
    exact .inr ⟨_, _, ht, hp, rfl⟩
  | fillsRange ht hp =>
    simp only [leads, List.mem_append, ask_mem_restrictedDataLeads]
    exact .inr ⟨_, _, ht, hp, rfl⟩
  | kin hc hp hm =>
    cases hc <;> simp only [leads, List.mem_append, ask_mem_relatedPropertyLeads] <;>
      exact .inl (.inl (.inl ⟨_, hp, _, hm, rfl⟩))
  | sibling hc ht hp hg hh hm hne =>
    cases hc <;> simp only [leads, List.mem_append, ask_mem_relatedPropertyLeads] <;>
      exact .inl (.inl (.inr ⟨_, ht, hp, hg, _, _, hh, hm, hne, rfl⟩))
  | range hc hm =>
    cases hc <;> simp only [leads, List.mem_append, ask_mem_rangeLeads] <;>
      exact .inl (.inr ⟨_, hm, rfl⟩)
  | filler hc ht hm =>
    cases hc <;> simp only [leads, List.mem_append, ask_mem_fillerLeads] <;>
      exact .inr ⟨_, _, ht, hm, rfl⟩
  | subProperty hm => exact ask_mem_flatMap_neighbours.2 ⟨_, hm, rfl⟩
  | assertsNode hm hp => exact ask_mem_assertionLeads.2 ⟨_, hp, .inl ⟨_, hm, rfl⟩⟩
  | assertsLiteral hl hp => exact ask_mem_assertionLeads.2 ⟨_, hp, .inr (.inl ⟨_, hl, rfl⟩)⟩
  | valueOf hm hp => exact ask_mem_assertionLeads.2 ⟨_, hp, .inr (.inr ⟨_, hm, rfl⟩)⟩

/-- The questions that a search follows from a question are those that it consults. -/
theorem ask_mem_leads_iff : Lead.ask r ∈ S.leads q ↔ S.Consults q r :=
  ⟨consults_of_ask_mem_leads, ask_mem_leads_of_consults⟩

/-- A lead is certain if the node of a class question fills a restriction on a blank property, and
in no other case. -/
theorem certain_mem_leads_iff :
    Lead.certain ∈ S.leads q ↔ q.category = .owlClass ∧ S.FillsInverse q.node := by
  obtain ⟨c, n⟩ := q
  have hoperand : ∀ c, Lead.certain ∉ S.operandLeads c n := by
    intro c h
    simp only [operandLeads, List.mem_flatMap] at h
    obtain ⟨_, _, _, _, _, _, h⟩ := h
    exact certain_notMem_about h
  have hequivalent : ∀ c, Lead.certain ∉ S.equivalentLeads c n := by
    intro c h
    obtain ⟨_, _, h⟩ := List.mem_flatMap.1 h
    exact certain_notMem_about h
  have hrelated : ∀ c, Lead.certain ∉ S.relatedPropertyLeads c n := by
    intro c h
    rcases List.mem_append.1 h with h | h
    · simp only [List.mem_flatMap] at h
      obtain ⟨_, _, _, _, h⟩ := h
      exact certain_notMem_about h
    · obtain ⟨_, _, h⟩ := List.mem_flatMap.1 h
      split at h
      · simp only [List.mem_flatMap] at h
        obtain ⟨_, _, _, _, h⟩ := h
        exact certain_notMem_about h
      · cases h
  cases c <;>
    simp [leads, hoperand, hequivalent, hrelated, certain_mem_restrictedObjectLeads, rangeLeads,
      fillerLeads, restrictedDataLeads, assertionLeads]

end TripleSet

end Ontograph
