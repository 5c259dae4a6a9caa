import Ontograph.Classify.Locality
import Ontograph.Proofs.Classify.OrderIndependence
import Ontograph.Proofs.Graph.Locality

/-!
# Edits change few categories

An edit is evidence for few questions, and they are listed (`TripleSet.touched?`).  Any other
question is *spared* (`TripleSet.Spares`): none of the edited triples is among those that are looked
up for it.  Which these are is said in tables for each category: the predicates of triples with the
node as their subject, or as their object, and of triples that share a subject with one of these.
Each triple in the tables marks the question, so a question that is not listed is spared
(`TripleSet.spares_of_reported`).

A spared question is settled before the edit as it is after it, and consults the same questions
(`TripleSet.Spares.settled?`, `TripleSet.Spares.consults`).  So the answers to spared questions stay
the same, unless one of them leads to a question that is listed and whose answer changed.  Whether a
question is one that others lead to is seen from the triples around it
(`TripleSet.isDependedOn_of_consults`).
-/

namespace Ontograph

/-! ## What a triple may be evidence for -/

namespace Category

/-- The predicates whose triples say something about whether their subject is of the category. -/
def subjectPredicates : Category → List Iri
  | .owlClass =>
    [.rdfs .subClassOf, .owl .disjointWith, .owl .complementOf, .owl .equivalentClass,
      .owl .unionOf, .owl .intersectionOf, .owl .oneOf, .owl .disjointUnionOf, .owl .hasKey,
      .owl .onProperty]
  | .objectProperty =>
    [.owl .inverseOf, .owl .propertyChainAxiom, .rdfs .subPropertyOf, .owl .equivalentProperty,
      .owl .propertyDisjointWith, .rdfs .range]
  | .dataProperty =>
    [.rdfs .subPropertyOf, .owl .equivalentProperty, .owl .propertyDisjointWith, .rdfs .range]
  | .annotationProperty => [.rdfs .subPropertyOf]
  | .datatype =>
    [.owl .equivalentClass, .owl .unionOf, .owl .intersectionOf, .owl .oneOf, .owl .onDatatype,
      .owl .datatypeComplementOf, .owl .withRestrictions]
  | .individual => []

/-- The predicates whose triples say something about whether their object is of the category. -/
def objectPredicates : Category → List Iri
  | .owlClass =>
    [.rdf .type, .rdfs .subClassOf, .owl .disjointWith, .owl .complementOf, .owl .equivalentClass,
      .owl .onClass, .rdfs .domain, .rdfs .range, .owl .someValuesFrom, .owl .allValuesFrom]
  | .objectProperty =>
    [.owl .inverseOf, .rdfs .subPropertyOf, .owl .equivalentProperty, .owl .propertyDisjointWith,
      .owl .onProperty, .owl .assertionProperty]
  | .dataProperty =>
    [.rdfs .subPropertyOf, .owl .equivalentProperty, .owl .propertyDisjointWith, .owl .onProperty,
      .owl .assertionProperty]
  | .annotationProperty => [.rdfs .subPropertyOf]
  | .datatype =>
    [.owl .equivalentClass, .rdfs .range, .owl .someValuesFrom, .owl .allValuesFrom,
      .owl .onDatatype, .owl .datatypeComplementOf, .owl .onDataRange]
  | .individual => individualPredicates

/-- The pairs of predicates that lead from a node to a triple that says something about whether the
node is of the category: the node is the object of the first one, and the subject is that of a
triple with the second one. -/
def sharedPredicates : Category → List (Iri × Iri)
  | .owlClass | .datatype =>
    [(.owl .someValuesFrom, .owl .onProperty), (.owl .allValuesFrom, .owl .onProperty)]
  | .objectProperty =>
    [(.owl .onProperty, .owl .hasSelf), (.owl .onProperty, .owl .onClass),
      (.owl .onProperty, .owl .hasValue), (.owl .onProperty, .owl .someValuesFrom),
      (.owl .onProperty, .owl .allValuesFrom), (.owl .assertionProperty, .owl .targetIndividual)]
  | .dataProperty =>
    [(.owl .onProperty, .owl .onDataRange), (.owl .onProperty, .owl .hasValue),
      (.owl .onProperty, .owl .someValuesFrom), (.owl .onProperty, .owl .allValuesFrom),
      (.owl .assertionProperty, .owl .targetValue)]
  | .annotationProperty | .individual => []

/-- The types of a node that say something about whether it is of the category. -/
def types : Category → List Iri
  | .owlClass | .datatype => rangeTypes
  | .objectProperty | .dataProperty | .annotationProperty => propertyMarks
  | .individual => []

end Category

namespace Question

/-- The questions about a term are those of its categories about that node. -/
theorem mem_about {cs : List Category} {x : Term} {q : Question} :
    q ∈ about cs x ↔ q.category ∈ cs ∧ x = .node q.node := by
  obtain ⟨c, n⟩ := q
  cases x with
  | literal l => simp [about]
  | node m => simp [about, eq_comm]

/-- The questions about some terms are those of the categories about one of them. -/
theorem mem_aboutAll {cs : List Category} {xs : List Term} {q : Question} :
    q ∈ aboutAll cs xs ↔ q.category ∈ cs ∧ .node q.node ∈ xs := by
  simp only [aboutAll, List.mem_flatMap, mem_about]
  constructor
  · rintro ⟨x, hx, hc, rfl⟩
    exact ⟨hc, hx⟩
  · rintro ⟨hc, hx⟩
    exact ⟨_, hx, hc, rfl⟩

end Question

namespace TripleSet

open Question

variable {S T around : TripleSet} {ts : List Triple} {qs marked : List Question} {c : Category}
  {n s : Node} {p : Iri} {o : Term} {limit : Nat} {t : Triple}

/-- A type is evidence for a class. -/
theorem mem_of_touchedByType (h : around.touchedByType s (.node n) = some marked) :
    ⟨.owlClass, n⟩ ∈ marked := by
  have hclass : ⟨.owlClass, n⟩ ∈ about [.owlClass] (.node n) := mem_about.2 ⟨by simp, rfl⟩
  cases n with
  | blank b =>
    cases h
    exact hclass
  | iri i =>
    rw [touchedByType] at h
    split at h
    · cases h
    split at h
    · cases h
      exact List.mem_append_left _ hclass
    split at h
    · cases h
      exact List.mem_append_left _ hclass
    split at h
    · cases h
      exact List.mem_append_left _ hclass
    · cases h
      exact hclass

/-- A typing with a type that matters for the category touches the question. -/
theorem mem_of_types : ∀ a ∈ c.types, ∀ marked,
    around.touchedByType n (.node (.iri a)) = some marked → ⟨c, n⟩ ∈ marked := by
  cases c <;>
    simp [Category.types, touchedByType, rangeTypes, propertyMarks, groupTypes, propertyTypes,
      Characteristic.objectOnly, Characteristic.type, mem_about, Category.ranges,
      Category.properties]

/-- A typing that makes a node the root of annotations touches the predicates of its triples. -/
theorem mem_of_annotatedTypes (ht : t ∈ around.outgoing s) : ∀ a ∈ annotatedTypes, ∀ marked,
    around.touchedByType s (.node (.iri a)) = some marked →
    ⟨.annotationProperty, t.predicate⟩ ∈ marked := by
  obtain ⟨hmem, hs⟩ := mem_outgoing.1 ht
  simpa [annotatedTypes, touchedByType, groupTypes, rangeTypes, propertyMarks, propertyTypes,
    Characteristic.objectOnly, Characteristic.type, mem_about] using ⟨t, ⟨hmem, hs⟩, rfl⟩

/-- A triple with a predicate that matters for its subject touches the question about it. -/
theorem mem_of_subjectPredicates : ∀ p ∈ c.subjectPredicates, ∀ marked,
    around.touchedByPredicate ⟨n, p, o⟩ = some marked → ⟨c, n⟩ ∈ marked := by
  cases c <;>
    simp [Category.subjectPredicates, touchedByPredicate, mem_about, mem_aboutAll,
      Category.ranges, Category.properties, Category.individualProperties]

/-- A triple with a predicate that matters for its object touches the question about it. -/
theorem mem_of_objectPredicates : ∀ p ∈ c.objectPredicates, ∀ marked,
    around.touchedByPredicate ⟨s, p, n⟩ = some marked → ⟨c, n⟩ ∈ marked := by
  have htype : ∀ marked, around.touchedByType s (.node n) = some marked →
      ⟨.owlClass, n⟩ ∈ marked := fun _ => mem_of_touchedByType
  cases c <;>
    simp [Category.objectPredicates, individualPredicates, touchedByPredicate, mem_about,
      mem_aboutAll, Category.ranges, Category.properties, Category.individualProperties]
  exact htype

/-- A triple about a node that shares its subject with it touches the question about the node. -/
theorem mem_of_sharedPredicates : ∀ l ∈ c.sharedPredicates, ⟨s, l.1, n⟩ ∈ around → ∀ marked,
    around.touchedByPredicate ⟨s, l.2, o⟩ = some marked → ⟨c, n⟩ ∈ marked := by
  cases c <;>
    simp +contextual [Category.sharedPredicates, touchedByPredicate, mem_about, mem_aboutAll,
      Category.ranges, Category.individualProperties]

/-- Tests that agree on lists with the same members pass on both or on neither. -/
theorem any_congr_of_mem_iff {α : Type} {l l' : List α} {f f' : α → Bool}
    (hsame : ∀ a, a ∈ l ↔ a ∈ l') (hf : ∀ a ∈ l, f a = f' a) : l.any f = l'.any f' := by
  rw [← any_eq_of_mem_iff hsame, Bool.eq_iff_iff, List.any_eq_true, List.any_eq_true]
  exact exists_congr fun a => and_congr_right fun ha => by rw [hf a ha]

/-! ## What is listed for an edit -/

/-- The questions that a triple is evidence for are listed. -/
structure Reported (S around : TripleSet) (limit : Nat) (qs : List Question) (t : Triple) :
    Prop where
  subject : ⟨.individual, t.subject⟩ ∈ qs
  object : t.predicate.isReserved = false → ∀ n, t.object = .node n → ⟨.individual, n⟩ ∈ qs
  annotates : around.isAnnotationRoot t.subject = true → ⟨.annotationProperty, t.predicate⟩ ∈ qs
  items : t.predicate ∈ listPredicates →
    ∃ xs, S.readList limit t.object = .ok xs ∧ ∀ c n, .node n ∈ xs → ⟨c, n⟩ ∈ qs
  marks : ∃ marked, around.touchedByPredicate t = some marked ∧ ∀ q ∈ marked, q ∈ qs

/-- What is among the listed questions is among more of them. -/
theorem Reported.mono {qs' : List Question} (h : Reported S around limit qs t)
    (hsub : ∀ q ∈ qs, q ∈ qs') : Reported S around limit qs' t where
  subject := hsub _ h.subject
  object hp n hn := hsub _ (h.object hp n hn)
  annotates hroot := hsub _ (h.annotates hroot)
  items hp := by
    obtain ⟨xs, hxs, hall⟩ := h.items hp
    exact ⟨xs, hxs, fun c n hn => hsub _ (hall c n hn)⟩
  marks := by
    obtain ⟨marked, hmarked, hall⟩ := h.marks
    exact ⟨marked, hmarked, fun q hq => hsub _ (hall q hq)⟩

/-- What the predicate of the triple marks is listed. -/
theorem Reported.mem_of_marks {q : Question} (h : Reported S around limit qs t)
    (hq : ∀ marked, around.touchedByPredicate t = some marked → q ∈ marked) : q ∈ qs := by
  obtain ⟨marked, hmarked, hall⟩ := h.marks
  exact hall q (hq marked hmarked)

/-- The questions that a triple is said to touch are those it is evidence for. -/
theorem reported_of_touchedBy (h : S.touchedBy around limit t = some qs) :
    Reported S around limit qs t := by
  obtain ⟨listed, hlisted, h⟩ := Option.bind_eq_some_iff.1 h
  obtain ⟨marked, hmarked, h⟩ := Option.bind_eq_some_iff.1 h
  cases h
  refine ⟨?_, fun hp n hn => ?_, fun hroot => ?_, fun hp => ?_, marked, hmarked, fun q hq => ?_⟩
  · simp [mem_about]
  · simp [mem_about, hp, hn]
  · simp [hroot]
  · rw [touchedByList, if_pos (List.contains_iff_mem.2 hp)] at hlisted
    obtain ⟨xs, hxs, rfl⟩ := Option.map_eq_some_iff.1 hlisted
    refine ⟨xs, toOption_readList_eq_some_iff.1 hxs, fun c n hn => ?_⟩
    have hitem : ⟨c, n⟩ ∈ aboutAll Category.all xs := mem_aboutAll.2 ⟨c.mem_all, hn⟩
    simp [hitem]
  · simp [hq]

/-- If every element has an image, each image is in the list of them. -/
theorem exists_mem_of_mapM_eq_some {α β : Type} {f : α → Option β} {as : List α} {bs : List β}
    {a : α} (h : as.mapM f = some bs) (ha : a ∈ as) : ∃ b ∈ bs, f a = some b := by
  induction as generalizing bs with
  | nil => cases ha
  | cons a' as ih =>
    rw [List.mapM_cons] at h
    obtain ⟨b, hb, h⟩ := Option.bind_eq_some_iff.1 h
    obtain ⟨bs', hbs, h⟩ := Option.bind_eq_some_iff.1 h
    cases h
    rcases List.mem_cons.1 ha with rfl | ha
    · exact ⟨b, List.mem_cons_self, hb⟩
    · obtain ⟨b', hb', hab⟩ := ih hbs ha
      exact ⟨b', List.mem_cons_of_mem _ hb', hab⟩

/-- The questions that an edit is said to touch are those its triples are evidence for. -/
theorem reported_of_touched? (h : S.touched? limit ts = some qs) (ht : t ∈ ts) :
    Reported S (S.insertMany ts) limit qs t := by
  obtain ⟨qss, hqss, rfl⟩ := Option.map_eq_some_iff.1 h
  obtain ⟨marked, hmem, hmarked⟩ := exists_mem_of_mapM_eq_some hqss ht
  refine (reported_of_touchedBy hmarked).mono fun q hq => ?_
  exact List.mem_eraseDups.2 (List.mem_flatten.2 ⟨marked, hmem, hq⟩)

/-! ## Spared questions -/

/-- A node groups its members in one list. -/
def SingleMembers (S : TripleSet) : Prop :=
  ∀ n x y, ⟨n, .owl .members, x⟩ ∈ S → ⟨n, .owl .members, y⟩ ∈ S → x = y

/-- What the triples of a set are like tells that its nodes group their members in one list. -/
theorem singleMembers_of_forall (hone : ∀ t ∈ S.toList, ∀ u ∈ S.toList, t.subject = u.subject →
    t.predicate = .owl .members → u.predicate = .owl .members → t.object = u.object) :
    S.SingleMembers := fun _ _ _ hx hy => hone _ hx _ hy rfl rfl rfl

/-- An edit of some triples, before and after, that leaves cells and groups alone. -/
structure TidyEdit (ts : List Triple) (around S T : TripleSet) : Prop where
  same : SameBut ts S T
  before : ∀ t ∈ S, t ∈ around
  after : ∀ t ∈ T, t ∈ around
  cellless : Cellless ts
  groupless : ∀ s, ∀ a ∈ groupTypes, .typing s a ∉ ts
  membersBefore : S.SingleMembers
  membersAfter : T.SingleMembers

/-- None of the triples is evidence for the question. -/
structure Spares (ts : List Triple) (around S T : TripleSet) (c : Category) (n : Node) :
    Prop where
  subject : ∀ p ∈ c.subjectPredicates, ∀ o, ⟨n, p, o⟩ ∉ ts
  object : ∀ p ∈ c.objectPredicates, ∀ s, ⟨s, p, n⟩ ∉ ts
  shared : ∀ l ∈ c.sharedPredicates, ∀ s o, ⟨s, l.1, n⟩ ∈ around → ⟨s, l.2, o⟩ ∉ ts
  types : ∀ a ∈ c.types, .typing n a ∉ ts
  links : ∀ t ∈ ts, t ∉ S.listLinks n ∧ t ∉ T.listLinks n
  annotates : c = .annotationProperty → ∀ t ∈ ts, n = .iri t.predicate →
    around.isAnnotationRoot t.subject = false
  roots : c = .annotationProperty → ∀ s, ∀ a ∈ annotatedTypes, .typing s a ∈ ts →
    ∀ t ∈ around.outgoing s, n ≠ .iri t.predicate
  individual : c = .individual → ∀ t ∈ ts, t.subject ≠ n ∧
    (t.predicate.isReserved = false → t.object ≠ n)

/-- An edit that leaves cells and groups alone does so backwards. -/
theorem TidyEdit.symm (h : TidyEdit ts around S T) : TidyEdit ts around T S :=
  ⟨h.same.symm, h.after, h.before, h.cellless, h.groupless, h.membersAfter, h.membersBefore⟩

/-- Triples that are no evidence for a question are none for the edit read backwards. -/
theorem Spares.symm (h : Spares ts around S T c n) : Spares ts around T S c n :=
  { h with links := fun t ht => (h.links t ht).symm }

/-- An edit that is listed leaves cells and groups alone. -/
theorem cellless_of_reported (h : ∀ t ∈ ts, Reported S around limit qs t) : Cellless ts := by
  intro t ht
  obtain ⟨marked, hmarked, -⟩ := (h t ht).marks
  refine ⟨fun hp => ?_, fun hp => ?_⟩ <;>
    simp [touchedByPredicate, hp] at hmarked

/-- Triples whose questions can be listed type no node as a group. -/
theorem groupless_of_reported (h : ∀ t ∈ ts, Reported S around limit qs t) :
    ∀ s, ∀ a ∈ groupTypes, .typing s a ∉ ts := by
  intro s a ha ht
  obtain ⟨marked, hmarked, -⟩ := (h _ ht).marks
  simp [touchedByPredicate, touchedByType, ha] at hmarked

/-- An edit whose questions can be listed spares each question that is not listed. -/
theorem spares_of_reported (h : ∀ t ∈ ts, Reported S around limit qs t) (hsame : SameBut ts S T)
    (hS : S.Lined) (hq : ⟨c, n⟩ ∉ qs) : Spares ts around S T c n where
  subject p hp _ ht := hq ((h _ ht).mem_of_marks (mem_of_subjectPredicates p hp))
  object p hp _ ht := hq ((h _ ht).mem_of_marks (mem_of_objectPredicates p hp))
  shared l hl _ _ hs ht := hq ((h _ ht).mem_of_marks (mem_of_sharedPredicates l hl hs))
  types a ha ht := hq ((h _ ht).mem_of_marks (mem_of_types a ha))
  links t ht := by
    have hcells := cellless_of_reported h
    -- the list that the triple points at is the same before and after
    have hnone : ∀ U : TripleSet, U.Lined →
        (∀ xs, S.readList limit t.object = .ok xs → U.readList limit t.object = .ok xs) →
        t ∉ U.listLinks n := by
      intro U hU hread hlink
      obtain ⟨-, -, -, -, hp⟩ := mem_listLinks_iff.1 hlink
      obtain ⟨xs, hxs, hall⟩ := (h t ht).items hp
      exact hq (hall c n (hU.mem_of_mem_listLinks hlink (hread xs hxs)))
    exact ⟨hnone S hS fun _ hxs => hxs, hnone T (hsame.lined hcells hS) fun _ hxs =>
      (hsame.readList_eq_ok_iff hcells).1 hxs⟩
  annotates hc t ht hn := by
    subst hc hn
    rw [← Bool.not_eq_true]
    exact fun hroot => hq ((h t ht).annotates hroot)
  roots hc s a ha ht u hu hn := by
    subst hc hn
    exact hq ((h _ ht).mem_of_marks (mem_of_annotatedTypes hu a ha))
  individual hc t ht := by
    subst hc
    exact ⟨fun hs => hq (hs ▸ (h t ht).subject), fun hp ho => hq ((h t ht).object hp n ho)⟩

/-! ## The evidence for a spared question -/

section Evidence

variable (h : TidyEdit ts around S T)

include h

/-- A node is a group before such an edit and after it. -/
theorem TidyEdit.hasGroupType {a : Iri} (ha : a ∈ groupTypes) : S.hasType s a = T.hasType s a :=
  h.same.hasType (h.groupless s a ha)

/-- Lists have the same items before such an edit and after it. -/
theorem TidyEdit.items (x : Term) : S.items x = T.items x := h.same.items h.cellless

namespace Spares

variable (hq : Spares ts around S T c n)

include hq

/-- A property that matters for the node is there before and after. -/
theorem hasProperty (hp : p ∈ c.subjectPredicates) : S.hasProperty n p = T.hasProperty n p :=
  h.same.hasProperty (hq.subject p hp)

/-- A property that matters, with the node as its value, is there before and after. -/
theorem hasSubject (hp : p ∈ c.objectPredicates) : S.hasSubject p n = T.hasSubject p n :=
  h.same.hasSubject (hq.object p hp)

/-- A type that matters for the node is there before and after. -/
theorem hasType {a : Iri} (ha : a ∈ c.types) : S.hasType n a = T.hasType n a :=
  h.same.hasType (hq.types a ha)

/-- What holds of a subject that leads to the node holds of one after the edit, if each subject
has the same answer before and after. -/
theorem any_subjects {f f' : Node → Bool} (hp : p ∈ c.objectPredicates)
    (hf : ∀ s, ⟨s, p, n⟩ ∈ around → f s = f' s) :
    (S.subjects p n).any f = (T.subjects p n).any f' := by
  refine any_congr_of_mem_iff (fun s => ?_) fun s hs => hf s (h.before _ (mem_subjects.1 hs))
  rw [mem_subjects, mem_subjects]
  exact h.same.mem_iff (hq.object p hp s)

/-- The lists that have the node among their items are the same before and after. -/
theorem mem_listLinks (t : Triple) : t ∈ S.listLinks n ↔ t ∈ T.listLinks n := by
  by_cases ht : t ∈ ts
  · exact iff_of_false (hq.links t ht).1 (hq.links t ht).2
  · exact h.same.mem_listLinks h.cellless ht

/-- A node that shares a triple with the one in question has a property that matters before and
after. -/
theorem hasSharedProperty {q : Iri} (hp : (p, q) ∈ c.sharedPredicates)
    (hs : ⟨s, p, n⟩ ∈ around) : S.hasProperty s q = T.hasProperty s q :=
  h.same.hasProperty fun o => hq.shared _ hp s o hs

/-- A node that shares a triple with the one in question has the same values for a property that
matters. -/
theorem mem_sharedObjects {q : Iri} (hp : (p, q) ∈ c.sharedPredicates)
    (hs : ⟨s, p, n⟩ ∈ around) (o : Term) : o ∈ S.objects s q ↔ o ∈ T.objects s q := by
  rw [mem_objects, mem_objects]
  exact h.same.mem_iff (hq.shared _ hp s o hs)

/-- Whether the node enumerates literals stays as it is. -/
theorem enumeratesLiterals? (hp : .owl .oneOf ∈ c.subjectPredicates) :
    S.enumeratesLiterals? n = T.enumeratesLiterals? n := by
  rw [TripleSet.enumeratesLiterals?, TripleSet.enumeratesLiterals?,
    h.same.object? (hq.subject _ hp), funext h.items]

/-- Whether a property is declared of another sort stays as it is. -/
theorem isDeclaredOtherwise (hc : propertyTypes ⊆ c.types) {expected : Iri} :
    S.isDeclaredOtherwise n expected = T.isDeclaredOtherwise n expected := by
  refine any_congr_of_mem_iff (fun _ => Iff.rfl) fun a ha => ?_
  rw [hq.hasType h (hc ha)]

end Spares

/-- What triples around the node show of it as a class stays as it is. -/
theorem Spares.looksLikeClass (hq : Spares ts around S T .owlClass n) :
    S.looksLikeClass n = T.looksLikeClass n := by
  have hgroup : ∀ s, ∀ a ∈ groupTypes, S.hasType s a = T.hasType s a := fun _ _ => h.hasGroupType
  simp (disch := decide) only [TripleSet.looksLikeClass, List.any_cons, List.any_nil,
    hq.hasProperty h, hq.hasSubject h, hq.hasType h, hgroup, hq.enumeratesLiterals? h,
    any_eq_of_mem_iff (hq.mem_listLinks h)]

/-- Whether the node has the type of object properties, or a characteristic, stays as it is. -/
theorem Spares.isTypedObjectProperty (hq : Spares ts around S T .objectProperty n) :
    S.isTypedObjectProperty n = T.isTypedObjectProperty n := by
  simp (disch := decide) only [TripleSet.isTypedObjectProperty, Characteristic.objectOnly,
    List.any_cons, List.any_nil, hq.hasType h]

/-- What triples around the node show of it as an object property stays as it is. -/
theorem Spares.looksLikeObjectProperty (hq : Spares ts around S T .objectProperty n) :
    S.looksLikeObjectProperty n = T.looksLikeObjectProperty n := by
  have hrestricted : (S.subjects (.owl .onProperty) n).any (fun r =>
      S.hasProperty r (.owl .hasSelf) || S.hasProperty r (.owl .onClass) ||
      (S.objects r (.owl .hasValue)).any fun v => !v.isLiteral) =
      (T.subjects (.owl .onProperty) n).any fun r =>
      T.hasProperty r (.owl .hasSelf) || T.hasProperty r (.owl .onClass) ||
      (T.objects r (.owl .hasValue)).any fun v => !v.isLiteral := by
    refine hq.any_subjects h (by decide) fun r hr => ?_
    rw [hq.hasSharedProperty h (by decide) hr, hq.hasSharedProperty h (by decide) hr,
      any_eq_of_mem_iff (hq.mem_sharedObjects h (by decide) hr)]
  have hasserted : (S.subjects (.owl .assertionProperty) n).any (fun a =>
      S.hasProperty a (.owl .targetIndividual)) =
      (T.subjects (.owl .assertionProperty) n).any fun a =>
      T.hasProperty a (.owl .targetIndividual) :=
    hq.any_subjects h (by decide) fun _ ha => hq.hasSharedProperty h (by decide) ha
  simp (disch := decide) only [TripleSet.looksLikeObjectProperty, hq.hasProperty h,
    hq.hasSubject h, hrestricted, hasserted, any_eq_of_mem_iff (hq.mem_listLinks h)]

/-- What triples around the node show of it as a data property stays as it is. -/
theorem Spares.looksLikeDataProperty (hq : Spares ts around S T .dataProperty n) :
    S.looksLikeDataProperty n = T.looksLikeDataProperty n := by
  have hrestricted : (S.subjects (.owl .onProperty) n).any (fun r =>
      S.hasProperty r (.owl .onDataRange) || (S.objects r (.owl .hasValue)).any Term.isLiteral) =
      (T.subjects (.owl .onProperty) n).any fun r =>
      T.hasProperty r (.owl .onDataRange) || (T.objects r (.owl .hasValue)).any Term.isLiteral := by
    refine hq.any_subjects h (by decide) fun r hr => ?_
    rw [hq.hasSharedProperty h (by decide) hr,
      any_eq_of_mem_iff (hq.mem_sharedObjects h (by decide) hr)]
  have hasserted : (S.subjects (.owl .assertionProperty) n).any (fun a =>
      S.hasProperty a (.owl .targetValue)) =
      (T.subjects (.owl .assertionProperty) n).any fun a =>
      T.hasProperty a (.owl .targetValue) :=
    hq.any_subjects h (by decide) fun _ ha => hq.hasSharedProperty h (by decide) ha
  simp only [TripleSet.looksLikeDataProperty, hrestricted, hasserted]

/-- What triples around the node show of it as a datatype stays as it is. -/
theorem Spares.looksLikeDatatype (hq : Spares ts around S T .datatype n) :
    S.looksLikeDatatype n = T.looksLikeDatatype n := by
  simp (disch := decide) only [TripleSet.looksLikeDatatype, List.any_cons, List.any_nil,
    hq.hasProperty h, hq.hasSubject h, hq.hasType h, hq.enumeratesLiterals? h]

/-- An annotation that there is on one side of the edit is there on the other. -/
theorem Spares.annotates_of_annotates {i : Iri}
    (hq : Spares ts around S T .annotationProperty (.iri i))
    (hS : S.looksLikeAnnotationProperty i = true) : T.looksLikeAnnotationProperty i = true := by
  obtain ⟨t, ht, hroot⟩ := List.any_eq_true.1 hS
  rw [Bool.and_eq_true, beq_iff_eq] at hroot
  obtain ⟨rfl, hroot⟩ := hroot
  obtain ⟨a, ha, htype⟩ := List.any_eq_true.1 hroot
  have htyped : around.isAnnotationRoot t.subject = true :=
    List.any_eq_true.2 ⟨a, ha, hasType_iff.2 (h.before _ (hasType_iff.1 htype))⟩
  have hkept : t ∉ ts := fun hts => by
    rw [hq.annotates rfl t hts rfl] at htyped
    cases htyped
  have hkeptType : .typing t.subject a ∉ ts := fun hts =>
    hq.roots rfl t.subject a ha hts t (mem_outgoing.2 ⟨h.before t ht, rfl⟩) rfl
  rw [h.same.hasType hkeptType] at htype
  refine List.any_eq_true.2 ⟨t, (h.same.mem_iff hkept).1 ht, ?_⟩
  rw [beq_self_eq_true, Bool.true_and]
  exact List.any_eq_true.2 ⟨a, ha, htype⟩

/-- What triples around the node show of it as an annotation property stays as it is. -/
theorem Spares.looksLikeAnnotationProperty {i : Iri}
    (hq : Spares ts around S T .annotationProperty (.iri i)) :
    S.looksLikeAnnotationProperty i = T.looksLikeAnnotationProperty i :=
  Bool.eq_iff_iff.2 ⟨hq.annotates_of_annotates h, hq.symm.annotates_of_annotates h.symm⟩

/-- An individual has the same triples before and after. -/
theorem Spares.mem_outgoing (hq : Spares ts around S T .individual n) (t : Triple) :
    t ∈ S.outgoing n ↔ t ∈ T.outgoing n := by
  rw [TripleSet.mem_outgoing, TripleSet.mem_outgoing]
  refine and_congr_left fun hs => h.same.mem_iff fun ht => ?_
  exact (hq.individual rfl t ht).1 hs

/-- What triples around the node show of it as an individual stays as it is. -/
theorem Spares.looksLikeIndividual (hq : Spares ts around S T .individual n) :
    S.looksLikeIndividual n = T.looksLikeIndividual n := by
  have htype : S.hasType n (.owl .NamedIndividual) = T.hasType n (.owl .NamedIndividual) :=
    h.same.hasType fun ht => (hq.individual rfl _ ht).1 rfl
  have hsubject : individualPredicates.any (fun p => S.hasSubject p n) =
      individualPredicates.any fun p => T.hasSubject p n :=
    any_congr_of_mem_iff (fun _ => Iff.rfl) fun p hp => hq.hasSubject h hp
  have hgroup : ∀ s, ∀ a ∈ groupTypes, S.hasType s a = T.hasType s a := fun _ _ => h.hasGroupType
  simp (disch := decide) only [TripleSet.looksLikeIndividual, htype, hsubject, hgroup,
    any_eq_of_mem_iff (hq.mem_outgoing h), any_eq_of_mem_iff (hq.mem_listLinks h)]

/-- A spared question is settled before the edit as it is after it. -/
theorem Spares.settled? (hq : Spares ts around S T c n) :
    S.settled? ⟨c, n⟩ = T.settled? ⟨c, n⟩ := by
  cases c with
  | owlClass => simp only [TripleSet.settled?, hq.looksLikeClass h]
  | objectProperty =>
    simp only [TripleSet.settled?, hq.isTypedObjectProperty h, hq.looksLikeObjectProperty h,
      hq.isDeclaredOtherwise h (List.subset_append_left _ _)]
  | dataProperty =>
    have htype : .owl .DatatypeProperty ∈ propertyMarks := by decide
    simp only [TripleSet.settled?, hq.hasType h htype, hq.looksLikeDataProperty h,
      hq.isDeclaredOtherwise h (List.subset_append_left _ _)]
  | annotationProperty =>
    cases n with
    | blank b => simp only [TripleSet.settled?]
    | iri i =>
      have htype : .owl .AnnotationProperty ∈ propertyMarks := by decide
      simp only [TripleSet.settled?, hq.hasType h htype, hq.looksLikeAnnotationProperty h,
        hq.isDeclaredOtherwise h (List.subset_append_left _ _)]
  | datatype => simp only [TripleSet.settled?, hq.looksLikeDatatype h]
  | individual => simp only [TripleSet.settled?, hq.looksLikeIndividual h]

/-- A question is ruled out before if it is ruled out after. -/
theorem Spares.ruledOut (hq : Spares ts around S T c n) :
    S.RuledOut ⟨c, n⟩ ↔ T.RuledOut ⟨c, n⟩ := by
  rw [← settled?_eq_false_iff, ← settled?_eq_false_iff, hq.settled? h]

/-! ## The rules for a spared question -/

/-- Links by a predicate that matters in both directions stay. -/
theorem Spares.linked (hq : Spares ts around S T c n) (hs : p ∈ c.subjectPredicates)
    (ho : p ∈ c.objectPredicates) {m : Node} (hl : S.Links p n m) : T.Links p n m :=
  hl.imp (h.same.mem_iff (hq.subject p hs m)).1 (h.same.mem_iff (hq.object p ho m)).1

/-- The restrictions that a spared class or datatype fills restrict the same properties. -/
theorem Spares.restricts (hq : Spares ts around S T c n) (hc : c = .owlClass ∨ c = .datatype)
    (hr : S.Fills s n) (hp : ⟨s, .owl .onProperty, o⟩ ∈ S) :
    T.Fills s n ∧ ⟨s, .owl .onProperty, o⟩ ∈ T := by
  obtain ⟨k, hk⟩ := hr
  have hobject : k.predicate ∈ c.objectPredicates := by
    rcases hc with rfl | rfl <;> cases k <;> decide
  have hshared : (k.predicate, .owl .onProperty) ∈ c.sharedPredicates := by
    rcases hc with rfl | rfl <;> cases k <;> decide
  exact ⟨⟨k, (h.same.mem_iff (hq.object _ hobject s)).1 hk⟩,
    (h.same.mem_iff (hq.shared _ hshared s o (h.before _ hk))).1 hp⟩

/-- A spared question consults the same questions before and after the edit. -/
theorem Spares.consults (hq : Spares ts around S T c n) {r : Question}
    (hr : S.Consults ⟨c, n⟩ r) : T.Consults ⟨c, n⟩ r := by
  have hmem := fun {t} (ht : t ∉ ts) => (h.same.mem_iff ht).1
  have hsubject : ∀ {p o}, ⟨n, p, o⟩ ∈ S → p ∈ c.subjectPredicates → ⟨n, p, o⟩ ∈ T :=
    fun ht hp => hmem (hq.subject _ hp _) ht
  have hobject : ∀ {s p}, ⟨s, p, n⟩ ∈ S → p ∈ c.objectPredicates → ⟨s, p, n⟩ ∈ T :=
    fun ht hp => hmem (hq.object _ hp _) ht
  have hindividual : c = .individual → ∀ {p o}, ⟨n, p, o⟩ ∈ S → ⟨n, p, o⟩ ∈ T :=
    fun hc _ _ ht => hmem (fun hts => (hq.individual hc _ hts).1 rfl) ht
  cases hr with
  | @operandClass _ _ j _ hn hj hm =>
    refine .operandClass (fun ht => hn ?_) (hsubject hj (by cases j <;> decide)) (h.items _ ▸ hm)
    exact (h.same.mem_iff (hq.types _ (by decide))).2 ht
  | @operandRange _ _ j _ hn hj hm =>
    refine .operandRange (fun ht => hn ?_) (hsubject hj (by cases j <;> decide)) (h.items _ ▸ hm)
    exact (h.same.mem_iff (hq.types _ (by decide))).2 ht
  | @equivalent c _ _ _ hd hl =>
    have hp : .owl .equivalentClass ∈ c.subjectPredicates ∧
        .owl .equivalentClass ∈ c.objectPredicates := by cases hd <;> decide
    exact .equivalent hd (hq.linked h hp.1 hp.2 hl)
  | domainOf hd hp => exact .domainOf hd (hobject hp (by decide))
  | rangeOf hd hp => exact .rangeOf hd (hobject hp (by cases hd <;> decide))
  | fillsClass hr hp =>
    obtain ⟨hr, hp⟩ := hq.restricts h (Or.inl rfl) hr hp
    exact .fillsClass hr hp
  | fillsRange hr hp =>
    obtain ⟨hr, hp⟩ := hq.restricts h (Or.inr rfl) hr hp
    exact .fillsRange hr hp
  | @kin _ _ _ _ p hd hp hl =>
    have hkin : ∀ p ∈ kinPredicates, p ∈ c.subjectPredicates ∧ p ∈ c.objectPredicates := by
      cases hd <;> decide
    exact .kin hd hp (hq.linked h (hkin p hp).1 (hkin p hp).2 hl)
  | @sibling _ _ _ _ u head hd hu hp hg hh hm hne =>
    have hu' := (hq.mem_listLinks h u).1 hu
    obtain ⟨-, -, huS, -, -⟩ := mem_listLinks_iff.1 hu
    obtain ⟨-, -, huT, -, -⟩ := mem_listLinks_iff.1 hu'
    -- the only list of the members is the one that the node was found in
    have hlist : (⟨u.subject, .owl .members, head⟩ : Triple) = u := by
      obtain ⟨s, q, o⟩ := u
      obtain rfl : q = .owl .members := hp
      rw [h.membersBefore _ _ _ hh huS]
    refine .sibling hd hu' hp (hmem (h.groupless _ _ (by decide)) hg) ?_ (h.items _ ▸ hm) hne
    rw [hlist]
    exact huT
  | range hd hp => exact .range hd (hsubject hp (by cases hd <;> decide))
  | @filler _ _ _ _ s hd hp hr =>
    obtain ⟨k, hk⟩ := hr
    have hshared : (.owl .onProperty, k.predicate) ∈ c.sharedPredicates := by
      cases hd <;> cases k <;> decide
    refine .filler hd (hobject hp (by cases hd <;> decide)) ⟨k, ?_⟩
    exact hmem (hq.shared _ hshared s _ (h.before _ hp)) hk
  | subProperty hl => exact .subProperty (hq.linked h (by decide) (by decide) hl)
  | assertsNode ht hp => exact .assertsNode (hindividual rfl ht) hp
  | assertsLiteral ht hp => exact .assertsLiteral (hindividual rfl ht) hp
  | valueOf ht hp => exact .valueOf (hmem (fun hts => (hq.individual rfl _ hts).2 hp rfl) ht) hp

/-- A question consults what it consulted before. -/
theorem Spares.pursues (hq : Spares ts around S T c n) {r : Question} (hr : S.Pursues ⟨c, n⟩ r) :
    T.Pursues ⟨c, n⟩ r :=
  ⟨fun hout => hr.1 ((hq.ruledOut h).2 hout), hq.consults h hr.2⟩

/-- A question that was evident still is. -/
theorem Spares.evident (hq : Spares ts around S T c n) (he : S.Evident ⟨c, n⟩) :
    T.Evident ⟨c, n⟩ := by
  rw [evident_iff, certain_mem_leads_iff] at he ⊢
  rw [← hq.settled? h, ← hq.ruledOut h]
  refine he.imp_right fun ⟨hopen, hc, hf⟩ => ⟨hopen, hc, ?_⟩
  obtain ⟨r, b, hr, hb⟩ := hf
  obtain ⟨hr, hb⟩ := hq.restricts h (Or.inl hc) hr hb
  exact ⟨r, b, hr, hb⟩

/-- If all questions but some are spared, and those of them that spared questions lead to stay
derivable, then what is derivable stays so. -/
theorem TidyEdit.derivable (hspares : ∀ c n, ⟨c, n⟩ ∉ qs → Spares ts around S T c n)
    (hkept : ∀ q, q ∉ qs → ∀ r ∈ qs, T.Pursues q r → S.Derivable r → T.Derivable r)
    {q : Question} (hq : q ∉ qs) (hS : S.Derivable q) : T.Derivable q := by
  obtain ⟨e, hpath, he⟩ := hS
  induction hpath using Relation.ReflTransGen.head_induction_on with
  | refl => exact ((hspares _ _ hq).evident h he).derivable
  | @head q r hqr hre ih =>
    have hpursues := (hspares _ _ hq).pursues h hqr
    refine hpursues.derivable ?_
    by_cases hr : r ∈ qs
    · exact hkept q hq r hr hpursues ⟨e, hre, he⟩
    · exact ih hr

end Evidence

/-! ## Questions that others lead to -/

/-- What a question consults is known to be depended on. -/
theorem isDependedOn_of_consults {q r : Question} (h : S.Consults q r) :
    S.isDependedOn r = true := by
  have hsubject : ∀ {p : Iri} {n m : Node}, ⟨n, p, m⟩ ∈ S → S.hasSubject p m = true :=
    fun ht => hasSubject_iff.2 ⟨_, ht⟩
  have hproperty : ∀ {p : Iri} {n : Node} {o : Term}, ⟨n, p, o⟩ ∈ S → S.hasProperty n p = true :=
    fun ht => hasProperty_iff.2 ⟨_, ht⟩
  have hlinked : ∀ {p : Iri} {n m : Node}, S.Links p n m →
      (S.hasSubject p m || S.hasProperty m p) = true := by
    rintro p n m (ht | ht)
    · rw [hsubject ht, Bool.true_or]
    · rw [hproperty ht, Bool.or_true]
  have hitem : ∀ {m : Node} {head : Term}, .node m ∈ S.items head →
      S.hasSubject (.rdf .first) m = true := by
    intro m head hm
    obtain ⟨cell, hcell⟩ := exists_first_of_mem_items hm
    exact hsubject hcell
  have hused : ∀ {n : Node} {p : Iri} {o : Term}, ⟨n, p, o⟩ ∈ S →
      (Node.iri p).iri?.any S.isUsed = true :=
    fun ht => List.any_eq_true.2 ⟨_, ht, beq_self_eq_true _⟩
  -- each way to consult leaves a triple about the node that the test looks for
  cases h with
  | operandClass _ _ hm => simp only [isDependedOn, hitem hm, Bool.true_or]
  | operandRange _ _ hm => simp only [isDependedOn, hitem hm, Bool.true_or]
  | equivalent hc hl =>
    cases hc <;> simp only [isDependedOn, hlinked hl, Bool.or_true, Bool.true_or]
  | domainOf hc hp =>
    cases hc <;> simp only [isDependedOn, hproperty hp, Bool.true_or]
  | rangeOf hc hp =>
    cases hc <;> simp only [isDependedOn, hproperty hp, Bool.or_true, Bool.true_or]
  | fillsClass _ hp => simp only [isDependedOn, hsubject hp, Bool.or_true, Bool.true_or]
  | fillsRange _ hp => simp only [isDependedOn, hsubject hp, Bool.or_true, Bool.true_or]
  | kin hc hp hl =>
    simp only [kinPredicates, List.mem_cons, List.not_mem_nil, or_false] at hp
    rcases hp with rfl | rfl | rfl <;> cases hc <;>
      simp only [isDependedOn, hlinked hl, Bool.or_true, Bool.true_or]
  | sibling hc _ _ _ _ hm _ =>
    cases hc <;> simp only [isDependedOn, hitem hm, Bool.or_true, Bool.true_or]
  | range hc hm =>
    cases hc <;> simp only [isDependedOn, hsubject hm, Bool.or_true, Bool.true_or]
  | filler hc _ hr =>
    obtain ⟨k, hk⟩ := hr
    cases k <;> rw [Quantifier.predicate] at hk <;> cases hc <;>
      simp only [isDependedOn, hsubject hk, Bool.or_true, Bool.true_or]
  | subProperty hl => exact hlinked hl
  | assertsNode ht _ => simp only [isDependedOn, hused ht, Bool.or_true]
  | assertsLiteral ht _ => simp only [isDependedOn, hused ht, Bool.or_true]
  | valueOf ht _ => simp only [isDependedOn, hused ht, Bool.or_true]

/-! ## Edits -/

/-- If no question leads to a listed one whose answer changed, the answers to the questions that are
not listed are the same before and after. -/
theorem SameBut.isA_eq_of_notMem (hsame : SameBut ts S T) (hlists : S.Lined)
    (hbefore : S.SingleMembers) (hafter : T.SingleMembers)
    (htouched : S.touched? limit ts = some qs)
    (hfree : ∀ q ∈ qs, S.isA none q.category q.node ≠ T.isA none q.category q.node →
      T.isDependedOn q = false)
    (hq : ⟨c, n⟩ ∉ qs) : S.isA none c n = T.isA none c n := by
  have hreported : ∀ t ∈ ts, Reported S (S.insertMany ts) limit qs t :=
    fun t ht => reported_of_touched? htouched ht
  have h : TidyEdit ts (S.insertMany ts) S T :=
    { same := hsame
      before := fun t ht => mem_insertMany.2 (Or.inl ht)
      after := fun t ht => mem_insertMany.2 <| by
        by_cases hts : t ∈ ts
        · exact Or.inr hts
        · exact Or.inl ((hsame.mem_iff hts).2 ht)
      cellless := cellless_of_reported hreported
      groupless := groupless_of_reported hreported
      membersBefore := hbefore
      membersAfter := hafter }
  have hspares : ∀ c n, ⟨c, n⟩ ∉ qs → Spares ts (S.insertMany ts) S T c n :=
    fun c n hq => spares_of_reported hreported hsame hlists hq
  have hkept : ∀ q r, r ∈ qs → T.Pursues q r → (S.Derivable r ↔ T.Derivable r) := by
    intro q r hr hqr
    rw [← isA_node_iff, ← isA_node_iff]
    by_contra hne
    have hdepended := isDependedOn_of_consults hqr.2
    rw [hfree r hr fun heq => hne (by rw [heq])] at hdepended
    cases hdepended
  rw [Bool.eq_iff_iff, isA_node_iff, isA_node_iff]
  refine ⟨h.derivable hspares (fun q _ r hr hqr => (hkept q r hr hqr).1) hq, ?_⟩
  refine h.symm.derivable (fun c n hq => (hspares c n hq).symm) (fun q hq r hr hqr => ?_) hq
  exact (hkept q r hr ((hspares _ _ hq).pursues h hqr)).2

end TripleSet

open TripleSet

/-- **Edits.** Let an edit write triples into a graph or take them out of its base, and let the
questions that its triples are evidence for be listed.  If no question leads to one of these whose
answer changed, then the answer to each question that is not listed is the same before and after.
Lists are as they should be before the edit, and before and after it a node groups its members in
one list. -/
theorem Graph.isA_eq_of_notMem_touched (g g' : Graph) (ts : List Triple) (limit : Nat)
    (qs : List Question) (hedit : g' = (g.insertAll ts).2 ∨ g' = (g.removeAll ts).2)
    (hlists : g.union.Lined) (hbefore : g.union.SingleMembers) (hafter : g'.union.SingleMembers)
    (htouched : g.union.touched? limit ts = some qs)
    (hfree : ∀ q ∈ qs, g.union.isA none q.category q.node ≠ g'.union.isA none q.category q.node →
      g'.union.isDependedOn q = false)
    (c : Category) (x : Term) (hx : ∀ n, x = .node n → ⟨c, n⟩ ∉ qs) :
    g.union.isA none c x = g'.union.isA none c x := by
  have hsame : SameBut ts g.union g'.union := by
    rcases hedit with rfl | rfl
    · exact sameBut_insertAll
    · exact sameBut_removeAll
  cases x with
  | literal l => rfl
  | node n => exact hsame.isA_eq_of_notMem hlists hbefore hafter htouched hfree (hx n rfl)

/-- Writing a subclass triple makes a class of its subject, and leaves alone the class that is a
union with a member of a group. -/
theorem Graph.isA_eq_of_notMem_touched_subClassOf :
    let n (x : String) : Node := .blank ⟨x⟩
    let t : Triple := ⟨n "a", .rdfs .subClassOf, n "b"⟩
    let g : Graph :=
      { base := .ofList ([.typing (n "g") (.owl .AllDisjointClasses),
          ⟨n "g", .owl .members, n "l"⟩, ⟨n "d", .owl .unionOf, n "l"⟩] ++
          Cell.triples ⟨n "l", n "c", Term.nil⟩) }
    let g' := (g.insertAll [t]).2
    g.union.isA none .owlClass (n "a") = false ∧ g'.union.isA none .owlClass (n "a") = true ∧
      g.union.isA none .owlClass (n "d") = true ∧
      g.union.isA none .owlClass (n "d") = g'.union.isA none .owlClass (n "d") := by
  intro n t g g'
  have htouched : g.union.touched? 10 [t] =
      some [⟨.individual, n "a"⟩, ⟨.owlClass, n "a"⟩, ⟨.owlClass, n "b"⟩] := by decide +kernel
  refine ⟨by decide +kernel, by decide +kernel, by decide +kernel, ?_⟩
  refine Graph.isA_eq_of_notMem_touched g g' [t] 10 _ (Or.inl rfl)
    (lined_of_forall (by decide +kernel) (by decide +kernel))
    (singleMembers_of_forall (by decide +kernel)) (singleMembers_of_forall (by decide +kernel))
    htouched (by decide +kernel) .owlClass (n "d") fun m hm => ?_
  cases hm
  decide

end Ontograph
