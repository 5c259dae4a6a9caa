import Ontograph.Graph.Layered
import Ontograph.Proofs.Mapping.Soundness
import Ontograph.View.Accessors

/-!
# Views show what axioms say

The axioms of a graph and the accessors of its views are two readings of the same triples.  Where
an axiom that is read relates things that have names, or individuals, the accessors of their views
show them to each other (`Axiom.Shown`, `Graph.shown_of_mem_scan`), as long as no group lists its
members with `owl:distinctMembers`, which axioms are read from and views are not.

What an axiom says about things with names is said by triples (`Axiom.Stated`), so it is enough
that every accessor shows what its triples say.
-/

namespace Ontograph

/-- The accessor for a characteristic of an object property. -/
def View.hasCharacteristic (v : View) : Characteristic → Bool
  | .functional => v.isFunctional
  | .inverseFunctional => v.isInverseFunctional
  | .reflexive => v.isReflexive
  | .irreflexive => v.isIrreflexive
  | .symmetric => v.isSymmetric
  | .asymmetric => v.isAsymmetric
  | .transitive => v.isTransitive

/-- The accessors of the views of what the axiom is about show what it says about things that have
names, and about individuals.  There are no accessors for what a union, a key, a definition of a
datatype or a negative assertion says. -/
def Axiom.Shown (view : Term → View) : Axiom → Prop
  | .declaration e => e.kind.declaration ∈ (view (.iri e.iri : Node)).types
  | .subClassOf c d => ∀ a b, c = .named a → d = .named b →
    .node (.iri b) ∈ (view (.iri a : Node)).superClasses ∧
    .node (.iri a) ∈ (view (.iri b : Node)).subClasses
  | .equivalentClasses cs => ∀ a b : Iri, .named a ∈ cs → .named b ∈ cs → a ≠ b →
    .node (.iri b) ∈ (view (.iri a : Node)).equivalentClasses
  | .disjointClasses cs => ∀ a b : Iri, .named a ∈ cs → .named b ∈ cs → a ≠ b →
    .node (.iri b) ∈ (view (.iri a : Node)).disjointClasses
  | .subObjectPropertyOf e f => ∀ p q, e = .named p → f = .named q →
    .node (.iri q) ∈ (view (.iri p : Node)).superProperties ∧
    .node (.iri p) ∈ (view (.iri q : Node)).subProperties
  | .subPropertyChainOf chain q => ∀ ps : List Iri, chain = ps.map .named →
    (ps.map fun p => .node (.iri p)) ∈ (view (.iri q : Node)).propertyChains
  | .subDataPropertyOf p q | .subAnnotationPropertyOf p q =>
    .node (.iri q) ∈ (view (.iri p : Node)).superProperties ∧
    .node (.iri p) ∈ (view (.iri q : Node)).subProperties
  | .equivalentProperties _ ps => ∀ p q, p ∈ ps → q ∈ ps → p ≠ q →
    .node (.iri q) ∈ (view (.iri p : Node)).equivalentProperties
  | .disjointProperties _ ps => ∀ p q, p ∈ ps → q ∈ ps → p ≠ q →
    .node (.iri q) ∈ (view (.iri p : Node)).disjointProperties
  | .inverseObjectProperties p q => p ≠ q →
    .node (.iri q) ∈ (view (.iri p : Node)).inverses ∧
    .node (.iri p) ∈ (view (.iri q : Node)).inverses
  | .propertyDomain _ p c => ∀ a, c = .named a → .node (.iri a) ∈ (view (.iri p : Node)).domains
  | .objectPropertyRange p c => ∀ a, c = .named a →
    .node (.iri a) ∈ (view (.iri p : Node)).ranges
  | .dataPropertyRange p d => ∀ a, d = .named a → .node (.iri a) ∈ (view (.iri p : Node)).ranges
  | .annotationPropertyDomain p a => .node (.iri a) ∈ (view (.iri p : Node)).domains
  | .annotationPropertyRange p a => .node (.iri a) ∈ (view (.iri p : Node)).ranges
  | .objectCharacteristic c p => (view (.iri p : Node)).hasCharacteristic c = true
  | .functionalDataProperty p => (view (.iri p : Node)).isFunctional = true
  | .classAssertion c a => ∀ i, c = .named i →
    .node (.iri i) ∈ (view a).classes ∧ .node a ∈ (view (.iri i : Node)).instances
  | .propertyAssertion p a o | .annotationAssertion p a o => o ∈ (view a).values p
  | .sameIndividual as => ∀ a b, a ∈ as → b ∈ as → a ≠ b → .node b ∈ (view a).sameIndividuals
  | .differentIndividuals as => ∀ a b, a ∈ as → b ∈ as → a ≠ b →
    .node b ∈ (view a).differentIndividuals
  | .disjointUnion _ _ | .hasKey _ _ _ | .datatypeDefinition _ _
  | .negativePropertyAssertion _ _ _ => True

namespace Source

variable {R : Source} {i : Interface} {n m x y : Node} {p c : Iri} {o : Term} {items : List Term}

/-- A term of a source, seen under an interface; lists may be as long as the source has them. -/
def view (R : Source) (i : Interface) (x : Term) : View :=
  ⟨i, x, R.triples, R.settings.listLimit⟩

/-! ## What accessors show -/

/-- A view of the subject of a triple shows its object. -/
theorem mem_objects_view (h : ⟨n, p, o⟩ ∈ R.triples) : o ∈ (R.view i n).objects p :=
  TripleSet.mem_objects.2 h

/-- A view of the object of a triple shows its subject. -/
theorem mem_subjects_view (h : ⟨n, p, o⟩ ∈ R.triples) : .node n ∈ (R.view i o).subjects p :=
  List.mem_map_of_mem (TripleSet.mem_subjects.2 h)

/-- A view of a node shows the types it has. -/
theorem hasType_view (h : .typing n c ∈ R.triples) : (R.view i n).hasType c = true :=
  TripleSet.hasType_iff.2 h

/-- A property with the type of a characteristic is shown to have it. -/
theorem hasCharacteristic_view {k : Characteristic} (h : .typing n k.type ∈ R.triples) :
    (R.view i n).hasCharacteristic k = true := by
  cases k <;> exact hasType_view h

/-- Nodes are shown to each other, whichever way a predicate relates them. -/
theorem mem_related_view (h : R.Linked p x y) (hne : x ≠ y) :
    .node y ∈ (R.view i x).related p := by
  have hother : Term.node y ≠ (R.view i x).node := fun heq => hne (Term.node.inj heq).symm
  unfold View.related
  rw [List.mem_filter, List.mem_append, List.mem_filter]
  refine ⟨?_, by simpa using hother⟩
  by_cases hobject : (Term.node y) ∈ (R.view i x).objects p
  · exact Or.inl hobject
  · rcases h with h | h
    · exact absurd (mem_objects_view h) hobject
    · exact Or.inr ⟨mem_subjects_view h, by simpa using hobject⟩

/-- The members of a group are seen as they are read, if it has `owl:members`. -/
theorem mem_groupMembers_view (hmembers : ∀ t ∈ R.triples, t.predicate ≠ .owl .distinctMembers)
    (h : R.Grouped c x y) (hne : x ≠ y) : .node y ∈ (R.view i x).groupMembers c := by
  obtain ⟨root, p, head, items, hroot, hp, hhead, hitems, hx, hy⟩ := h
  obtain rfl : p = .owl .members := by
    refine hp.resolve_right ?_
    rintro ⟨-, rfl⟩
    exact hmembers _ (TripleSet.mem_of_object? hhead) rfl
  have hlook : (R.view i x).triples.object? root (.owl .members) = some head := hhead
  have hread : (R.view i x).triples.readList (R.view i x).listLimit head = .ok items := hitems
  have hself : items.contains (R.view i x).node = true := List.contains_iff_mem.2 hx
  have hother : Term.node y ≠ (R.view i x).node := fun heq => hne (Term.node.inj heq).symm
  unfold View.groupMembers
  refine List.mem_flatMap.2 ⟨root, TripleSet.mem_subjects.2 hroot, ?_⟩
  rw [hlook]
  dsimp only
  rw [hread]
  dsimp only
  rw [if_pos hself, List.mem_filter]
  exact ⟨hy, by simpa using hother⟩

/-- Classes are shown as disjoint by a statement or by a group. -/
theorem mem_disjointClasses_view
    (h : .node y ∈ (R.view i x).related (.owl .disjointWith) ∨
      .node y ∈ (R.view i x).groupMembers (.owl .AllDisjointClasses)) :
    .node y ∈ (R.view i x).disjointClasses := by
  unfold View.disjointClasses
  dsimp only
  rw [List.mem_append, List.mem_eraseDups, List.mem_filter]
  by_cases hpair : .node y ∈ (R.view i x).related (.owl .disjointWith)
  · exact Or.inl hpair
  · exact Or.inr ⟨h.resolve_left hpair, by simpa using hpair⟩

/-- A view of a property shows the items of its chains. -/
theorem mem_propertyChains_view (h : R.HasList n (.owl .propertyChainAxiom) items) :
    items ∈ (R.view i n).propertyChains := by
  obtain ⟨head, hhead, hitems⟩ := h
  refine List.mem_filterMap.2 ⟨head, mem_objects_view hhead, ?_⟩
  have hread : (R.view i n).triples.readList (R.view i n).listLimit head = .ok items := hitems
  rw [hread]
  rfl

/-! ## What axioms say -/

/-- What triples say about things with names is shown. -/
theorem shown_of_stated {ax : Axiom}
    (hmembers : ∀ t ∈ R.triples, t.predicate ≠ .owl .distinctMembers) (h : ax.Stated R) :
    ax.Shown (R.view i) := by
  have hpair : ∀ {p : Iri} {a b : Iri}, ⟨a, p, .node (.iri b)⟩ ∈ R.triples →
      Term.node (.iri b) ∈ (R.view i (.iri a : Node)).objects p ∧
      Term.node (.iri a) ∈ (R.view i (.iri b : Node)).subjects p :=
    fun ht => ⟨mem_objects_view ht, mem_subjects_view ht⟩
  have hnodes : ∀ {a b : Iri}, a ≠ b → (Node.iri a : Node) ≠ .iri b :=
    fun hne heq => hne (Node.iri.inj heq)
  cases ax with
  | declaration e => exact TripleSet.mem_types.2 h
  | subClassOf c d => exact fun a b hc hd => hpair (h a b hc hd)
  | equivalentClasses cs =>
    exact fun a b ha hb hne => mem_related_view (h a b ha hb hne) (hnodes hne)
  | disjointClasses cs =>
    refine fun a b ha hb hne => mem_disjointClasses_view ?_
    exact (h a b ha hb hne).imp (mem_related_view · (hnodes hne))
      (mem_groupMembers_view hmembers · (hnodes hne))
  | disjointUnion c parts => trivial
  | subObjectPropertyOf e f => exact fun p q he hf => hpair (h p q he hf)
  | subPropertyChainOf chain q => exact fun ps hps => mem_propertyChains_view (h ps hps)
  | subDataPropertyOf p q => exact hpair h
  | equivalentProperties sort ps =>
    exact fun p q hp hq hne => mem_related_view (h p q hp hq hne) (hnodes hne)
  | disjointProperties sort ps =>
    refine fun p q hp hq hne => List.mem_append.2 ?_
    exact (h p q hp hq hne).imp (mem_related_view · (hnodes hne))
      (mem_groupMembers_view hmembers · (hnodes hne))
  | propertyDomain sort p c => exact fun a hc => mem_objects_view (h a hc)
  | objectPropertyRange p c => exact fun a hc => mem_objects_view (h a hc)
  | dataPropertyRange p d => exact fun a hd => mem_objects_view (h a hd)
  | inverseObjectProperties p q =>
    exact fun hne => ⟨mem_related_view (Or.inl h) (hnodes hne),
      mem_related_view (Or.inr h) (hnodes hne).symm⟩
  | objectCharacteristic c p => exact hasCharacteristic_view h
  | functionalDataProperty p => exact hasType_view h
  | datatypeDefinition d e => trivial
  | classAssertion c a =>
    intro j hc
    obtain ⟨htype, hne⟩ := h j hc
    refine ⟨List.mem_filter.2 ⟨mem_objects_view htype, ?_⟩, mem_subjects_view htype⟩
    simpa using hne
  | propertyAssertion p a o => exact mem_objects_view h
  | negativePropertyAssertion p a o => trivial
  | sameIndividual as => exact fun a b ha hb hne => mem_related_view (h a b ha hb hne) hne
  | differentIndividuals as =>
    refine fun a b ha hb hne => List.mem_append.2 ?_
    exact (h a b ha hb hne).imp (mem_related_view · hne) (mem_groupMembers_view hmembers · hne)
  | hasKey c ops dps => trivial
  | annotationAssertion p a o => exact mem_objects_view h
  | subAnnotationPropertyOf p q => exact hpair h
  | annotationPropertyDomain p a => exact mem_objects_view h
  | annotationPropertyRange p a => exact mem_objects_view h

end Source

namespace Graph

/-- **Views and axioms.** If no group lists its members with `owl:distinctMembers`, the accessors
of the views of a graph show what every axiom that is read from it says about things with names,
and about individuals. -/
theorem shown_of_mem_scan {g : Graph} {s : Settings} {a : AnnotatedAxiom} {f : Footprint}
    (hmembers : ∀ t ∈ g, t.predicate ≠ .owl .distinctMembers)
    (h : (a, f) ∈ Source.scan ⟨g.union, s⟩) (i : Interface) :
    a.base.Shown fun x => ⟨i, x, g.union, s.listLimit⟩ :=
  Source.shown_of_stated (R := ⟨g.union, s⟩) (fun t ht => hmembers t (mem_union.1 ht))
    (Source.stated_of_mem_scan h)

/-- A group of three disjoint classes with a remark on it, its list in an import: the first class
is shown the last one. -/
theorem shown_of_mem_scan_disjointClasses :
    let a : Iri := .ofValue "http://example.org/a"
    let b : Iri := .ofValue "http://example.org/b"
    let c : Iri := .ofValue "http://example.org/c"
    let group : Node := .blank ⟨"group"⟩
    let first : Node := .blank ⟨"first"⟩
    let second : Node := .blank ⟨"second"⟩
    let third : Node := .blank ⟨"third"⟩
    let typed : Triple := .typing group (.owl .AllDisjointClasses)
    let said : List Triple := [⟨group, .owl .members, .node first⟩,
      ⟨group, .rdfs .comment, .literal (.plain "apart")⟩]
    let cells : List Triple := [⟨first, .rdf .first, .node (.iri a)⟩,
      ⟨first, .rdf .rest, .node second⟩, ⟨second, .rdf .first, .node (.iri b)⟩,
      ⟨second, .rdf .rest, .node third⟩, ⟨third, .rdf .first, .node (.iri c)⟩,
      ⟨third, .rdf .rest, .node (.iri (.rdf .nil))⟩]
    let g : Graph := { base := .ofList (typed :: said), imports := [⟨0, .ofList cells⟩] }
    let s : Settings := { listLimit := 3 }
    let disjoint : AnnotatedAxiom := .of (.disjointClasses [.named a, .named b, .named c])
      [⟨.rdfs .comment, .literal (.plain "apart")⟩]
    (∀ t ∈ g, t.predicate ≠ .owl .distinctMembers) ∧
    (∃ f, (disjoint, f) ∈ Source.scan ⟨g.union, s⟩) ∧
    .node (.iri c) ∈ (⟨.owlClass, .node (.iri a), g.union, 3⟩ : View).disjointClasses := by
  intro a b c group first second third typed said cells g s disjoint
  have hmembers : ∀ t ∈ g, t.predicate ≠ .owl .distinctMembers := by
    have hunion : ∀ t ∈ g.union.toList, t.predicate ≠ .owl .distinctMembers := by decide +kernel
    exact fun t ht => hunion t (mem_union.2 ht)
  have hread : (disjoint, Footprint.of typed (said.take 1 ++ cells ++ said.drop 1)) ∈
      Source.scan ⟨g.union, s⟩ := by decide +kernel
  have hshown : disjoint.base.Shown fun x => ⟨.owlClass, x, g.union, s.listLimit⟩ :=
    shown_of_mem_scan hmembers hread .owlClass
  exact ⟨hmembers, ⟨_, hread⟩, hshown a c (by decide) (by decide) (by decide)⟩

end Graph

end Ontograph
