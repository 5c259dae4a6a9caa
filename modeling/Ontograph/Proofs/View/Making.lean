import Ontograph.Proofs.Canonical.Contention
import Ontograph.Proofs.Ontology.Runs

/-!
# Making nodes instances

Seven interfaces of OWL 2 have nodes made: the six kinds of entities, by a declaration, and the
anonymous individuals, by the type `owl:Thing`.  `TripleSet.Makes` says when, and with which triple;
creating does exactly that (`Ontology.create_eq_ok_iff`).  A maker is run only after its check has
passed, and then it does not refuse (`Maker.make_of_check`), so a creation that is refused has left
the graph alone (`Factory.create_of_error`).

The checks before making look at declarations, and seeing the node afterwards is up to the
classifier, which asks for exclusions of its own.  They agree because the new triple is a type that
settles the question (`TripleSet.Makes.admits`).

No IRI gets two declarations that exclude each other (`Graph.Unmixed`): whichever of the two was
there first, in the base or in an import, the other one is refused.
-/

namespace Ontograph

/-! ## When a node is made -/

/-- The interface that shows the entities of the kind. -/
def EntityKind.interface : EntityKind → Interface
  | .owlClass => .owlClass
  | .datatype => .datatype
  | .objectProperty => .objectProperty
  | .dataProperty => .dataProperty
  | .annotationProperty => .annotationProperty
  | .namedIndividual => .namedIndividual

/-- The category of the entities of the kind. -/
def EntityKind.category : EntityKind → Category
  | .owlClass => .owlClass
  | .datatype => .datatype
  | .objectProperty => .objectProperty
  | .dataProperty => .dataProperty
  | .annotationProperty => .annotationProperty
  | .namedIndividual => .individual

/-- The rules for making a term an instance of an interface, with the triple that does it. -/
inductive TripleSet.Makes (S : TripleSet) (budget : Option Nat) : Interface → Term → Triple → Prop
  | entity {k : EntityKind} {iri : Iri} (hreserved : iri.isReserved = false)
      (hbuiltin : iri.builtin? = none)
      (hexcluded : ∀ e ∈ exclusions, e.declaration = k.declaration →
        Triple.typing iri e.excluded ∉ S) :
      Makes S budget k.interface (iri : Node) (.typing iri k.declaration)
  | anonymous {b : Blank} (hclass : S.isA budget .owlClass (b : Node) = false) :
      Makes S budget .anonymousIndividual (b : Node) (.typing b (.owl .Thing))

variable {S T : TripleSet} {budget : Option Nat} {g g' : Graph} {i : Interface} {x : Term}
  {t : Triple} {k : EntityKind} {iri : Iri} {d : Iri} {m : Maker}

namespace Maker

/-- The check for an entity: the IRI is not reserved, not built in, and has no declaration that
excludes the wanted one. -/
theorem check_entity_eq_ok_iff : (Maker.entity i d).check S budget (iri : Node) = .ok () ↔
    iri.isReserved = false ∧ iri.builtin? = none ∧
      ∀ e ∈ exclusions, e.declaration = d → Triple.typing iri e.excluded ∉ S := by
  have hfind : (exclusions.find? fun e => e.declaration == d && S.hasType iri e.excluded) = none ↔
      ∀ e ∈ exclusions, e.declaration = d → Triple.typing iri e.excluded ∉ S := by
    simp only [List.find?_eq_none, Bool.and_eq_true, beq_iff_eq, TripleSet.hasType_iff, not_and]
  rw [← hfind]
  unfold check
  dsimp only
  cases iri.isReserved <;> cases iri.builtin? <;>
    cases exclusions.find? (fun e => e.declaration == d && S.hasType iri e.excluded) <;> simp

/-- The check for an anonymous individual: the blank node is no class. -/
theorem check_anonymous_eq_ok_iff {b : Blank} :
    Maker.anonymousIndividual.check S budget (b : Node) = .ok () ↔
      S.isA budget .owlClass (b : Node) = false := by
  unfold check
  dsimp only
  cases S.isA budget .owlClass (b : Node) <;> simp

/-- An entity is made of an IRI. -/
theorem make_entity_eq_ok_iff : (Maker.entity i d).make g x = (.ok (), g') ↔
    ∃ iri : Iri, x = (iri : Node) ∧ (g.insert (.typing iri d)).2 = g' := by
  match x with
  | .node (.iri iri) => simp [make]
  | .node (.blank b) => simp [make]
  | .literal l => simp [make]

/-- An anonymous individual is made of a blank node. -/
theorem make_anonymous_eq_ok_iff : Maker.anonymousIndividual.make g x = (.ok (), g') ↔
    ∃ b : Blank, x = (b : Node) ∧ (g.insert (.typing b (.owl .Thing))).2 = g' := by
  match x with
  | .node (.iri iri) => simp [make]
  | .node (.blank b) => simp [make]
  | .literal l => simp [make]

/-- A maker does not refuse a term that has passed its check. -/
theorem make_of_check (h : m.check S budget x = .ok ()) : (m.make g x).1 = .ok () := by
  match m, x with
  | .entity i d, .node (.iri iri) => rfl
  | .entity i d, .node (.blank b) => cases h
  | .entity i d, .literal l => cases h
  | .anonymousIndividual, .node (.iri iri) => cases h
  | .anonymousIndividual, .node (.blank b) => rfl
  | .anonymousIndividual, .literal l => cases h

end Maker

/-- A refused creation leaves the graph alone: a factory without a maker, and one whose check fails,
write nothing, and a maker that is run does not refuse. -/
theorem Factory.create_of_error {f : Factory} {e : CreateError}
    (h : (f.create budget g x).1 = .error e) : (f.create budget g x).2 = g := by
  cases f with
  | composite => rfl
  | leaf l =>
    unfold create at h ⊢
    dsimp only at h ⊢
    cases hmaker : l.maker? with
    | none => rfl
    | some m =>
      rw [hmaker] at h
      dsimp only at h ⊢
      cases hcheck : m.check g.union budget x with
      | error e => rfl
      | ok =>
        rw [hcheck] at h
        dsimp only at h
        rw [Maker.make_of_check hcheck] at h
        cases h

namespace Personality

/-- The entity kinds and the anonymous individuals have makers in OWL 2, and nothing else. -/
theorem maker?_owl2_eq_some_iff : (owl2.factory? i).bind Factory.maker? = some m ↔
    (∃ k : EntityKind, k.interface = i ∧ .entity i k.declaration = m) ∨
      i = .anonymousIndividual ∧ .anonymousIndividual = m := by
  constructor
  · intro h
    cases i with
    | owlClass => exact Or.inl ⟨.owlClass, rfl, Option.some.inj h⟩
    | datatype => exact Or.inl ⟨.datatype, rfl, Option.some.inj h⟩
    | objectProperty => exact Or.inl ⟨.objectProperty, rfl, Option.some.inj h⟩
    | dataProperty => exact Or.inl ⟨.dataProperty, rfl, Option.some.inj h⟩
    | annotationProperty => exact Or.inl ⟨.annotationProperty, rfl, Option.some.inj h⟩
    | namedIndividual => exact Or.inl ⟨.namedIndividual, rfl, Option.some.inj h⟩
    | anonymousIndividual => exact Or.inr ⟨rfl, Option.some.inj h⟩
    | _ => cases h
  · rintro (⟨k, rfl, rfl⟩ | ⟨rfl, rfl⟩)
    · cases k <;> rfl
    · rfl

end Personality

/-! ## Seeing what was made -/

namespace TripleSet

/-- A declaration shows the category, and no other declaration rules it out. -/
theorem shows_of_declaration (h : Triple.typing iri k.declaration ∈ S) :
    S.Shows ⟨k.category, iri⟩ ∧ (S.RuledOut ⟨k.category, iri⟩ → iri.isReserved = true) := by
  have htype : S.hasType iri k.declaration = true := hasType_iff.2 h
  cases k with
  | owlClass =>
    have hclass : S.looksLikeClass iri = true := by
      unfold looksLikeClass
      rw [show S.hasType iri (.owl .Class) = true from htype]
      rfl
    exact ⟨hclass, fun hout => hout.2.resolve_right id⟩
  | datatype =>
    have hdatatype : S.looksLikeDatatype iri = true := by
      unfold looksLikeDatatype
      rw [show S.hasType iri (.rdfs .Datatype) = true from htype]
      rfl
    exact ⟨hdatatype, fun hout => hout.2.resolve_right id⟩
  | objectProperty =>
    have htyped : S.isTypedObjectProperty iri = true := Bool.or_eq_true_iff.2 (Or.inl htype)
    exact ⟨Or.inl htyped, fun hout => hout.2.resolve_right fun hother =>
      Bool.false_ne_true (hother.1.symm.trans htyped)⟩
  | dataProperty =>
    exact ⟨Or.inl htype, fun hout => hout.2.resolve_right fun hother =>
      Bool.false_ne_true (hother.1.symm.trans htype)⟩
  | annotationProperty =>
    refine ⟨Or.inl htype, fun hout => hout.2.resolve_right ?_⟩
    rintro (hblank | hother)
    · cases hblank
    · exact Bool.false_ne_true (hother.1.symm.trans htype)
  | namedIndividual =>
    have hindividual : S.looksLikeIndividual iri = true := by
      unfold looksLikeIndividual
      rw [show S.hasType iri (.owl .NamedIndividual) = true from htype]
      rfl
    exact ⟨hindividual, fun hout => hout.2.resolve_right id⟩

/-- A declaration settles that an IRI is of the category. -/
theorem settled?_of_declaration (hreserved : iri.isReserved = false)
    (h : Triple.typing iri k.declaration ∈ S) : S.settled? ⟨k.category, iri⟩ = some true := by
  obtain ⟨hshows, hout⟩ := shows_of_declaration h
  refine settled?_eq_true_iff.2 (Or.inr ⟨fun hruled => ?_, hshows⟩)
  rw [hout hruled] at hreserved
  cases hreserved

/-- The type `owl:Thing` settles that a blank node is an individual. -/
theorem settled?_of_thing {b : Blank} (h : Triple.typing b (.owl .Thing) ∈ S) :
    S.settled? ⟨.individual, b⟩ = some true := by
  have hindividual : S.looksLikeIndividual b = true := by
    have hdescribes : (S.outgoing b).any describesIndividual = true :=
      List.any_eq_true.2 ⟨_, mem_outgoing.2 ⟨h, rfl⟩, rfl⟩
    unfold looksLikeIndividual
    rw [hdescribes, Bool.or_true]
    rfl
  refine settled?_eq_true_iff.2 (Or.inr ⟨?_, hindividual⟩)
  rintro ⟨-, hreserved | hfalse⟩
  · cases hreserved
  · exact hfalse

/-- What was made can be seen in any set that holds the new triple, if the budget allows a step. -/
theorem Makes.admits (h : S.Makes budget i x t) (ht : t ∈ T) (hbudget : budget ≠ some 0) :
    ∃ f, Personality.owl2.factory? i = some f ∧ f.admits T budget x = true := by
  have hisA : ∀ c n, T.settled? ⟨c, n⟩ = some true → T.isA budget c n = true := by
    intro c n hsettled
    rw [isA_of_settled? hsettled]
    cases budget with
    | none => rfl
    | some b => simpa [Nat.pos_iff_ne_zero] using hbudget
  cases h with
  | @entity k iri hreserved =>
    have hfilter : ∃ l, Personality.owl2.factory? k.interface = some (.leaf l) ∧
        l.filter = .and .named (.isA k.category) := by
      cases k <;> exact ⟨_, rfl, rfl⟩
    obtain ⟨l, hl, hfilter⟩ := hfilter
    refine ⟨_, hl, ?_⟩
    simp [Factory.admits, Factory.leaves, Leaf.admits, hfilter, Filter.accepts, Term.isNamed,
      Node.isNamed, hisA _ _ (settled?_of_declaration hreserved ht)]
  | anonymous =>
    refine ⟨_, rfl, ?_⟩
    simp [Factory.admits, Factory.leaves, Leaf.admits, Filter.accepts, Term.isBlank, Node.isBlank,
      hisA _ _ (settled?_of_thing ht)]

end TripleSet

/-! ## Declarations that exclude each other -/

/-- Two declarations that no IRI should have both of: classes exclude datatypes, and the sorts of
properties exclude each other. -/
inductive Iri.Excludes : Iri → Iri → Prop
  | datatype : Excludes (.owl .Class) (.rdfs .Datatype)
  | owlClass : Excludes (.rdfs .Datatype) (.owl .Class)
  | property {c d : Iri} (hc : c ∈ propertyTypes) (hd : d ∈ propertyTypes) (hne : c ≠ d) :
      Excludes c d

/-- Declarations exclude each other. -/
theorem Iri.Excludes.symm {c d : Iri} (h : c.Excludes d) : d.Excludes c := by
  cases h with
  | datatype => exact .owlClass
  | owlClass => exact .datatype
  | property hc hd hne => exact .property hd hc hne.symm

/-- No declaration excludes itself. -/
theorem Iri.Excludes.ne {c d : Iri} (h : c.Excludes d) : c ≠ d := by
  cases h with
  | datatype | owlClass => decide
  | property _ _ hne => exact hne

/-- The table of exclusions has all of them. -/
theorem Iri.Excludes.mem_exclusions {c d : Iri} (h : c.Excludes d) :
    ∃ e ∈ exclusions, e.declaration = c ∧ e.excluded = d := by
  have hproperties : ∀ c ∈ propertyTypes, ∀ d ∈ propertyTypes, c ≠ d →
      ∃ e ∈ exclusions, e.declaration = c ∧ e.excluded = d := by decide
  cases h with
  | datatype | owlClass => decide
  | property hc hd hne => exact hproperties c hc d hd hne

/-- No IRI has two declarations that exclude each other, in the base or the imports. -/
def Graph.Unmixed (g : Graph) : Prop :=
  ∀ (iri c d : Iri), c.Excludes d → Triple.typing iri c ∈ g → Triple.typing iri d ∉ g

/-- A declaration is not made where there is one that excludes it. -/
theorem TripleSet.Makes.ne_typing (h : S.Makes budget i x t) {c : Iri} (hexcludes : c.Excludes d)
    (hc : Triple.typing iri c ∈ S) : Triple.typing iri d ≠ t := by
  intro he
  cases h with
  | entity _ _ hexcluded =>
    cases he
    obtain ⟨e, he, hdeclaration, rfl⟩ := hexcludes.symm.mem_exclusions
    exact hexcluded e he hdeclaration hc
  | anonymous => cases he

/-- What is made keeps the declarations unmixed. -/
theorem TripleSet.Makes.unmixed (h : g.union.Makes budget i x t) (hg : g.Unmixed) :
    (g.insert t).2.Unmixed := by
  intro iri c d hexcludes hc hd
  rcases Graph.mem_insert.1 hc with hc | hct
  · rcases Graph.mem_insert.1 hd with hd | hdt
    · exact hg iri c d hexcludes hc hd
    · exact h.ne_typing hexcludes (Graph.mem_union.2 hc) hdt
  · rcases Graph.mem_insert.1 hd with hd | hdt
    · exact h.ne_typing hexcludes.symm (Graph.mem_union.2 hd) hct
    · have hsame := hct.trans hdt.symm
      cases hsame
      exact hexcludes.ne rfl

/-! ## Creating -/

namespace Ontology

variable {o o' : Ontology}

/-- The ontology with one more triple in the base, unless some layer holds it. -/
def written (o : Ontology) (t : Triple) : Ontology :=
  { o with bench := { o.bench with graph := (o.graph.insert t).2 } }

/-- Creating under OWL 2 follows the rules, and writes the triple that they give. -/
theorem create_eq_ok_iff (hP : o.personality = .owl2) : o.create i x = (.ok (), o') ↔
    ∃ t, o.triples.Makes o.settings.budget i x t ∧ o.written t = o' := by
  rw [create_eq_ok_iff_factory]
  constructor
  · rintro ⟨f, hf, g, hg, rfl⟩
    rw [hP] at hf
    obtain ⟨m, hm, hcheck, hmake⟩ := Factory.create_eq_ok_iff.1 hg
    have howl2 : (Personality.owl2.factory? i).bind Factory.maker? = some m := by
      rw [hf]
      exact hm
    rcases Personality.maker?_owl2_eq_some_iff.1 howl2 with ⟨k, rfl, rfl⟩ | ⟨rfl, rfl⟩
    · obtain ⟨iri, rfl, rfl⟩ := Maker.make_entity_eq_ok_iff.1 hmake
      obtain ⟨hreserved, hbuiltin, hexcluded⟩ := Maker.check_entity_eq_ok_iff.1 hcheck
      exact ⟨_, .entity hreserved hbuiltin hexcluded, rfl⟩
    · obtain ⟨b, rfl, rfl⟩ := Maker.make_anonymous_eq_ok_iff.1 hmake
      exact ⟨_, .anonymous (Maker.check_anonymous_eq_ok_iff.1 hcheck), rfl⟩
  · rintro ⟨t, hmakes, rfl⟩
    have hmaker : ∃ m, (Personality.owl2.factory? i).bind Factory.maker? = some m ∧
        m.check o.triples o.settings.budget x = .ok () ∧
        m.make o.graph x = (.ok (), (o.graph.insert t).2) := by
      cases hmakes with
      | entity hreserved hbuiltin hexcluded =>
        exact ⟨_, Personality.maker?_owl2_eq_some_iff.2 (Or.inl ⟨_, rfl, rfl⟩),
          Maker.check_entity_eq_ok_iff.2 ⟨hreserved, hbuiltin, hexcluded⟩, rfl⟩
      | anonymous hclass =>
        exact ⟨_, Personality.maker?_owl2_eq_some_iff.2 (Or.inr ⟨rfl, rfl⟩),
          Maker.check_anonymous_eq_ok_iff.2 hclass, rfl⟩
    obtain ⟨m, hm, hcheck, hmake⟩ := hmaker
    obtain ⟨f, hf, hm⟩ := Option.bind_eq_some_iff.1 hm
    rw [← hP] at hf
    exact ⟨f, hf, _, Factory.create_eq_ok_iff.2 ⟨m, hm, hcheck, hmake⟩, rfl⟩

/-- A refused creation leaves the ontology alone. -/
theorem create_of_error {e : CreateError} (h : (o.create i x).1 = .error e) :
    (o.create i x).2 = o := by
  unfold create at h ⊢
  cases hfactory : o.personality.factory i with
  | error e => rfl
  | ok f =>
    rw [hfactory] at h
    dsimp only at h ⊢
    rw [Factory.create_of_error h]

/-- Creating is refused and leaves the ontology alone, or it writes a triple by the rules. -/
theorem create_cases (hP : o.personality = .owl2) :
    (∃ e, o.create i x = (.error e, o)) ∨
      ∃ t, o.triples.Makes o.settings.budget i x t ∧ o.create i x = (.ok (), o.written t) := by
  rcases hcreate : o.create i x with ⟨e | _, o'⟩
  · have hsame := create_of_error (congrArg Prod.fst hcreate)
    rw [hcreate] at hsame
    exact Or.inl ⟨e, congrArg (Prod.mk _) hsame⟩
  · obtain ⟨t, hmakes, rfl⟩ := (create_eq_ok_iff hP).1 hcreate
    exact Or.inr ⟨t, hmakes, rfl⟩

/-- The ontology after requests to create, one after another, met or refused. -/
def createEach (o : Ontology) : List (Interface × Term) → Ontology
  | [] => o
  | (i, x) :: requests => (o.create i x).2.createEach requests

/-- Requests keep the declarations unmixed. -/
theorem unmixed_createEach (hP : o.personality = .owl2) (h : o.graph.Unmixed)
    (requests : List (Interface × Term)) : (o.createEach requests).graph.Unmixed := by
  induction requests generalizing o with
  | nil => exact h
  | cons request requests ih =>
    obtain ⟨i, x⟩ := request
    unfold createEach
    rcases create_cases (i := i) (x := x) hP with ⟨e, hrefused⟩ | ⟨t, hmakes, hwritten⟩
    · rw [hrefused]
      exact ih hP h
    · rw [hwritten]
      exact ih hP (hmakes.unmixed h)

/-- **Creating.** A request to create answers with the ontology it leaves behind.  One that is
refused leaves it as it was.  One that is met takes nothing out, writes one triple to the base at
most, and afterwards the node can be seen under the interface.  Requests never give an IRI
declarations that exclude each other. -/
theorem create_viewable_minimal_unmixed (hP : o.personality = .owl2)
    (hbudget : o.settings.budget ≠ some 0) :
    (∀ i x,
      match o.create i x with
      | (.error _, o') => o' = o
      | (.ok (), o') => o'.graph.imports = o.graph.imports ∧
          (∀ t ∈ o.graph.base, t ∈ o'.graph.base) ∧
          (∃ t, ∀ u ∈ o'.graph.base, u ∈ o.graph.base ∨ u = t) ∧
          o'.canView i x = true) ∧
    (o.graph.Unmixed →
      ∀ requests : List (Interface × Term), (o.createEach requests).graph.Unmixed) := by
  refine ⟨fun i x => ?_, unmixed_createEach hP⟩
  rcases create_cases (i := i) (x := x) hP with ⟨e, hrefused⟩ | ⟨t, hmakes, hwritten⟩
  · rw [hrefused]
  · rw [hwritten]
    refine ⟨Graph.imports_insert, fun u hu => Graph.mem_base_insert_of_mem hu, ⟨t, fun u hu => ?_⟩,
      ?_⟩
    · by_cases hut : u = t
      · exact Or.inr hut
      · exact Or.inl ((Graph.mem_base_insert_of_ne hut).1 hu)
    · have ht : t ∈ (o.written t).triples := Graph.mem_union.2 (Graph.mem_insert.2 (Or.inr rfl))
      obtain ⟨f, hf, hadmits⟩ := hmakes.admits ht hbudget
      unfold canView written
      rw [hP, hf]
      exact hadmits

/-- An import declares a data property, which is refused as an object property and leaves the
ontology as it was; a class is made and is refused as a datatype. -/
theorem create_viewable_minimal_unmixed_imported :
    let p : Iri := .ofValue "http://example.org/p"
    let c : Iri := .ofValue "http://example.org/c"
    let o : Ontology := { bench :=
      ⟨{ imports := [⟨0, .ofList [.typing (.iri p) (.owl .DatatypeProperty)]⟩] }, ⟨"n", 0⟩⟩ }
    let after := o.createEach [(.objectProperty, .node (.iri p)), (.owlClass, .node (.iri c)),
      (.datatype, .node (.iri c))]
    let refusal : MakeError := .incompatibleRole (.node (.iri p)) .objectProperty .dataProperty
    o.personality = .owl2 ∧ o.settings.budget ≠ some 0 ∧ o.graph.Unmixed ∧
      o.create .objectProperty (.node (.iri p)) = (.error (.make refusal), o) ∧
      after.graph.base.toList = [.typing (.iri c) (.owl .Class)] ∧ after.graph.Unmixed ∧
      (o.written (.typing (.iri c) (.owl .Class))).canView .owlClass (.node (.iri c)) = true := by
  intro p c o after refusal
  have hunmixed : o.graph.Unmixed := by
    have honly : ∀ iri d, Triple.typing iri d ∈ o.graph → d = .owl .DatatypeProperty := by
      rintro iri d (hbase | ⟨j, hj, himported⟩)
      · cases hbase
      · rw [List.mem_singleton.1 hj, TripleSet.mem_ofList] at himported
        cases List.mem_singleton.1 himported
        rfl
    intro iri d e hexcludes hd he
    exact hexcludes.ne ((honly _ _ hd).trans (honly _ _ he).symm)
  have hcreate : o.create .owlClass (.node (.iri c)) =
      (.ok (), o.written (.typing (.iri c) (.owl .Class))) := by
    refine (create_eq_ok_iff (by rfl)).2 ⟨_, .entity (k := .owlClass) ?_ ?_ ?_, rfl⟩ <;>
      decide +kernel
  obtain ⟨hone, hall⟩ := create_viewable_minimal_unmixed (o := o) rfl (by decide)
  have hclass := hone .owlClass (.node (.iri c))
  rw [hcreate] at hclass
  have hanswer : (o.create .objectProperty (.node (.iri p))).1 = .error (.make refusal) := by
    decide +kernel
  have hproperty := hone .objectProperty (.node (.iri p))
  rcases hrefused : o.create .objectProperty (.node (.iri p)) with ⟨answer, o'⟩
  rw [hrefused] at hanswer hproperty
  obtain rfl : answer = .error (.make refusal) := hanswer
  obtain rfl : o' = o := hproperty
  exact ⟨rfl, by decide, hunmixed, rfl, by decide +kernel, hall hunmixed _, hclass.2.2.2⟩

end Ontology

end Ontograph
