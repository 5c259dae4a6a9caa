import Mathlib.Data.List.Basic
import Mathlib.Tactic.ByContra
import Ontograph.Graph.Lookup
import Ontograph.Ontology.Basic

/-!
# Listing the nodes of an interface

What is listed under an interface can be seen under it, and is listed once: the leaves test every
term that they find, and repetitions are taken out.  The other direction is a property of each leaf
(`Leaf.FindsAll`): whatever occurs in the graph and passes the test has to be among what the finder
lists.  All leaves of OWL 2 have it but one.

The finder of data range expressions lists the subjects of five predicates, and the classifier takes
a node for a datatype on other evidence too, such as the type `rdfs:Datatype` or being the range of
a data property.  So a blank node that is a data range by other evidence alone can be seen and is
not listed, as a data range expression and as a data range (`TripleSet.Overlooks`); these are the
only nodes that are not (`Ontology.mem_findAll_iff_not_overlooks`).
-/

namespace Ontograph

variable {S : TripleSet} {budget : Option Nat} {x : Term} {p : Iri}

/-- The term is the subject of a triple, or an object that is not a literal. -/
def TripleSet.Occurs (S : TripleSet) (x : Term) : Prop :=
  ∃ t ∈ S, x = .node t.subject ∨ x = t.object ∧ x.isLiteral = false

/-! ## What finders list -/

namespace Finder

variable {f g : Finder}

/-- The finder of nodes lists everything that occurs. -/
theorem mem_find_nodes : x ∈ Finder.nodes.find S ↔ S.Occurs x := by
  simp only [find, List.mem_filter, List.mem_flatMap, List.mem_cons, List.not_mem_nil, or_false,
    Bool.not_eq_true', TripleSet.Occurs]
  constructor
  · rintro ⟨⟨t, ht, hx⟩, hliteral⟩
    exact ⟨t, ht, hx.imp_right fun hx => ⟨hx, hliteral⟩⟩
  · rintro ⟨t, ht, rfl | ⟨hx, hliteral⟩⟩
    · exact ⟨⟨t, ht, Or.inl rfl⟩, rfl⟩
    · exact ⟨⟨t, ht, Or.inr hx⟩, hliteral⟩

/-- A union of finders lists what one of them lists. -/
@[simp] theorem mem_find_union :
    x ∈ (Finder.union f g).find S ↔ x ∈ f.find S ∨ x ∈ g.find S := by
  rw [find, List.mem_eraseDups, List.mem_append]

/-- The finder of subjects lists the nodes with a property. -/
@[simp] theorem mem_find_subjectsOf :
    x ∈ (Finder.subjectsOf p).find S ↔ ∃ n, x = .node n ∧ S.hasProperty n p = true := by
  simp only [find, List.mem_map, TripleSet.mem_uses, TripleSet.hasProperty_iff]
  constructor
  · rintro ⟨⟨n, p, o⟩, ⟨ht, rfl⟩, rfl⟩
    exact ⟨n, rfl, o, ht⟩
  · rintro ⟨n, rfl, o, ht⟩
    exact ⟨⟨n, p, o⟩, ⟨ht, rfl⟩, rfl⟩

end Finder

/-! ## What leaves and factories list -/

namespace Leaf

variable {l : Leaf}

/-- A leaf lists what its finder finds and its filter admits. -/
theorem mem_findAll :
    x ∈ l.findAll S budget ↔ x ∈ l.finder.find S ∧ l.admits S budget x = true := by
  rw [findAll, List.mem_filter, List.mem_eraseDups]

/-- The finder lists everything that occurs and passes the filter. -/
def FindsAll (l : Leaf) : Prop :=
  ∀ (S : TripleSet) (budget : Option Nat) (x : Term),
    S.Occurs x → l.admits S budget x = true → x ∈ l.finder.find S

/-- A leaf whose finder lists every node misses nothing. -/
theorem findsAll_of_nodes (h : l.finder = .nodes) : l.FindsAll := by
  intro S budget x hx _
  rw [h]
  exact Finder.mem_find_nodes.2 hx

/-- A leaf whose finder lists the properties misses nothing. -/
theorem findsAll_of_properties (h : l.finder = Personality.propertyFinder) : l.FindsAll := by
  intro S budget x hx _
  rw [h]
  exact Finder.mem_find_union.2 (Or.inr (Finder.mem_find_nodes.2 hx))

/-- A filter that asks for a predicate only passes subjects of the predicate. -/
theorem findsAll_of_subjects (h : l.finder = .subjectsOf p)
    (hfilter : ∀ S budget x, l.filter.accepts S budget x = true →
      (Filter.has p).accepts S budget x = true) : l.FindsAll := by
  intro S budget x _ hadmits
  rw [h, Finder.mem_find_subjectsOf]
  have hhas : (Filter.has p).accepts S budget x = true := hfilter S budget x hadmits
  cases x with
  | node n => exact ⟨n, rfl, hhas⟩
  | literal => cases hhas

end Leaf

namespace Factory

variable {f : Factory}

/-- A factory admits what one of its leaves admits. -/
theorem admits_iff : f.admits S budget x = true ↔ ∃ l ∈ f.leaves, l.admits S budget x = true :=
  List.any_eq_true

/-- A factory lists what the finder of one of its leaves finds and that leaf admits. -/
theorem mem_findAll : x ∈ f.findAll S budget ↔
    ∃ l ∈ f.leaves, x ∈ l.finder.find S ∧ l.admits S budget x = true := by
  simp only [findAll, List.mem_eraseDups, List.mem_flatMap, Leaf.mem_findAll]

/-- A factory lists nothing twice. -/
theorem nodup_findAll : (f.findAll S budget).Nodup := Graph.nodup_eraseDups _

/-- A factory admits whatever it lists. -/
theorem admits_of_mem_findAll (h : x ∈ f.findAll S budget) : f.admits S budget x = true := by
  obtain ⟨l, hl, -, hx⟩ := mem_findAll.1 h
  exact admits_iff.2 ⟨l, hl, hx⟩

end Factory

/-! ## The factories of OWL 2 -/

namespace Personality

variable {i : Interface} {l : Leaf}

/-- Every interface has a factory, made of the leaves of the interface and of its components. -/
theorem exists_factory (i : Interface) : ∃ f, owl2.factory? i = some f ∧ f.interface = i ∧
    (∀ l ∈ f.leaves, l ∈ owl2Leaves ∧ (l.interface = i ∨ l.interface ∈ i.components)) ∧
    ∀ l ∈ owl2Leaves, l.interface = i ∨ l.interface ∈ i.components → l ∈ f.leaves := by
  cases i <;> exact ⟨_, rfl, rfl, by decide, by decide⟩

/-- The predicates whose subjects are listed as data ranges. -/
def dataRangePredicates : List Iri :=
  [.owl .onDatatype, .owl .datatypeComplementOf, .owl .unionOf, .owl .intersectionOf, .owl .oneOf]

/-- The leaf of data range expressions finds the subjects of five predicates. -/
theorem mem_find_dataRangeExpression (hl : l ∈ owl2Leaves)
    (hi : l.interface = .dataRangeExpression) :
    x ∈ l.finder.find S ↔ ∃ p ∈ dataRangePredicates, ∃ n, x = .node n ∧
      S.hasProperty n p = true := by
  have hfinder : ∀ l ∈ owl2Leaves, l.interface = .dataRangeExpression → l.finder =
      .union (.subjectsOf (.owl .onDatatype)) (.union (.subjectsOf (.owl .datatypeComplementOf))
        (.union (.subjectsOf (.owl .unionOf)) (.union (.subjectsOf (.owl .intersectionOf))
          (.subjectsOf (.owl .oneOf))))) := by decide
  rw [hfinder l hl hi]
  simp only [Finder.mem_find_union, Finder.mem_find_subjectsOf, dataRangePredicates,
    List.exists_mem_cons_iff, List.not_mem_nil, false_and, exists_false, or_false]

/-- All other leaves find everything that they admit. -/
theorem findsAll_of_mem_owl2Leaves (hl : l ∈ owl2Leaves)
    (hi : l.interface ≠ .dataRangeExpression) : l.FindsAll := by
  have hhas : ∀ S budget x (r : Filter), (Filter.and .blank r).accepts S budget x = true →
      r.accepts S budget x = true := fun _ _ _ _ h => (Bool.and_eq_true_iff.1 h).2
  have hnoDatatype : ∀ S budget x (r : Filter),
      (Filter.and (.and .blank r) (.not (.isA .datatype))).accepts S budget x = true →
        r.accepts S budget x = true :=
    fun S budget x r h => hhas S budget x r (Bool.and_eq_true_iff.1 h).1
  simp only [owl2Leaves, List.mem_cons, List.not_mem_nil, or_false] at hl
  rcases hl with rfl | rfl | rfl | rfl | rfl | rfl | rfl | rfl | rfl | rfl | rfl | rfl | rfl | rfl
  · exact Leaf.findsAll_of_nodes rfl
  · exact Leaf.findsAll_of_nodes rfl
  · exact Leaf.findsAll_of_properties rfl
  · exact Leaf.findsAll_of_properties rfl
  · exact Leaf.findsAll_of_properties rfl
  · exact Leaf.findsAll_of_nodes rfl
  · exact Leaf.findsAll_of_nodes rfl
  · exact Leaf.findsAll_of_subjects rfl fun S budget x => hhas S budget x _
  · exact Leaf.findsAll_of_subjects rfl fun S budget x => hnoDatatype S budget x _
  · exact Leaf.findsAll_of_subjects rfl fun S budget x => hnoDatatype S budget x _
  · exact Leaf.findsAll_of_subjects rfl fun S budget x => hnoDatatype S budget x _
  · exact Leaf.findsAll_of_subjects rfl fun S budget x => hhas S budget x _
  · exact Leaf.findsAll_of_subjects rfl fun S budget x => hhas S budget x _
  · exact absurd rfl hi

end Personality

/-! ## What is overlooked -/

open Personality

/-- A blank node that has none of the predicates whose subjects are listed as data ranges, where
data ranges are asked for. -/
def TripleSet.Overlooks (S : TripleSet) (i : Interface) (x : Term) : Prop :=
  i ∈ [.dataRangeExpression, .dataRange] ∧
    ∃ b : Blank, x = .node b ∧ ∀ p ∈ dataRangePredicates, S.hasProperty b p = false

/-- A factory of OWL 2 lists whatever it admits, unless it is overlooked. -/
theorem Factory.mem_findAll_iff {i : Interface} {f : Factory} (hf : owl2.factory? i = some f)
    (hx : S.Occurs x) (hadmits : f.admits S budget x = true) :
    x ∈ f.findAll S budget ↔ ¬ S.Overlooks i x := by
  obtain ⟨f', hf', -, hleaf, -⟩ := exists_factory i
  obtain rfl : f' = f := Option.some.inj (hf'.symm.trans hf)
  rw [mem_findAll]
  constructor
  · rintro ⟨l, hl, hfound, haccepts⟩ ⟨hi, b, rfl, hnone⟩
    obtain ⟨hl, hinterface⟩ := hleaf l hl
    -- a leaf of data ranges asks for a name, or finds the subjects of the five predicates
    have hkinds : ∀ i ∈ [Interface.dataRangeExpression, .dataRange], ∀ l ∈ owl2Leaves,
        l.interface = i ∨ l.interface ∈ i.components →
        l.interface = .dataRangeExpression ∨ l.filter = .and .named (.isA .datatype) := by
      decide
    rcases hkinds i hi l hl hinterface with hdata | hnamed
    · obtain ⟨p, hp, n, hn, hhas⟩ := (mem_find_dataRangeExpression hl hdata).1 hfound
      cases hn
      rw [hnone p hp] at hhas
      cases hhas
    · unfold Leaf.admits at haccepts
      rw [hnamed] at haccepts
      cases haccepts
  · intro hnot
    obtain ⟨l, hl, haccepts⟩ := admits_iff.1 hadmits
    refine ⟨l, hl, ?_, haccepts⟩
    obtain ⟨hl, hinterface⟩ := hleaf l hl
    by_cases hdata : l.interface = .dataRangeExpression
    · have hcomposite : ∀ i : Interface, Interface.dataRangeExpression = i ∨
          .dataRangeExpression ∈ i.components → i ∈ [.dataRangeExpression, .dataRange] := by
        intro i
        cases i <;> decide
      rw [hdata] at hinterface
      have hfilter : ∀ l ∈ owl2Leaves, l.interface = .dataRangeExpression →
          l.filter = .and .blank (.isA .datatype) := by decide
      unfold Leaf.admits at haccepts
      rw [hfilter l hl hdata] at haccepts
      have hblank : x.isBlank = true := (Bool.and_eq_true_iff.1 haccepts).1
      match x, hblank with
      | .node (.blank b), _ =>
        by_contra hnone
        refine hnot ⟨hcomposite i hinterface, b, rfl, fun p hp => ?_⟩
        rw [← Bool.not_eq_true]
        exact fun hhas => hnone
          ((mem_find_dataRangeExpression hl hdata).2 ⟨p, hp, _, rfl, hhas⟩)
    · exact findsAll_of_mem_owl2Leaves hl hdata S budget x hx haccepts

namespace Ontology

variable (o : Ontology)

/-- What is listed under an interface of OWL 2 is listed once and can be seen under it.  A term
that occurs in the graph and can be seen is listed, unless it is one of the blank nodes that the
finder of data range expressions overlooks; and those are not listed. -/
theorem mem_findAll_iff_not_overlooks (i : Interface) :
    ∃ xs, (o.withPersonality .owl2).findAll i = .ok xs ∧ xs.Nodup ∧
      (∀ x ∈ xs, (o.withPersonality .owl2).canView i x = true) ∧
      ∀ x, o.triples.Occurs x → (o.withPersonality .owl2).canView i x = true →
        (x ∈ xs ↔ ¬ o.triples.Overlooks i x) := by
  obtain ⟨f, hf, -⟩ := exists_factory i
  have hcan : ∀ x, (o.withPersonality .owl2).canView i x =
      f.admits o.triples o.settings.budget x := by
    intro x
    unfold canView withPersonality
    rw [hf]
    rfl
  refine ⟨f.findAll o.triples o.settings.budget, ?_, Factory.nodup_findAll, ?_, ?_⟩
  · unfold findAll withPersonality Personality.factory
    rw [hf]
    rfl
  · intro x hx
    rw [hcan]
    exact Factory.admits_of_mem_findAll hx
  · intro x hx hview
    rw [hcan] at hview
    exact Factory.mem_findAll_iff hf hx hview

/-- A node that can be seen need not be listed: a blank node that is only said to be a datatype can
be seen as a data range, and as a data range expression, and is listed as neither. -/
theorem findAll_overlooks_typed_blank :
    let b : Node := .blank ⟨"b"⟩
    let o : Ontology :=
      { bench := ⟨{ base := .ofList [.typing b (.rdfs .Datatype)] }, ⟨"n", 0⟩⟩ }
    o.triples.Occurs b ∧ ∀ i ∈ [Interface.dataRangeExpression, .dataRange],
      o.canView i b = true ∧ o.findAll i = .ok [] := by
  refine ⟨⟨.typing (.blank ⟨"b"⟩) (.rdfs .Datatype), by decide, Or.inl rfl⟩, ?_⟩
  intro i hi
  rcases List.mem_cons.1 hi with rfl | hi
  · exact ⟨by decide, rfl⟩
  · rcases List.mem_singleton.1 hi with rfl
    exact ⟨by decide, rfl⟩

end Ontology

end Ontograph
