import Mathlib.Data.Set.Basic
import Ontograph.Proofs.Classify.OrderIndependence
import Ontograph.Proofs.Mapping.Remarks

/-!
# Reading does not depend on the order of the triples

Every reader of the mapping takes a first object where it needs one, so two sources with the same
triples, which leave no choice, are read alike: each reader is the same step of reading in both.
What order is left in what is read from a main triple, that of the nodes that stand for it and that
of the remarks on each of them, is lost in the set of axioms (`Source.readings`).
-/

namespace Ontograph

namespace Source

/-- What is read from a source, in no order: each axiom with its main triple and with all triples of
its footprint. -/
def readings (R : Source) : Set (AnnotatedAxiom × Triple × Set Triple) :=
  {x | ∃ e ∈ R.scan, x = (e.1, e.2.main, {t | t ∈ e.2.triples})}

/-- The sources hold the same triples, which leave no choice, and are read with one setting, which
does not bound the search for categories. -/
structure Alike (R R' : Source) : Prop where
  triples : R.triples.Alike R'.triples
  settings : R.settings = R'.settings
  budget : R.settings.budget = none

namespace Alike

variable {R R' : Source} {n : Node} {p c : Iri} {x : Term} {t : Triple}

/-- Two sources with the same triples are alike either way round. -/
theorem symm (h : R.Alike R') : R'.Alike R where
  triples := h.triples.symm
  settings := h.settings.symm
  budget := h.settings ▸ h.budget

/-! ## Expressions -/

/-- A term is of the same categories in whatever order of the triples. -/
theorem isA (h : R.Alike R') {c : Category} : R.isA c x = R'.isA c x := by
  rw [Source.isA, Source.isA, ← h.settings, h.budget, h.triples.isA]

/-- An object of which there is one is read alike. -/
theorem required (h : R.Alike R') (hp : p ∈ TripleSet.readOnce) :
    R.required n p = R'.required n p := by
  simp only [Source.required, h.triples.object? hp]

/-- A type is read alike. -/
theorem noteType (h : R.Alike R') : R.noteType n c = R'.noteType n c := by
  simp only [Source.noteType, h.triples.hasType]

/-- A list is read alike. -/
theorem list (h : R.Alike R') : R.list x = R'.list x := by
  simp only [Source.list, h.settings, h.triples.toOption_readList, h.triples.listTriples]

/-- A property is of the same sort in whatever order of the triples. -/
theorem sortOf? (h : R.Alike R') : R.sortOf? x = R'.sortOf? x := by
  simp only [Source.sortOf?, h.isA, h.triples.hasProperty]

/-- An object property expression is read alike. -/
theorem objectProperty (h : R.Alike R') : R.objectProperty x = R'.objectProperty x := by
  simp (disch := decide) only [Source.objectProperty, h.required]

/-- A node has a single triple in both sets or in none. -/
theorem facet (h : R.Alike R') : R.facet x = R'.facet x := by
  refine congrArg (individual x >>= ·) (funext fun n => ?_)
  -- with one triple the lists are the same, and with another number of them both readers fail
  have hperm := h.triples.outgoing_perm (n := n)
  generalize R.triples.outgoing n = ts at hperm ⊢
  generalize R'.triples.outgoing n = us at hperm ⊢
  match ts, us, hperm with
  | [], us, hperm => rw [List.nil_perm.1 hperm]
  | [t], us, hperm => rw [← List.singleton_perm.1 hperm]
  | t :: t' :: ts, us, hperm =>
    match us, hperm.length_eq with
    | u :: u' :: us, _ => rfl

/-- Operands are read alike, if one object is read for them. -/
theorem operandsOf (h : R.Alike R') {α : Type} {inner : Term → Reading α}
    (hp : p ∈ TripleSet.readOnce) : R.operandsOf inner n p = R'.operandsOf inner n p := by
  simp only [Source.operandsOf, h.required hp, h.list]

/-- What is said of a data range at a node is read alike. -/
theorem dataRangeAt (h : R.Alike R') {inner : Term → Reading DataRange} :
    R.dataRangeAt inner n = R'.dataRangeAt inner n := by
  have hfacet : R.facet = R'.facet := funext fun _ => h.facet
  simp (disch := decide) only [Source.dataRangeAt, h.noteType, h.triples.hasProperty, h.operandsOf,
    h.required, hfacet]

/-- A data range inside of others is read alike. -/
theorem dataRangeIn (h : R.Alike R') (within : List Node) (x : Term) :
    R.dataRangeIn within x = R'.dataRangeIn within x := by
  -- both readers go into the same blank nodes: those described and not gone into before
  induction within, x using Source.dataRangeIn.induct R with
  | case1 within d => rw [Source.dataRangeIn, Source.dataRangeIn]
  | case2 within b hnew _ ih =>
    rw [Source.dataRangeIn, Source.dataRangeIn, dif_pos hnew,
      dif_pos (h.triples.describes ▸ hnew), funext ih, h.dataRangeAt]
  | case3 within b hold =>
    rw [Source.dataRangeIn, Source.dataRangeIn, dif_neg hold,
      dif_neg (h.triples.describes ▸ hold)]
  | case4 within l => rw [Source.dataRangeIn, Source.dataRangeIn]

/-- A bound and its filler are read alike. -/
theorem bounded (h : R.Alike R') (hp : p ∈ TripleSet.readOnce) :
    R.bounded n p = R'.bounded n p := by
  have hplain : ∀ b : Bound, b.plain ∈ TripleSet.readOnce := fun b => by cases b <;> decide
  have hqualified : ∀ b : Bound, b.qualified ∈ TripleSet.readOnce := fun b => by cases b <;> decide
  have hgo : ∀ bs, bounded.go R n p bs = bounded.go R' n p bs := by
    intro bs
    induction bs with
    | nil => rfl
    | cons b bs ih =>
      simp only [bounded.go, h.triples.hasProperty, h.required (hplain b),
        h.required (hqualified b), h.required hp, ih]
  exact hgo Bound.all

/-- A restriction on an object property is read alike. -/
theorem objectRestriction (h : R.Alike R') {inner : Term → Reading ClassExpr}
    {e : ObjectPropertyExpr} : R.objectRestriction inner n e = R'.objectRestriction inner n e := by
  simp (disch := decide) only [Source.objectRestriction, h.triples.hasProperty, h.required,
    h.bounded]

/-- A restriction on a data property is read alike. -/
theorem dataRestriction (h : R.Alike R') {inner : Term → Reading DataRange} :
    R.dataRestriction inner n p = R'.dataRestriction inner n p := by
  simp (disch := decide) only [Source.dataRestriction, h.triples.hasProperty, h.required,
    h.bounded]

/-- What is said of a class at a node is read alike. -/
theorem classExprAt (h : R.Alike R') {inner : Term → Reading ClassExpr}
    {innerData : Term → Reading DataRange} :
    R.classExprAt inner innerData n = R'.classExprAt inner innerData n := by
  simp (disch := decide) only [Source.classExprAt, h.triples.hasProperty, h.noteType, h.required,
    h.sortOf?, h.objectProperty, h.objectRestriction, h.dataRestriction, h.operandsOf]

/-- A class expression inside of others is read alike. -/
theorem classExprIn (h : R.Alike R') (within : List Node) (x : Term) :
    R.classExprIn within x = R'.classExprIn within x := by
  induction within, x using Source.classExprIn.induct R with
  | case1 within c => rw [Source.classExprIn, Source.classExprIn]
  | case2 within b hnew _ ih =>
    rw [Source.classExprIn, Source.classExprIn, dif_pos hnew,
      dif_pos (h.triples.describes ▸ hnew), funext ih, funext (h.dataRangeIn _), h.classExprAt]
  | case3 within b hold =>
    rw [Source.classExprIn, Source.classExprIn, dif_neg hold,
      dif_neg (h.triples.describes ▸ hold)]
  | case4 within l => rw [Source.classExprIn, Source.classExprIn]

/-- A data range is read alike. -/
theorem dataRange (h : R.Alike R') : R.dataRange x = R'.dataRange x := h.dataRangeIn [] x

/-- A class expression is read alike. -/
theorem classExpr (h : R.Alike R') : R.classExpr x = R'.classExpr x := h.classExprIn [] x

/-! ## Axioms -/

/-- A node belongs to the structure in both sources or in none. -/
theorem isStructural (h : R.Alike R') : R.isStructural n = R'.isStructural n := by
  simp only [Source.isStructural, h.triples.hasType, h.triples.hasProperty]

/-- An assertion is read alike. -/
theorem assertion (h : R.Alike R') : R.assertion n p x = R'.assertion n p x := by
  simp only [Source.assertion, h.isStructural, h.isA]

/-- A typing of an entity is read alike. -/
theorem entityTyping? (h : R.Alike R') : R.entityTyping? p c = R'.entityTyping? p c := by
  simp only [Source.entityTyping?, h.isA]

/-- A negative assertion is read alike. -/
theorem negativeAssertion (h : R.Alike R') : R.negativeAssertion n = R'.negativeAssertion n := by
  simp (disch := decide) only [Source.negativeAssertion, h.required, h.triples.hasProperty]

/-- A group is read alike. -/
theorem group (h : R.Alike R') : R.group n c = R'.group n c := by
  have hclassExpr : R.classExpr = R'.classExpr := funext fun _ => h.classExpr
  have hsortOf : R.sortOf? = R'.sortOf? := funext fun _ => h.sortOf?
  simp (disch := decide) only [Source.group, h.required, h.triples.hasProperty, h.list,
    hclassExpr, hsortOf]

/-- A typing is read alike. -/
theorem typing (h : R.Alike R') : R.typing n x = R'.typing n x := by
  simp only [Source.typing, h.isStructural, h.classExpr, h.negativeAssertion, h.group,
    h.entityTyping?]

/-- A property below another is read alike. -/
theorem subProperty (h : R.Alike R') : R.subProperty n x = R'.subProperty n x := by
  simp only [Source.subProperty, Source.sortOfEither?, h.sortOf?, h.objectProperty]

/-- The sort of two properties is found alike. -/
theorem pairSort (h : R.Alike R') : R.pairSort n x = R'.pairSort n x := by
  simp only [Source.pairSort, Source.sortOfEither?, h.sortOf?]

/-- A domain is read alike. -/
theorem domain (h : R.Alike R') : R.domain n x = R'.domain n x := by
  simp only [Source.domain, h.sortOf?, h.classExpr]

/-- A range is read alike. -/
theorem range (h : R.Alike R') : R.range n x = R'.range n x := by
  simp only [Source.range, h.sortOf?, h.classExpr, h.dataRange]

/-- An equivalence is read alike. -/
theorem equivalence (h : R.Alike R') : R.equivalence n x = R'.equivalence n x := by
  simp only [Source.equivalence, h.isA, h.classExpr, h.dataRange]

/-- A key is read alike. -/
theorem key (h : R.Alike R') : R.key n x = R'.key n x := by
  simp only [Source.key, h.list, h.isA, h.classExpr]

/-- The same axiom is read from a triple in both sources, and the same triples are gathered. -/
theorem statement (h : R.Alike R') : R.statement t = R'.statement t := by
  have hclassExpr : R.classExpr = R'.classExpr := funext fun _ => h.classExpr
  have hobjectProperty : R.objectProperty = R'.objectProperty := funext fun _ => h.objectProperty
  simp only [Source.statement, h.triples.hasType, h.typing, hclassExpr, h.equivalence, h.list,
    h.subProperty, hobjectProperty, h.pairSort, h.domain, h.range, h.key, h.assertion]

/-! ## Remarks -/

/-- A node has the same remarks in both sources. -/
theorem mem_remarkTriples (h : R.Alike R') (t : Triple) :
    t ∈ R.remarkTriples n ↔ t ∈ R'.remarkTriples n := by
  rw [remarkTriples, remarkTriples, List.mem_filter, List.mem_filter, h.triples.mem_outgoing]

/-- The same nodes stand for a triple in both sources. -/
theorem mem_reifiers (h : R.Alike R') (n : Node) : n ∈ R.reifiers t ↔ n ∈ R'.reifiers t := by
  simp only [reifiers, List.mem_filter, h.triples.mem_subjects, h.triples.mem]

/-- The reification of a triple is the same in both sources. -/
theorem reification (h : R.Alike R') : R.reification n t = R'.reification n t := by
  simp only [Source.reification, h.triples.hasType]

/-- The remarks on a node come in the same canonical order. -/
theorem canonical_remarks (h : R.Alike R')
    (hplain : ∀ t ∈ R.triples, '>' ∉ t.predicate.value.toList) :
    Remark.canonical (remarksOf (R.remarkTriples n)) =
      Remark.canonical (remarksOf (R'.remarkTriples n)) := by
  have hsame : ∀ r, r ∈ remarksOf (R.remarkTriples n) ↔ r ∈ remarksOf (R'.remarkTriples n) := by
    intro r
    simp only [remarksOf, List.mem_map, h.mem_remarkTriples]
  refine (Remark.told_of_notMem fun r hr => ?_).canonical_eq hsame
  obtain ⟨t, ht, rfl⟩ := List.mem_map.1 hr
  exact hplain t (TripleSet.mem_outgoing.1 (List.mem_of_mem_filter ht)).1

/-! ## Whole sources -/

/-- The remarks on a node give the axiom the same remarks, and its footprint the same triples. -/
theorem noted (h : R.Alike R') (hplain : ∀ t ∈ R.triples, '>' ∉ t.predicate.value.toList)
    {main : Triple} {ax : Axiom} {ts : List Triple} :
    (R'.noted main ax ts n).1 = (R.noted main ax ts n).1 ∧
      ∀ t, t ∈ (R'.noted main ax ts n).2.triples ↔ t ∈ (R.noted main ax ts n).2.triples := by
  constructor
  · exact congrArg (AnnotatedAxiom.mk ax) (h.canonical_remarks hplain).symm
  · intro t
    simp only [Source.noted, Footprint.mem_triples_of, List.mem_append, h.mem_remarkTriples]

/-- Each axiom read from a triple in one source is read from it in the other one, with a footprint
of the same triples. -/
theorem exists_mem_axiomsAt (h : R.Alike R')
    (hplain : ∀ t ∈ R.triples, '>' ∉ t.predicate.value.toList) {main : Triple}
    {e : AnnotatedAxiom × Footprint} (he : e ∈ R.axiomsAt main) :
    ∃ e' ∈ R'.axiomsAt main, e'.1 = e.1 ∧ ∀ t, t ∈ e'.2.triples ↔ t ∈ e.2.triples := by
  cases mem_axiomsAt_iff.1 he with
  | rooted hm hrun =>
    rw [h.statement] at hrun
    exact ⟨_, mem_axiomsAt_iff.2 (.rooted ((h.triples.mem _).1 hm) hrun), h.noted hplain⟩
  | bare hm hrun hnone =>
    have hnone' : R'.reifiers main = [] := by
      refine List.eq_nil_iff_forall_not_mem.2 fun n hn => ?_
      rw [← h.mem_reifiers, hnone] at hn
      cases hn
    rw [h.statement] at hrun
    exact ⟨_, mem_axiomsAt_iff.2 (.bare ((h.triples.mem _).1 hm) hrun hnone'), rfl,
      fun _ => Iff.rfl⟩
  | reified hm hrun hn =>
    rw [h.statement] at hrun
    rw [h.reification]
    exact ⟨_, mem_axiomsAt_iff.2 (.reified ((h.triples.mem _).1 hm) hrun
      ((h.mem_reifiers _).1 hn)), h.noted hplain⟩

/-- What is read from a source is read from one like it, if remarks are told apart by their
texts. -/
theorem readings_subset (h : R.Alike R')
    (hplain : ∀ t ∈ R.triples, '>' ∉ t.predicate.value.toList) : R.readings ⊆ R'.readings := by
  rintro _ ⟨e, he, rfl⟩
  obtain ⟨main, hmain, he⟩ := List.mem_flatMap.1 he
  obtain ⟨e', he', hread, htriples⟩ := h.exists_mem_axiomsAt hplain he
  refine ⟨e', List.mem_flatMap.2 ⟨main, (h.triples.mem _).1 hmain, he'⟩, ?_⟩
  have hset : {t | t ∈ e'.2.triples} = {t | t ∈ e.2.triples} := Set.ext htriples
  rw [hread, main_of_mem_axiomsAt he, main_of_mem_axiomsAt he', hset]

/-- The same axioms are read from both sources, with the same main triples and footprints. -/
theorem readings_eq (h : R.Alike R')
    (hplain : ∀ t ∈ R.triples, '>' ∉ t.predicate.value.toList) : R.readings = R'.readings :=
  Set.Subset.antisymm (h.readings_subset hplain)
    (h.symm.readings_subset fun t ht => hplain t ((h.triples.mem t).2 ht))

end Alike

end Source

/-! ## Graphs -/

namespace Graph

/-- Graphs hold the same triples if their unions list the same triples. -/
theorem mem_iff_of_perm {g h : Graph} (hperm : g.union.toList.Perm h.union.toList) (t : Triple) :
    t ∈ g ↔ t ∈ h := by
  rw [← mem_union, ← mem_union]
  exact hperm.mem_iff

/-- What holds of every triple of a graph holds of the list of its union. -/
theorem forall_mem_iff {g : Graph} {P : Triple → Prop} :
    (∀ t ∈ g, P t) ↔ ∀ t ∈ g.union.toList, P t :=
  forall_congr' fun _ => imp_congr_left mem_union.symm

/-- **Order and layer independence.** Two graphs hold the same triples, whatever the order and the
layers they are in.  If every node has at most one object for each predicate of which one object is
read, every cell other than `rdf:nil` is the rest of at most one cell, `rdf:nil` is no cell, and no
predicate has a `>` in it, then without budget both graphs classify every term alike, and the same
axioms are read from both, with the same main triples and footprints. -/
theorem isA_and_readings_eq_of_mem_iff {g h : Graph} {s : Settings}
    (hsame : ∀ t, t ∈ g ↔ t ∈ h) (hg : g.union.Unambiguous)
    (hplain : ∀ t ∈ g, '>' ∉ t.predicate.value.toList) (hbudget : s.budget = none) :
    (∀ c x, g.union.isA s.budget c x = h.union.isA s.budget c x) ∧
      Source.readings ⟨g.union, s⟩ = Source.readings ⟨h.union, s⟩ := by
  have hunions : g.union.Alike h.union := by
    refine ⟨fun t => ?_, hg⟩
    rw [mem_union, mem_union, hsame]
  have hsources : Source.Alike ⟨g.union, s⟩ ⟨h.union, s⟩ := ⟨hunions, rfl, hbudget⟩
  constructor
  · intro c x
    rw [hbudget]
    exact hunions.isA
  · exact hsources.readings_eq fun t ht => hplain t (mem_union.1 ht)

/-- An axiom with two remarks, once in the base and once spread over two layers: what is read comes
in two different orders. -/
theorem isA_and_readings_eq_of_mem_iff_restriction :
    let a : Node := .iri (.ofValue "http://example.org/a")
    let b : Node := .iri (.ofValue "http://example.org/b")
    let p : Node := .iri (.ofValue "http://example.org/p")
    let r : Node := .blank ⟨"r"⟩
    let n : Node := .blank ⟨"n"⟩
    let shape : List Triple := [⟨a, .rdfs .subClassOf, r⟩, ⟨r, .owl .onProperty, p⟩,
      ⟨r, .owl .someValuesFrom, b⟩, ⟨n, .rdfs .label, .literal (.plain "one")⟩]
    let notes : List Triple := [.typing p (.owl .ObjectProperty), ⟨n, .owl .annotatedSource, a⟩,
      ⟨n, .owl .annotatedProperty, .node (.iri (.rdfs .subClassOf))⟩,
      ⟨n, .owl .annotatedTarget, r⟩, ⟨n, .rdfs .comment, .literal (.plain "two")⟩]
    let g : Graph := { base := .ofList (shape ++ notes) }
    let h : Graph := { base := .ofList notes, imports := [⟨0, .ofList shape⟩] }
    (Source.scan ⟨g.union, {}⟩).map Prod.snd ≠ (Source.scan ⟨h.union, {}⟩).map Prod.snd ∧
      (∀ c x, g.union.isA none c x = h.union.isA none c x) ∧
      Source.readings ⟨g.union, {}⟩ = Source.readings ⟨h.union, {}⟩ := by
  intro a b p r n shape notes g h
  have hsame : ∀ t, t ∈ g ↔ t ∈ h := mem_iff_of_perm (by decide +kernel)
  have hplain : ∀ t ∈ g, '>' ∉ t.predicate.value.toList := forall_mem_iff.2 (by decide +kernel)
  have hg : g.union.Unambiguous := by decide +kernel
  have hne : (Source.scan ⟨g.union, {}⟩).map Prod.snd ≠
      (Source.scan ⟨h.union, {}⟩).map Prod.snd := by decide +kernel
  have hs : ({} : Settings).budget = none := rfl
  exact ⟨hne, isA_and_readings_eq_of_mem_iff hsame hg hplain hs⟩

end Graph

end Ontograph
