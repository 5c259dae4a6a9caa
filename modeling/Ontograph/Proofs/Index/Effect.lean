import Ontograph.Proofs.Index.Removals
import Ontograph.Proofs.Mapping.Detaching

/-!
# What a removal achieves

A removal keeps the triples that other axioms are read from, so the axiom may still be read from the
graph afterwards (`AxiomStore.not_takesEffect_undetached`).  It is not if the triples that leave
detach it from the graph (`AxiomStore.takesEffect_of_detaches`), whether the store has an index or
finds the axioms near the axiom by searching the graph; only the triples that leave differ.
-/

namespace Ontograph

open Source

namespace AxiomStore

variable {st : AxiomStore} {s : Settings} {w : Workbench} {a : AnnotatedAxiom}
  {written : Footprint} {supply : Supply} {ts : List Triple}

/-- If the removal of an axiom answers true, the axiom is read from the graph no more. -/
def TakesEffect (st : AxiomStore) (w : Workbench) (a : AnnotatedAxiom) : Prop :=
  (st.remove w a).1 = .ok true → ∀ f, (a, f) ∉ (st.source (st.remove w a).2.2.graph).scan

instance : Decidable (st.TakesEffect w a) :=
  decidable_of_iff ((st.remove w a).1 = .ok true →
      ∀ r ∈ (st.source (st.remove w a).2.2.graph).scan, r.1 ≠ a)
    ⟨fun h htrue _ hf => h htrue _ hf rfl, fun h htrue r hr ha => h htrue r.2 (ha ▸ hr)⟩

/-- The triples of the graph after some have left that no import holds. -/
theorem source_removeAll (himported : ∀ t ∈ ts, w.graph.isImported t = false) :
    (⟨(w.graph.removeAll ts).2.union, s⟩ : Source) = Source.without ⟨w.graph.union, s⟩ ts := by
  unfold Source.without
  congr 1
  exact TripleSet.eq_of_toList (Graph.toList_union_removeAll himported)

/-- A store that has just built its index reads with the settings it was given. -/
theorem source_built {g : Graph} : (built s w.graph).source g = ⟨g.union, s⟩ := by
  rw [built_eq, source]

/-- With an index, a removal takes the triples that only the axiom is read from. -/
theorem graph_remove_built (h : ((built s w.graph).remove w a).1 = .ok true) :
    ∃ ts, (∀ t, t ∈ ts ↔ Source.Leaves ⟨w.graph.union, s⟩ a t) ∧
      (⟨((built s w.graph).remove w a).2.2.graph.union, s⟩ : Source) =
        Source.without ⟨w.graph.union, s⟩ ts ∧
      ∃ f, (a, f) ∈ Source.scan ⟨w.graph.union, s⟩ := by
  by_cases hread : ∃ f, (a, f) ∈ Source.scan ⟨w.graph.union, s⟩
  · obtain ⟨ts, hleaving, hts⟩ := leaving?_built hread
    rcases remove_of_leaving sync_built hleaving with ⟨-, hanswer, -⟩ | ⟨hfree, -, hgraph⟩
    · rw [hanswer] at h
      cases h
    · refine ⟨ts, hts, ?_, hread⟩
      rw [hgraph]
      exact source_removeAll fun t ht => Bool.eq_false_iff.2 fun himported =>
        hfree ⟨t, ht, himported⟩
  · rw [remove_eq_of_leaving_none sync_built (leaving?_built_of_not_read hread)] at h
    cases h

/-- Without an index, a removal takes the triples, where the axiom is found, that no axiom near them
is read from. -/
theorem graph_remove_bare (hencode : a.encode w.supply = .ok (written, supply))
    (h : (({ settings := s } : AxiomStore).remove w a).1 = .ok true) :
    ∃ ts, (∀ t, t ∈ ts ↔ Source.LeavesNear ⟨w.graph.union, s⟩ a written t) ∧
      (⟨(({ settings := s } : AxiomStore).remove w a).2.2.graph.union, s⟩ : Source) =
        Source.without ⟨w.graph.union, s⟩ ts ∧
      ∃ f, (a, f) ∈ Source.scan ⟨w.graph.union, s⟩ := by
  have hsync : sync ⟨s, none, w.graph.generation⟩ w.graph = ⟨s, none, w.graph.generation⟩ :=
    if_pos rfl
  rw [remove_bare] at h ⊢
  by_cases hlocated : ∃ f, Source.Locates ⟨w.graph.union, s⟩ a written f
  · obtain ⟨ts, hleaving, hts⟩ := leaving?_bare hencode hlocated
    rcases remove_of_leaving hsync hleaving with ⟨-, hanswer, -⟩ | ⟨hfree, -, hgraph⟩
    · rw [hanswer] at h
      cases h
    · refine ⟨ts, hts, ?_, hlocated.imp fun f hf => hf.1⟩
      rw [hgraph]
      exact source_removeAll fun t ht => Bool.eq_false_iff.2 fun himported =>
        hfree ⟨t, ht, himported⟩
  · rw [remove_eq_of_leaving_none hsync (leaving?_bare_of_not_located hencode hlocated)] at h
    cases h

/-- **Effect of removals.** The removal of an axiom takes effect if the triples that leave detach
the axiom from the graph.  With an index these are the triples that only the axiom is read from,
without one those that no axiom near them is read from. -/
theorem takesEffect_of_detaches (s : Settings) (w : Workbench) (a : AnnotatedAxiom) :
    let R : Source := ⟨w.graph.union, s⟩
    (R.Detaches a (R.Leaves a) → (built s w.graph).TakesEffect w a) ∧
    ∀ written supply, a.encode w.supply = .ok (written, supply) →
      R.Detaches a (R.LeavesNear a written) →
      ({ settings := s } : AxiomStore).TakesEffect w a := by
  refine ⟨fun hdetaches htrue f => ?_, fun written supply hencode hdetaches htrue f => ?_⟩
  · obtain ⟨ts, hts, hgraph, hread⟩ := graph_remove_built htrue
    rw [source_built, hgraph]
    exact not_mem_scan_without (hdetaches.congr fun t => (hts t).symm)
      (fun t ht => ((hts t).1 ht).1) hread
  · obtain ⟨ts, hts, hgraph, hread⟩ := graph_remove_bare hencode htrue
    rw [source, hgraph]
    refine not_mem_scan_without (hdetaches.congr fun t => (hts t).symm) (fun t ht => ?_) hread
    obtain ⟨f, hf, hmem⟩ := ((hts t).1 ht).1
    exact ⟨f, hf.1, hmem⟩

/-- Two axioms about one anonymous class: the main triple of the first alone leaves, and detaches
it, whether the store has an index or not. -/
theorem takesEffect_of_detaches_shared :
    let a : Iri := .ofValue "http://example.org/a"
    let b : Iri := .ofValue "http://example.org/b"
    let c : Iri := .ofValue "http://example.org/c"
    let union : Node := .blank ⟨"union"⟩
    let first : Node := .blank ⟨"first"⟩
    let w : Workbench := ⟨{ base := .ofList [⟨a, .rdfs .subClassOf, .node union⟩,
      ⟨b, .rdfs .subClassOf, .node union⟩, .typing union (.owl .Class),
      ⟨union, .owl .unionOf, .node first⟩, ⟨first, .rdf .first, .node (.iri c)⟩,
      ⟨first, .rdf .rest, .node (.iri (.rdf .nil))⟩] }, ⟨"n", 0⟩⟩
    let R : Source := ⟨w.graph.union, {}⟩
    let gone : AnnotatedAxiom := ⟨.subClassOf (.named a) (.junction .union [.named c]), []⟩
    (R.Detaches gone (R.Leaves gone) ∧ ((built {} w.graph).remove w gone).1 = .ok true ∧
      (built {} w.graph).TakesEffect w gone) ∧
    ∃ written supply, gone.encode w.supply = .ok (written, supply) ∧
      R.Detaches gone (R.LeavesNear gone written) ∧
      (({ settings := {} } : AxiomStore).remove w gone).1 = .ok true ∧
      ({ settings := {} } : AxiomStore).TakesEffect w gone := by
  intro a b c union first w R gone
  let main : Triple := ⟨a, .rdfs .subClassOf, .node union⟩
  obtain ⟨f, hf, hmain⟩ : ∃ f, (gone, f) ∈ R.scan ∧ ∀ g, (gone, g) ∈ R.scan → g.main = main := by
    have hread : ∃ r ∈ R.scan, r.1 = gone := by decide +kernel
    have hmain : ∀ r ∈ R.scan, r.1 = gone → r.2.main = main := by decide +kernel
    obtain ⟨⟨_, f⟩, hf, rfl⟩ := hread
    exact ⟨f, hf, fun g hg => hmain _ hg rfl⟩
  have hfacets : ∀ t ∈ R.triples.toList, t.predicate ≠ .owl .withRestrictions := by decide +kernel
  have hdetaches : R.Detaches gone (· ∈ [main]) := detaches_main hf hmain hfacets rfl
  have hleaves : R.Detaches gone (R.Leaves gone) := by
    obtain ⟨ts, hleaving, hts⟩ := leaving?_built (s := {}) (w := w) ⟨f, hf⟩
    have hone : (built {} w.graph).leaving? w gone = .ok (some [main]) := by decide +kernel
    rw [hone] at hleaving
    cases hleaving
    exact hdetaches.congr hts
  obtain ⟨⟨written, supply⟩, hencode⟩ : ∃ r, gone.encode w.supply = .ok r := by
    have hok : (gone.encode w.supply).isOk = true := by decide +kernel
    cases hencode : gone.encode w.supply with
    | error e =>
      rw [hencode] at hok
      cases hok
    | ok r => exact ⟨r, rfl⟩
  have hnear : R.Detaches gone (R.LeavesNear gone written) := by
    have hone : (⟨{}, none, w.graph.generation⟩ : AxiomStore).leaving? w gone =
        .ok (some [main]) := by decide +kernel
    have hlocated : ∃ f, R.Locates gone written f := by
      by_contra hnot
      have hnone := leaving?_bare_of_not_located (s := {}) (w := w) hencode hnot
      rw [hone] at hnone
      cases hnone
    obtain ⟨ts, hleaving, hts⟩ := leaving?_bare (s := {}) (w := w) hencode hlocated
    rw [hone] at hleaving
    cases hleaving
    exact hdetaches.congr hts
  have heffect := takesEffect_of_detaches {} w gone
  exact ⟨⟨hleaves, by decide +kernel, heffect.1 hleaves⟩, written, supply, hencode, hnear,
    by decide +kernel, heffect.2 written supply hencode hnear⟩

/-- A removal that answers true need not take effect.  The triple of an assertion may be kept as a
remark of another axiom.  A facet may be left with the one triple that makes it a facet of the
axiom, a node with the one part that describes what the axiom is about.  And where a budget was too
small to find the sort of a property, it may suffice for what is left. -/
theorem not_takesEffect_undetached :
    let a : Iri := .ofValue "http://example.org/a"
    let b : Iri := .ofValue "http://example.org/b"
    let p : Iri := .ofValue "http://example.org/p"
    let q : Iri := .ofValue "http://example.org/q"
    let v : Literal := .plain "v"
    let node (label : String) : Node := .blank ⟨label⟩
    let cell (label : String) (x rest : Term) : List Triple :=
      [⟨node label, .rdf .first, x⟩, ⟨node label, .rdf .rest, rest⟩]
    let nil : Term := .node (.iri (.rdf .nil))
    let start (ts : List Triple) : Workbench := ⟨{ base := .ofList ts }, ⟨"n", 0⟩⟩
    (let w := start [.typing p (.owl .Axiom), ⟨p, .owl .annotatedSource, .node a⟩,
        ⟨p, .owl .annotatedProperty, .node (.iri (.rdfs .subClassOf))⟩,
        ⟨p, .owl .annotatedTarget, .node b⟩, ⟨a, .rdfs .subClassOf, .node b⟩, ⟨p, q, .literal v⟩]
      let remark : AnnotatedAxiom := ⟨.annotationAssertion q p (.literal v), []⟩
      ¬ (built {} w.graph).TakesEffect w remark ∧
        ¬ ({ settings := {} } : AxiomStore).TakesEffect w remark) ∧
    (let restricting (label data list facet : String) : List Triple :=
        [⟨node label, .rdfs .subClassOf, .node b⟩, ⟨node label, .owl .onProperty, .node p⟩,
          ⟨node label, .owl .someValuesFrom, .node (node data)⟩,
          ⟨node data, .owl .onDatatype, .node a⟩,
          ⟨node data, .owl .withRestrictions, .node (node list)⟩] ++
        cell list (.node (node facet)) nil
      -- the first class is the facet of the second, and has the triple of a facet itself
      let w := start (.typing p (.owl .DatatypeProperty) ::
        restricting "x" "d" "l" "f" ++ restricting "y" "e" "m" "x" ++
        [⟨node "f", q, .literal v⟩, ⟨node "x", q, .literal v⟩])
      let restriction : AnnotatedAxiom :=
        ⟨.subClassOf (.dataValues .some p (.restriction a [(q, v)])) (.named b), []⟩
      ¬ (built {} w.graph).TakesEffect w restriction ∧
        ¬ ({ settings := {} } : AxiomStore).TakesEffect w restriction) ∧
    (let valued (label data list other : String) (c : Node) : List Triple :=
        [⟨node label, .rdfs .subClassOf, .node c⟩, ⟨node label, .owl .onProperty, .node p⟩,
          ⟨node label, .owl .someValuesFrom, .node (node data)⟩,
          ⟨node data, .owl .unionOf, .node (node list)⟩,
          ⟨node other, .owl .datatypeComplementOf, .node a⟩] ++ cell list (.node (node other)) nil
      -- one node is the union in the first axiom and, left with its other part, a complement
      let w := start (.typing p (.owl .DatatypeProperty) ::
        valued "x" "d" "l" "f" (node "c") ++ valued "y" "e" "m" "g" (node "d") ++
        [⟨node "c", .owl .complementOf, .node b⟩, ⟨node "d", .owl .complementOf, .node b⟩])
      let values : AnnotatedAxiom := ⟨.subClassOf (.dataValues .some p
        (.junction .union [.complement (.named a)])) (.complement (.named b)), []⟩
      ¬ (built {} w.graph).TakesEffect w values ∧
        ¬ ({ settings := {} } : AxiomStore).TakesEffect w values) ∧
    (let grouped (label first second : String) (x : Node) : List Triple :=
        [.typing (node label) (.owl .AllDisjointProperties),
          ⟨node label, .owl .members, .node (node first)⟩] ++
        cell first (.node p) (.node (node second)) ++ cell second (.node x) nil
      let w := start ([⟨p, .owl .propertyDisjointWith, .node q⟩,
        ⟨q, .rdfs .subPropertyOf, .node a⟩, .typing a (.owl .DatatypeProperty),
        .typing b (.owl .DatatypeProperty)] ++ grouped "x" "k" "l" b ++ grouped "y" "m" "n" q)
      let disjoint : AnnotatedAxiom := ⟨.disjointProperties .data [p, q], []⟩
      ¬ (built { budget := some 2 } w.graph).TakesEffect w disjoint) := by
  decide +kernel

end AxiomStore

end Ontograph
