import Ontograph.Proofs.Index.Current
import Ontograph.Proofs.Index.Writing
import Ontograph.Proofs.Mapping.Soundness

/-!
# What leaves with an axiom

A store whose index holds what is read from its graph takes out, with an axiom, the triples that
this axiom is read from and no other one is.  A removal that answers false leaves the graph alone,
and after one that answers true every other axiom still has all its triples
(`AxiomStore.remove_exact`).
-/

namespace Ontograph

/-- The triples that only one axiom of the index is read from. -/
def AxiomIndex.OnlyOf (I : AxiomIndex) (a : AnnotatedAxiom) (t : Triple) : Prop :=
  (∃ f ∈ I.footprintsOf a, t ∈ f.triples) ∧ ∀ b ≠ a, ∀ f ∈ I.footprintsOf b, t ∉ f.triples

/-- The base of the graph has lost exactly the given triples, no import holds one of them, and
nothing else has changed. -/
structure Graph.Loses (g g' : Graph) (P : Triple → Prop) : Prop where
  imports : g'.imports = g.imports
  mem_base_of_mem : ∀ t ∈ g'.base, t ∈ g.base
  lost_iff : ∀ t, t ∈ g.base ∧ t ∉ g'.base ↔ P t
  not_imported : ∀ t, P t → g.isImported t = false

namespace Graph

variable {g g' : Graph} {P : Triple → Prop} {ts : List Triple} {t : Triple}

/-- What is not lost is still there. -/
theorem Loses.mem (h : g.Loses g' P) (ht : t ∈ g) (hP : ¬ P t) : t ∈ g' := by
  rcases ht with hbase | himport
  · left
    by_contra hlost
    exact hP ((h.lost_iff t).1 ⟨hbase, hlost⟩)
  · right
    rw [h.imports]
    exact himport

/-- Triples of the base that no import holds are lost when they are taken out. -/
theorem loses_removeAll (hmem : ∀ t ∈ ts, t ∈ g) (himported : ∀ t ∈ ts, g.isImported t = false) :
    g.Loses (g.removeAll ts).2 (· ∈ ts) := by
  have hbase : ∀ t, t ∈ (g.removeAll ts).2.base ↔ t ∈ g.base ∧ t ∉ ts := by
    intro t
    rw [TripleSet.mem_def, toList_base_removeAll, List.mem_filter, decide_eq_true_iff]
    exact Iff.rfl
  refine ⟨imports_removeAll, fun t ht => ((hbase t).1 ht).1, fun t => ?_, himported⟩
  rw [hbase]
  constructor
  · rintro ⟨ht, hnot⟩
    by_contra hts
    exact hnot ⟨ht, hts⟩
  · intro hts
    have hlayer := contains_iff.2 (hmem t hts)
    rw [contains, himported t hts, Bool.or_false, decide_eq_true_iff] at hlayer
    exact ⟨hlayer, fun h => h.2 hts⟩

/-- What a graph has lost does not depend on how the triples are described. -/
theorem Loses.congr {Q : Triple → Prop} (h : g.Loses g' P) (hPQ : ∀ t, P t ↔ Q t) :
    g.Loses g' Q := by
  obtain rfl : P = Q := funext fun t => propext (hPQ t)
  exact h

end Graph

namespace AxiomStore

variable {st : AxiomStore} {w : Workbench} {I : Indices}

/-- The triples that only the axiom is read from are those the index lets go. -/
theorem mem_ownTriples_iff_onlyOf {E : AnnotatedAxiom → Footprint → Prop} {a : AnnotatedAxiom}
    {t : Triple} (h : I.axioms.Holds E) : t ∈ I.axioms.ownTriples a ↔ I.axioms.OnlyOf a t := by
  rw [h.mem_ownTriples_iff]
  refine and_congr (exists_congr fun f => and_congr_left fun _ =>
    (h.mem_footprintsOf a f).symm) ⟨fun hall b hb f hf ht => ?_, fun hall b f hf ht => ?_⟩
  · exact hb (hall b f ((h.mem_footprintsOf b f).1 hf) ht)
  · by_contra hb
    exact hall b hb f ((h.mem_footprintsOf b f).2 hf) ht

/-- **Removals.** A store is in line with its graph and has an index of it that holds what is read
from the graph.  Then the removal of an axiom never fails.  Either it answers false, and nothing
has changed; or it answers true, the base has lost exactly the triples that only this axiom is read
from, none of which an import holds, and every other axiom still has all triples it is read
from. -/
theorem remove_exact (hgeneration : st.generation = w.graph.generation)
    (hindices : st.indices? = some I)
    (hfresh : I.axioms.Holds fun b f => (b, f) ∈ (st.source w.graph).scan) (a : AnnotatedAxiom) :
    ((st.remove w a).1 = .ok false ∧ (st.remove w a).2.2 = w) ∨
    ((st.remove w a).1 = .ok true ∧
      w.graph.Loses (st.remove w a).2.2.graph (I.axioms.OnlyOf a) ∧
      ∀ b ≠ a, ∀ f ∈ I.axioms.footprintsOf b, ∀ t ∈ f.triples,
        t ∈ (st.remove w a).2.2.graph) := by
  have hsync : st.sync w.graph = st := if_pos hgeneration
  have hleaving : st.leaving? w a = .ok
      (if I.axioms.contains a then some (I.axioms.ownTriples a) else none) := by
    unfold leaving?
    rw [hindices]
  -- a footprint that is read has its triples in the graph
  have hmem : ∀ b, ∀ f ∈ I.axioms.footprintsOf b, ∀ t ∈ f.triples, t ∈ w.graph :=
    fun b f hf t ht => Graph.mem_union.1
      (Source.triples_of_mem_scan ((hfresh.mem_footprintsOf b f).1 hf) ht)
  by_cases hcontains : I.axioms.contains a = true
  · rw [if_pos hcontains] at hleaving
    rcases remove_of_leaving hsync hleaving with ⟨-, hanswer, hsame⟩ | ⟨hfree, hanswer, hgraph⟩
    · exact Or.inl ⟨hanswer, hsame⟩
    · have hown : ∀ t, t ∈ I.axioms.ownTriples a ↔ I.axioms.OnlyOf a t :=
        fun t => mem_ownTriples_iff_onlyOf hfresh
      have hloses : w.graph.Loses (st.remove w a).2.2.graph (I.axioms.OnlyOf a) := by
        rw [hgraph]
        refine (Graph.loses_removeAll (fun t ht => ?_) fun t ht => ?_).congr hown
        · obtain ⟨⟨f, hf, htf⟩, -⟩ := (hown t).1 ht
          exact hmem a f hf t htf
        · rw [Bool.eq_false_iff]
          exact fun himported => hfree ⟨t, ht, himported⟩
      refine Or.inr ⟨hanswer, hloses, fun b hb f hf t ht => ?_⟩
      exact hloses.mem (hmem b f hf t ht) fun honly => honly.2 b hb f hf ht
  · rw [if_neg hcontains] at hleaving
    rw [remove_eq_of_leaving_none hsync hleaving]
    exact Or.inl ⟨rfl, rfl⟩

/-- Two axioms about one anonymous class: when the first is removed, its main triple alone is lost,
and the second keeps the triples of the class. -/
theorem remove_exact_shared :
    let a : Iri := .ofValue "http://example.org/a"
    let b : Iri := .ofValue "http://example.org/b"
    let c : Iri := .ofValue "http://example.org/c"
    let union : Node := .blank ⟨"union"⟩
    let first : Node := .blank ⟨"first"⟩
    let main : Triple := ⟨.iri a, .rdfs .subClassOf, .node union⟩
    let other : Triple := ⟨.iri b, .rdfs .subClassOf, .node union⟩
    let parts : List Triple := [.typing union (.owl .Class), ⟨union, .owl .unionOf, .node first⟩,
      ⟨first, .rdf .first, .node (.iri c)⟩, ⟨first, .rdf .rest, .node (.iri (.rdf .nil))⟩]
    let w : Workbench := ⟨{ base := .ofList (main :: other :: parts) }, ⟨"n", 0⟩⟩
    let gone : AnnotatedAxiom := ⟨.subClassOf (.named a) (.junction .union [.named c]), []⟩
    let st := built {} w.graph
    st.generation = w.graph.generation ∧
    ∃ I, st.indices? = some I ∧
      (I.axioms.Holds fun b f => (b, f) ∈ (st.source w.graph).scan) ∧
      (st.remove w gone).1.toOption = some true ∧
      w.graph.Loses (st.remove w gone).2.2.graph (I.axioms.OnlyOf gone) ∧
      ∀ t ∈ other :: parts, t ∈ (st.remove w gone).2.2.graph := by
  intro a b c union first main other parts w gone st
  obtain ⟨I, hI⟩ : ∃ I, I = Indices.ofSource ⟨w.graph.union, {}⟩ := ⟨_, rfl⟩
  have hst : st = ⟨{}, some I, w.graph.generation⟩ := by
    rw [hI]
    exact built_eq
  have hanswer : (st.remove w gone).1.toOption = some true := by decide +kernel
  have hread : Footprint.of other parts ∈
      I.axioms.footprintsOf ⟨.subClassOf (.named b) (.junction .union [.named c]), []⟩ := by
    rw [hI]
    decide +kernel
  have hfresh : I.axioms.Holds fun b f => (b, f) ∈ Source.scan ⟨w.graph.union, {}⟩ := by
    rw [hI]
    exact Indices.current_ofSource.axioms
  have hgeneration : st.generation = w.graph.generation := by rw [hst]
  have hindices : st.indices? = some I := by rw [hst]
  have hsource : st.source w.graph = ⟨w.graph.union, {}⟩ := by rw [hst, source]
  rw [← hsource] at hfresh
  refine ⟨hgeneration, I, hindices, hfresh, hanswer, ?_⟩
  rcases remove_exact hgeneration hindices hfresh gone with ⟨hfalse, -⟩ | ⟨-, hloses, hkept⟩
  · rw [hfalse] at hanswer
    exact absurd (Option.some.inj hanswer) Bool.false_ne_true
  · refine ⟨hloses, fun t ht => ?_⟩
    exact hkept _ (by decide +kernel) _ hread t (Footprint.mem_triples_of.2 (List.mem_cons.1 ht))

end AxiomStore

end Ontograph
