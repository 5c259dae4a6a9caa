import Ontograph.Proofs.Index.Ascent

/-!
# Axioms that are written alike with and without an index

An addition and a removal come to the same with an index and without one, if the axiom can be
written and traced (`Source.Traces`): wherever it is read, what is written for it fits, and each
other axiom that is read from one of its triples is anchored, so that a climb from the triple comes
to it.  Then the axioms near the triples are all that use them
(`Source.Traces.leaves_iff_leavesNear`).  So there are three ways for the outcomes to differ, and
`AxiomStore.writes_disagree` has an input for each: an axiom that cannot be written, one that is
read from a triple of another shape, and one that shares the triples of a node with a name.
-/

namespace Ontograph

namespace Source

variable {R : Source} {a : AnnotatedAxiom} {written h : Footprint} {t : Triple}

/-- The axiom can be traced: what is written for it fits wherever it is read, and the other axioms
that are read from one of its triples are anchored. -/
structure Traces (R : Source) (a : AnnotatedAxiom) (written : Footprint) : Prop where
  fits : ∀ h, (a, h) ∈ R.scan → (mainPattern written.main).admits h.main = true
  anchored : ∀ b k, (b, k) ∈ R.scan → b ≠ a →
    (∃ h, (a, h) ∈ R.scan ∧ ∃ t ∈ h.triples, t ∈ k.triples) → k.Anchored R.triples

namespace Traces

/-- Wherever a traced axiom is read, it is found from what is written for it. -/
theorem locates (htraces : R.Traces a written) (hh : (a, h) ∈ R.scan) : R.Locates a written h :=
  ⟨hh, htraces.fits h hh⟩

/-- The triples that no axiom near them uses are those that no other axiom uses. -/
theorem leaves_iff_leavesNear (htraces : R.Traces a written) :
    R.Leaves a t ↔ R.LeavesNear a written t := by
  constructor
  · rintro ⟨⟨h, hh, ht⟩, hown⟩
    exact ⟨⟨h, htraces.locates hh, ht⟩, fun b k hk _ => hown b k hk⟩
  · rintro ⟨⟨h, hlocated, ht⟩, hnear⟩
    refine ⟨⟨h, hlocated.1, ht⟩, fun b k hk htk => ?_⟩
    by_contra hb
    have hanchored : k.Anchored R.triples :=
      htraces.anchored b k hk hb ⟨h, hlocated.1, t, ht, htk⟩
    have hlisted : [t] ⊆ (R.locate a written).flatMap Footprint.triples :=
      List.cons_subset.2 ⟨List.mem_flatMap.2 ⟨h, mem_locate_iff.2 hlocated, ht⟩, List.nil_subset _⟩
    have hmain := main_mem_mainsNear_of_anchored hk hanchored htk
    exact hb (hnear b k hk (TripleSet.mainsNear_subset hlisted hmain) htk)

end Traces

end Source

namespace AxiomStore

variable {s : Settings} {g : Graph} {a : AnnotatedAxiom} {f : Footprint}

/-- A traced axiom leaves alike. -/
theorem leavesAlike_of_traces (htraces : (⟨g.union, s⟩ : Source).Traces a f) :
    LeavesAlike s g a f := by
  have hsame : (⟨g.union, s⟩ : Source).Leaves a = (⟨g.union, s⟩ : Source).LeavesNear a f :=
    funext fun _ => propext htraces.leaves_iff_leavesNear
  unfold LeavesAlike
  dsimp only
  rw [← hsame]
  by_cases hread : ∃ h, (a, h) ∈ (⟨g.union, s⟩ : Source).scan
  · obtain ⟨h, hh⟩ := hread
    by_cases hheld : HeldBack g ((⟨g.union, s⟩ : Source).Leaves a)
    · exact Or.inr (Or.inl ⟨hheld, Or.inr hheld⟩)
    · exact Or.inr (Or.inr ⟨⟨h, htraces.locates hh⟩, hheld, hheld, fun _ _ => Iff.rfl⟩)
  · exact Or.inl fun h hh => hread ⟨h, hh⟩

/-- **Writes and the index.** With the index of a graph just built, and with none, an axiom is
added with the same outcome exactly if it is not read only where nothing that is written for it
fits, or all of that is there; and it is removed with the same outcome exactly if it can be written
and leaves alike.  Both outcomes are the same for an axiom that can be written and traced. -/
theorem writes_agree_iff (s : Settings) (w : Workbench) (a : AnnotatedAxiom) :
    (Agree ((built s w.graph).add w a) (({ settings := s } : AxiomStore).add w a) ↔
      ∀ f supply, a.encode w.supply = .ok (f, supply) →
        (∃ h, (a, h) ∈ (⟨w.graph.union, s⟩ : Source).scan) →
        (∃ h, (⟨w.graph.union, s⟩ : Source).Locates a f h) ∨ ∀ t ∈ f.triples, t ∈ w.graph) ∧
    (Agree ((built s w.graph).remove w a) (({ settings := s } : AxiomStore).remove w a) ↔
      ∃ f supply, a.encode w.supply = .ok (f, supply) ∧ LeavesAlike s w.graph a f) ∧
    ∀ f supply, a.encode w.supply = .ok (f, supply) →
      (⟨w.graph.union, s⟩ : Source).Traces a f →
      Agree ((built s w.graph).add w a) (({ settings := s } : AxiomStore).add w a) ∧
        Agree ((built s w.graph).remove w a) (({ settings := s } : AxiomStore).remove w a) := by
  refine ⟨add_agree_iff, remove_agree_iff, fun f supply hencode htraces => ⟨?_, ?_⟩⟩
  · refine add_agree_iff.2 fun f' supply' hencode' ⟨h, hh⟩ => ?_
    cases hencode.symm.trans hencode'
    exact Or.inl ⟨h, htraces.locates hh⟩
  · exact remove_agree_iff.2 ⟨f, supply, hencode, leavesAlike_of_traces htraces⟩

/-- Writes that agree: a list is a blank node, and belongs to another axiom too. -/
theorem writes_agree_of_shared_list :
    let a : Iri := .ofValue "http://example.org/a"
    let c : Iri := .ofValue "http://example.org/c"
    let d : Iri := .ofValue "http://example.org/d"
    let list : Node := .blank ⟨"list"⟩
    let union : Triple := ⟨.iri a, .owl .disjointUnionOf, .node list⟩
    let only : AnnotatedAxiom := .of (.disjointUnion a [.named c]) []
    let w : Workbench := ⟨{ base := .ofList [union, ⟨.iri d, .owl .disjointUnionOf, .node list⟩,
      ⟨list, .rdf .first, .node (.iri c)⟩, ⟨list, .rdf .rest, Term.nil⟩] }, ⟨"n", 0⟩⟩
    Agree ((built {} w.graph).add w only) (({} : AxiomStore).add w only) ∧
    Agree ((built {} w.graph).remove w only) (({} : AxiomStore).remove w only) ∧
    (({} : AxiomStore).remove w only).2.2.graph = (w.graph.removeAll [union]).2 := by
  intro a c d list union only w
  let R : Source := ⟨w.graph.union, {}⟩
  let cell : Node := Supply.nth ⟨"n", 0⟩ 0
  let written : Footprint := ⟨⟨.iri a, .owl .disjointUnionOf, .node cell⟩,
    [⟨cell, .rdf .first, .node (.iri c)⟩, ⟨cell, .rdf .rest, Term.nil⟩]⟩
  have hencode : only.encode w.supply = .ok (written, ⟨"n", 1⟩) := by decide +kernel
  have hfits : ∀ e ∈ R.scan, e.1 = only →
      (Source.mainPattern written.main).admits e.2.main = true := by decide +kernel
  have hblank : ∀ e ∈ R.scan, ∀ u ∈ e.2.triples, u ≠ e.2.main → u.subject.isBlank = true := by
    decide +kernel
  have honce : ∀ n, R.triples.ReifiesOnce n :=
    fun n => TripleSet.reifiesOnce_of_forall (by decide +kernel)
  have htraces : R.Traces only written :=
    { fits := fun h hh => hfits _ hh rfl
      anchored := fun b k hk _ _ =>
        ⟨fun u hu hne => Or.inl (hblank _ hk u hu hne), fun n _ => honce n⟩ }
  obtain ⟨hadd, hremove⟩ := (writes_agree_iff {} w only).2.2 written _ hencode htraces
  exact ⟨hadd, hremove, by decide +kernel⟩

/-- Writes that do not agree: the removal of an axiom that cannot be written, the addition and the
removal of one that is read from a group only, and the removal of one whose list has a name and
belongs to another axiom too. -/
theorem writes_disagree :
    let a : Iri := .ofValue "http://example.org/a"
    let b : Iri := .ofValue "http://example.org/b"
    let c : Iri := .ofValue "http://example.org/c"
    let d : Iri := .ofValue "http://example.org/d"
    let list : Node := .iri (.ofValue "http://example.org/list")
    let group : Node := .blank ⟨"group"⟩
    let cell : Node := .blank ⟨"cell"⟩
    let nil : Node := .iri (.rdf .nil)
    let started (ts : List Triple) : Workbench := ⟨{ base := .ofList ts }, ⟨"n", 0⟩⟩
    let three : AnnotatedAxiom := .of (.equivalentClasses [.named a, .named b, .named c]) []
    let pair : AnnotatedAxiom := .of (.disjointClasses [.named a, .named b]) []
    let only : AnnotatedAxiom := .of (.disjointUnion a [.named c]) []
    let empty : Workbench := started []
    let grouped : Workbench := started [.typing group (.owl .AllDisjointClasses),
      ⟨group, .owl .members, .node list⟩, ⟨list, .rdf .first, .node (.iri a)⟩,
      ⟨list, .rdf .rest, .node cell⟩, ⟨cell, .rdf .first, .node (.iri b)⟩,
      ⟨cell, .rdf .rest, .node nil⟩]
    let shared : Workbench := started [⟨.iri a, .owl .disjointUnionOf, .node list⟩,
      ⟨.iri d, .owl .disjointUnionOf, .node list⟩, ⟨list, .rdf .first, .node (.iri c)⟩,
      ⟨list, .rdf .rest, .node nil⟩]
    ¬ Agree ((built {} empty.graph).remove empty three) (({} : AxiomStore).remove empty three) ∧
    ¬ Agree ((built {} grouped.graph).add grouped pair) (({} : AxiomStore).add grouped pair) ∧
    ¬ Agree ((built {} grouped.graph).remove grouped pair)
      (({} : AxiomStore).remove grouped pair) ∧
    ¬ Agree ((built {} shared.graph).remove shared only)
      (({} : AxiomStore).remove shared only) := by
  decide +kernel

end AxiomStore

end Ontograph
