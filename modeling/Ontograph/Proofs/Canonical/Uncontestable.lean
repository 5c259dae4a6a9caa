import Ontograph.Proofs.Canonical.Contention
import Ontograph.Proofs.Canonical.Headers
import Ontograph.Proofs.Canonical.Preservation

/-!
# Graphs where nothing can become contested

The passes of a normalization are at odds over a node if it is a restriction and in the place of a
class, or if an import calls it deprecated by its type.  There is no such node in a graph whose
restrictions have no names and whose imports type nothing as deprecated (`Graph.Uncontestable`), and
rounds keep graphs like this (`Pipeline.uncontestable_round`).  Merging headers could type the kept
one as a restriction, so they have to be apart from restrictions (`Workbench.MergesApart`).
-/

namespace Ontograph

namespace Graph

open TripleSet

variable {g g' : Graph} {s : Settings} {n : Node}

/-- Nothing in the graph can become contested: its restrictions have no names, and no import calls
anything deprecated by its type. -/
structure Uncontestable (g : Graph) : Prop where
  restrictions : ∀ n, Triple.typing n (.owl .Restriction) ∈ g → n.isBlank = true
  imports : ∀ n, ∀ c ∈ deprecatedTypes, g.isImported (.typing n c) = false

/-- What the triples of a union and of its imports are like tells that nothing can be contested. -/
theorem uncontestable_of_forall
    (hblank : ∀ t ∈ g.union.toList, t.predicate = .rdf .type →
      t.object = (.iri (.owl .Restriction) : Node) → t.subject.isBlank = true)
    (himports : ∀ c ∈ deprecatedTypes, ∀ i ∈ g.imports, ∀ t ∈ i.triples.toList,
      t.predicate = .rdf .type → t.object ≠ (.iri c : Node)) : g.Uncontestable where
  restrictions n ht := hblank _ (mem_union.2 ht) rfl rfl
  imports n c hc := by
    rw [← Bool.not_eq_true, isImported_iff]
    rintro ⟨i, hi, ht⟩
    exact himports c hc i hi _ ht rfl rfl

/-- If nothing in a graph can become contested, no node of it is. -/
theorem Uncontestable.not_contested (h : g.Uncontestable) (n : Node) : ¬ g.Contested s n := by
  intro hcontested
  have hgiven : ∀ c ∈ deprecatedTypes, g.isImported (.typing n c) ≠ true := by
    intro c hc
    rw [h.imports n c hc]
    decide
  cases hcontested with
  | restriction hrestriction hdeclared =>
    rcases hdeclared with himported | hdeclared
    · exact hgiven _ (by decide) himported
    · -- only a node with a name is declared
      obtain ⟨i, -, -, he⟩ := mem_classDeclarations_iff.1 hdeclared
      cases he
      exact Bool.false_ne_true (h.restrictions _ hrestriction)
  | property _ himported => exact hgiven _ (by decide) himported

/-- Passes that leave restrictions and imports alone leave nothing that can become contested. -/
theorem Uncontestable.of_frames (h : g.Uncontestable) (hframes : g.Frames g') :
    g'.Uncontestable where
  restrictions n ht := h.restrictions n ((hframes.mem_typing_iff (by decide)).1 ht)
  imports n c hc := hframes.isImported.trans (h.imports n c hc)

end Graph

namespace Workbench

open Ontograph.Graph

variable {w : Workbench}

/-- The headers can be merged, and none of them is a restriction or the class of restrictions. -/
structure MergesApart (w : Workbench) : Prop extends w.Mergeable where
  notRestriction : ∀ n ∈ w.graph.headers, Triple.typing n (.owl .Restriction) ∉ w.graph
  notRestrictions : .iri (.owl .Restriction) ∉ w.graph.headers

/-- Where there is no header, none is in the way. -/
theorem NamesNew.mergesApart (hnew : w.NamesNew) (hnone : w.graph.headers = []) :
    w.MergesApart where
  notImported := by simp [hnone]
  notClass := by simp [hnone]
  new _ := hnew w.supply.next (Nat.le_refl _)
  notRestriction := by simp [hnone]
  notRestrictions := by simp [hnone]

/-- A merge of headers types no other nodes as restrictions. -/
theorem MergesApart.mem_typing_restriction (h : w.MergesApart) {n : Node}
    (ht : Triple.typing n (.owl .Restriction) ∈ w.mergeHeaders.2.graph) :
    Triple.typing n (.owl .Restriction) ∈ w.graph := by
  rcases ht with hbase | himported
  · refine Or.inl ?_
    by_cases hnone : w.graph.headers = []
    · refine ((h.mem_base_mergeHeaders hnone).1 hbase).resolve_right fun he => ?_
      cases he
    · obtain ⟨winner, hmerges⟩ := h.mergesInto hnone
      obtain ⟨⟨m, p, o⟩, hu, he⟩ := (hmerges.base _).1 hbase
      obtain ⟨hm, rfl, ho⟩ := Triple.mk.inj he
      -- the class stays, and the node is no header, so it stays too
      have hother : .iri (.owl .Restriction) ≠ winner := fun hw =>
        h.notRestrictions (hw ▸ hmerges.mem_headers)
      obtain rfl := Term.eq_of_mergedInto hother ho
      have hstays : m ∉ w.graph.headers.filter (· != winner) := fun hloser =>
        h.notRestriction m (List.mem_of_mem_filter hloser) (Or.inl hu)
      rw [Node.mergedInto_of_not_mem hstays] at hm
      exact hm ▸ hu
  · rw [becomes_mergeHeaders.imports] at himported
    exact Or.inr himported

/-- Merging headers apart from restrictions makes nothing contestable. -/
theorem MergesApart.uncontestable (h : w.MergesApart) (huncontestable : w.graph.Uncontestable) :
    w.mergeHeaders.2.graph.Uncontestable where
  restrictions n ht := huncontestable.restrictions n (h.mem_typing_restriction ht)
  imports n c hc := by
    unfold isImported
    rw [becomes_mergeHeaders.imports]
    exact huncontestable.imports n c hc

end Workbench

namespace Pipeline

open Ontograph.Graph

variable {p : Pass} {ps : Pipeline} {s : Settings} {w : Workbench} {number : Nat}

/-- Other passes leave headers that can be merged apart from restrictions. -/
theorem mergesApart_run (hp : p ∈ standard) (hheader : p ≠ headerPass) (h : w.MergesApart) :
    (p.run s w).2.MergesApart := by
  have hframes : w.graph.Frames (p.run s w).2.graph := frames_run hp hheader
  refine ⟨mergeable_run hp hheader h.toMergeable, ?_, ?_⟩
  · rw [hframes.headers_eq]
    exact fun n hn ht => h.notRestriction n hn ((hframes.mem_typing_iff (by decide)).1 ht)
  · rw [hframes.headers_eq]
    exact h.notRestrictions

/-- With one header, or with headers that can be merged apart from restrictions, nothing can become
contested in a round if it cannot at its start. -/
theorem uncontestable_round (hps : ∀ p ∈ ps, p ∈ standard)
    (hone : w.graph.headers.length = 1 ∨ w.MergesApart) (huncontestable : w.graph.Uncontestable) :
    (round s number ps w).2.graph.Uncontestable := by
  induction ps generalizing w with
  | nil => exact huncontestable
  | cons p ps ih =>
    obtain ⟨hp, hrest⟩ := List.forall_mem_cons.1 hps
    unfold round
    by_cases happlies : p.applies w.graph = true
    · rw [if_pos happlies]
      by_cases hheader : p = headerPass
      · subst hheader
        have hapart : w.MergesApart := hone.resolve_left (bne_iff_ne.1 happlies)
        have hmerged : (headerPass.run s w).2.graph.headers.length = 1 ∧
            (headerPass.run s w).2.graph.Uncontestable := by
          rw [run_headerPass]
          exact ⟨hapart.length_headers, hapart.uncontestable huncontestable⟩
        exact ih hrest (Or.inl hmerged.1) hmerged.2
      · have hframes : w.graph.Frames (p.run s w).2.graph := frames_run hp hheader
        refine ih hrest (hone.imp (fun hone => ?_) (mergesApart_run hp hheader))
          (huncontestable.of_frames hframes)
        rw [hframes.headers_eq, hone]
    · rw [if_neg happlies]
      exact ih hrest hone huncontestable

end Pipeline

end Ontograph
