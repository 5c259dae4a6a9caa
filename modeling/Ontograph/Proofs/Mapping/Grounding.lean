import Ontograph.Proofs.Graph.Edits
import Ontograph.Proofs.Mapping.Detaching
import Ontograph.Proofs.Mapping.RoundTrip

/-!
# What is read is grounded in the graph

An axiom is read with triples of the graph only, and each of its remarks is one of them
(`Source.grounded`).  The remarks of an axiom with a node of its own are on that node.  Any other
axiom is read once for each node that stands for its main triple, with the remarks on that node;
and if there is no such node, once without remarks.
-/

namespace Ontograph

open Reading

/-! ## Main triples with a node of their own -/

/-- The triple types a node that groups the members of an axiom or denies an assertion. -/
def Triple.IsRoot (t : Triple) : Prop := ∃ c ∈ rootTypes, t = .typing t.subject c

/-- The triples that make a node stand for a triple. -/
def Triple.reifiedBy (t : Triple) (n : Node) : List Triple :=
  [⟨n, .owl .annotatedSource, t.subject⟩, ⟨n, .owl .annotatedProperty, .node (.iri t.predicate)⟩,
    ⟨n, .owl .annotatedTarget, t.object⟩]

namespace Source

variable {R : Source} {n m : Node} {t main : Triple} {ax : Axiom} {ts : List Triple}
  {e : AnnotatedAxiom × Footprint}

/-- The remarks of an axiom belong to its subject only if this groups members or denies. -/
theorem isRoot_of_rooted (h : Answers (R.statement t) (ax, true)) : t.IsRoot := by
  obtain ⟨c, hc, ht, -⟩ := root_of_rooted h
  exact ⟨c, hc, ht⟩

/-! ## Remarks -/

/-- The nodes that stand for a triple are those with its three parts. -/
theorem mem_reifiers_iff_reifiedBy : n ∈ R.reifiers t ↔ ∀ u ∈ t.reifiedBy n, u ∈ R.triples := by
  simp [mem_reifiers, Triple.reifiedBy]

/-- The three parts of a triple are in the reification of a node that stands for it. -/
theorem mem_reification_of_mem_reifiedBy {u : Triple} (h : u ∈ t.reifiedBy n) :
    u ∈ R.reification n t := List.mem_append_left _ h

/-- The remarks read from a node are those made on it with a property that can annotate. -/
theorem mem_remarks_noted {r : Remark} : r ∈ (R.noted main ax ts n).1.remarks ↔
    r.on n ∈ R.triples ∧ r.property.canAnnotate = true := by
  show r ∈ Remark.canonical (remarksOf (R.remarkTriples n)) ↔ _
  simp only [Remark.mem_canonical, remarksOf, remarkTriples, List.mem_map, List.mem_filter,
    TripleSet.mem_outgoing]
  constructor
  · rintro ⟨⟨s, p, o⟩, ⟨⟨hmem, rfl⟩, hp⟩, rfl⟩
    exact ⟨hmem, hp⟩
  · rintro ⟨hmem, hp⟩
    exact ⟨r.on n, ⟨⟨hmem, rfl⟩, hp⟩, rfl⟩

/-- The triples of the remarks that are read on a node are in the footprint. -/
theorem on_mem_triples_noted {r : Remark} (h : r ∈ (R.noted main ax ts n).1.remarks) :
    r.on n ∈ (R.noted main ax ts n).2.triples := by
  obtain ⟨hmem, hp⟩ := mem_remarks_noted.1 h
  refine Footprint.mem_triples_of.2 (Or.inr (List.mem_append_right _ ?_))
  exact List.mem_filter.2 ⟨TripleSet.mem_outgoing.2 ⟨hmem, rfl⟩, hp⟩

/-- Each remark of an axiom is a triple of its footprint, on the node of the axiom or on a node that
stands for the main triple. -/
theorem exists_on_mem_triples (h : e ∈ R.axiomsAt main) {r : Remark} (hr : r ∈ e.1.remarks) :
    ∃ n, r.on n ∈ e.2.triples ∧ (main.IsRoot ∧ n = main.subject ∨ n ∈ R.reifiers main) := by
  cases mem_axiomsAt_iff.1 h with
  | rooted _ hrun =>
    exact ⟨_, on_mem_triples_noted hr, Or.inl ⟨isRoot_of_rooted ⟨_, _, hrun⟩, rfl⟩⟩
  | bare => cases hr
  | reified _ _ hn => exact ⟨_, on_mem_triples_noted hr, Or.inr hn⟩

/-! ## One axiom for each node -/

/-- What is read is the axiom with the remarks on the node, which alone is made to stand for the
main triple in the footprint. -/
structure NotedOn (R : Source) (main : Triple) (ax : Axiom) (n : Node)
    (e : AnnotatedAxiom × Footprint) : Prop where
  base : e.1.base = ax
  mem_remarks : ∀ r, r ∈ e.1.remarks ↔ r.on n ∈ R.triples ∧ r.property.canAnnotate = true
  reified : ∀ m, (∀ t ∈ main.reifiedBy m, t ∈ e.2.triples) ↔ m = n

/-- A main triple that is read gives its axiom with the remarks on each node that stands for it. -/
theorem notedOn_of_run {b : Bool} (hmain : main ∈ R.triples)
    (hrun : (R.statement main).run [] = some ((ax, b), ts)) :
    R.NotedOn main ax n (R.noted main ax (ts ++ R.reification n main) n) where
  base := rfl
  mem_remarks _ := mem_remarks_noted
  reified m := by
    constructor
    · intro hm
      exact eq_of_mem_noted hmain hrun (hm _ List.mem_cons_self)
    · rintro rfl t ht
      refine Footprint.mem_triples_of.2 (Or.inr (List.mem_append_left _ ?_))
      exact List.mem_append_right _ (mem_reification_of_mem_reifiedBy ht)

/-- From a triple that is about no node of an axiom nothing is read, or one axiom: once without
remarks if no node stands for the triple, and otherwise once for each such node. -/
theorem axiomsAt_cases (hmain : main ∈ R.triples) (hroot : ¬ main.IsRoot) :
    R.axiomsAt main = [] ∨ ∃ ax,
      (R.reifiers main = [] ∧ ∃ f, R.axiomsAt main = [(⟨ax, []⟩, f)]) ∨
      (R.reifiers main ≠ [] ∧
        List.Forall₂ (R.NotedOn main ax) (R.reifiers main) (R.axiomsAt main)) := by
  unfold axiomsAt
  rw [if_pos hmain]
  cases hrun : (R.statement main).run [] with
  | none => exact Or.inl rfl
  | some r =>
    obtain ⟨⟨ax, _ | _⟩, ts⟩ := r
    · refine Or.inr ⟨ax, ?_⟩
      dsimp only
      cases hns : R.reifiers main with
      | nil => exact Or.inl ⟨rfl, _, rfl⟩
      | cons n ns =>
        refine Or.inr ⟨List.cons_ne_nil _ _, ?_⟩
        dsimp only
        rw [List.forall₂_map_right_iff]
        exact List.forall₂_same.2 fun _ _ => notedOn_of_run hmain hrun
    · exact absurd (isRoot_of_rooted ⟨_, _, hrun⟩) hroot

/-- **Grounding.** An axiom is read with its main triple first, with triples of the graph only, each
once, and each of its remarks is one of them, on the node of the axiom or on a node that stands for
the main triple.  If the main triple is about no node of an axiom, what is read from it is one
axiom: once for each of the nodes that stand for the triple, with the remarks on that node, and once
without remarks if there is none. -/
theorem grounded (g : Graph) (settings : Settings) (main : Triple) :
    let R : Source := ⟨g.union, settings⟩
    (∀ e ∈ R.axiomsAt main, e.2.main = main ∧ e.2.triples.head? = some main ∧
      e.2.triples.Nodup ∧ (∀ t ∈ e.2.triples, t ∈ g) ∧
      ∀ r ∈ e.1.remarks, ∃ n, r.on n ∈ e.2.triples ∧
        (main.IsRoot ∧ n = main.subject ∨ ∀ t ∈ main.reifiedBy n, t ∈ g)) ∧
    (main ∈ g → ¬ main.IsRoot →
      ∃ ns : List Node, ns.Nodup ∧ (∀ n, n ∈ ns ↔ ∀ t ∈ main.reifiedBy n, t ∈ g) ∧
        (R.axiomsAt main = [] ∨
          (R.axiomsAt main).length = max ns.length 1 ∧
          (∃ ax, (∀ e ∈ R.axiomsAt main, e.1.base = ax) ∧
            (ns = [] → ∀ e ∈ R.axiomsAt main, e.1.remarks = []) ∧
            (ns ≠ [] → List.Forall₂ (R.NotedOn main ax) ns (R.axiomsAt main))) ∧
          ∀ e ∈ R.axiomsAt main, (∀ n, ∀ t ∈ main.reifiedBy n, t ∉ e.2.triples) → ns = [])) := by
  intro R
  have hunion : ∀ n, n ∈ R.reifiers main ↔ ∀ t ∈ main.reifiedBy n, t ∈ g := by
    intro n
    simp only [mem_reifiers_iff_reifiedBy, R, Graph.mem_union]
  refine ⟨fun e he => ?_, fun hmain hroot => ?_⟩
  · have hfirst : e.2.main = main := main_of_mem_axiomsAt he
    refine ⟨hfirst, congrArg some hfirst, nodup_triples_of_mem_axiomsAt he, fun t ht => ?_,
      fun r hr => ?_⟩
    · have hscan : (e.1, e.2) ∈ R.scan := mem_scan_iff.2 (hfirst.symm ▸ he)
      exact Graph.mem_union.1 (triples_of_mem_scan hscan ht)
    · obtain ⟨n, hn, hnode⟩ := exists_on_mem_triples he hr
      exact ⟨n, hn, hnode.imp_right (hunion n).1⟩
  · refine ⟨R.reifiers main, R.nodup_reifiers, hunion, ?_⟩
    rcases axiomsAt_cases (R := R) (Graph.mem_union.2 hmain) hroot with
      hnone | ⟨ax, ⟨hns, f, hone⟩ | ⟨hns, hall⟩⟩
    · exact Or.inl hnone
    · refine Or.inr ⟨?_, ⟨ax, ?_, fun _ => ?_, fun hsome => absurd hns hsome⟩, fun _ _ _ => hns⟩
      · rw [hone, hns]
        rfl
      · simp [hone]
      · simp [hone]
    -- each axiom read comes from one of the nodes, so it has a node in its footprint
    · have hnoted : ∀ e ∈ R.axiomsAt main, ∃ n, R.NotedOn main ax n e := fun e he => by
        obtain ⟨n, -, hn⟩ := exists_of_forall₂ hall he
        exact ⟨n, hn⟩
      refine Or.inr ⟨?_, ⟨ax, fun e he => ?_, fun hnone => absurd hnone hns, fun _ => hall⟩, ?_⟩
      · rw [← hall.length_eq, Nat.max_eq_left (List.length_pos_of_ne_nil hns)]
      · obtain ⟨n, hn⟩ := hnoted e he
        exact hn.base
      · intro e he hfree
        obtain ⟨n, hn⟩ := hnoted e he
        exact absurd ((hn.reified n).2 rfl _ List.mem_cons_self) (hfree n _ List.mem_cons_self)

/-- A subclass triple that two nodes stand for is read twice. -/
theorem grounded_subClassOf :
    let main : Triple := ⟨.iri (.owl .Thing), .rdfs .subClassOf, .node (.iri (.owl .Thing))⟩
    let n (x : String) : Node := .blank ⟨x⟩
    let g : Graph := { base := .ofList (main :: main.reifiedBy (n "x") ++ main.reifiedBy (n "y")) }
    (axiomsAt ⟨g.union, {}⟩ main).length = 2 := by
  intro main n g
  have hmain : main ∈ g := Graph.mem_union.1 (by decide +kernel)
  have hroot : ¬ main.IsRoot := by
    rintro ⟨c, -, hc⟩
    have hp : Iri.rdfs .subClassOf = .rdf .type := congrArg Triple.predicate hc
    cases hp
  obtain ⟨ns, hnodup, hmem, hcount⟩ := (grounded g {} main).2 hmain hroot
  have hreifiers : reifiers ⟨g.union, {}⟩ main = [n "x", n "y"] := by decide +kernel
  have hns : ns.Perm [n "x", n "y"] := by
    refine (List.perm_ext_iff_of_nodup hnodup (by decide)).2 fun m => (hmem m).trans ?_
    rw [← hreifiers, mem_reifiers_iff_reifiedBy]
    simp only [Graph.mem_union]
  have hsome : axiomsAt ⟨g.union, {}⟩ main ≠ [] := by decide +kernel
  rw [(hcount.resolve_left hsome).1, hns.length_eq]
  rfl

end Source

end Ontograph
