import Ontograph.Graph.TripleSet

/-!
# From triples to main triples

An axiom is read from its main triple, but a change of any triple of its footprint may change what
is read. `TripleSet.mainsNear` lists the triples to read again after a change of some triples: it
climbs from their subjects through the anonymous structures they are part of, and through the nodes
that stand for triples, and lists what it passes.
-/

namespace Ontograph

namespace TripleSet

variable (S : TripleSet)

/-- The triple that a node stands for. -/
def reified? (n : Node) : Option Triple := do
  let source ← S.object? n (.owl .annotatedSource)
  let property ← S.object? n (.owl .annotatedProperty)
  let target ← S.object? n (.owl .annotatedTarget)
  return ⟨← source.node?, ← property.iri?, target⟩

/-- The triples around a node that an axiom involving the node may be read from: the one it stands
for, and for a blank node all that it is the subject or the object of. -/
def around (n : Node) : List Triple :=
  (S.reified? n).toList ++ if n.isBlank then S.incoming n ++ S.outgoing n else []

/-- The nodes one step up from a node: the subject of the triple it stands for, and for a blank
node those that point at it. -/
def parents (n : Node) : List Node :=
  ((S.reified? n).toList ++ if n.isBlank then S.incoming n else []).map Triple.subject

/-- The nodes of the set: subjects, and objects that are no literals. -/
def nodes : List Node := S.toList.flatMap fun t => t.subject :: t.object.node?.toList

/-- The subject of a triple is one of the nodes of its set. -/
theorem subject_mem_nodes {t : Triple} (h : t ∈ S) : t.subject ∈ S.nodes :=
  List.mem_flatMap.2 ⟨t, h, List.mem_cons_self⟩

/-- The object of a triple, if it is a node, is one of the nodes of its set. -/
theorem object_mem_nodes {t : Triple} {n : Node} (h : t ∈ S) (hn : t.object.node? = some n) :
    n ∈ S.nodes :=
  List.mem_flatMap.2 ⟨t, h, List.mem_cons_of_mem _ (by simp [hn])⟩

/-- One step up from a node leads to nodes of the set. -/
theorem mem_nodes_of_mem_parents {n m : Node} (h : m ∈ S.parents n) : m ∈ S.nodes := by
  obtain ⟨t, ht, rfl⟩ := List.mem_map.1 h
  rcases List.mem_append.1 ht with ht | ht
  · rw [Option.mem_toList, reified?] at ht
    obtain ⟨source, hsource, ht⟩ := Option.bind_eq_some_iff.1 ht
    obtain ⟨property, -, ht⟩ := Option.bind_eq_some_iff.1 ht
    obtain ⟨target, -, ht⟩ := Option.bind_eq_some_iff.1 ht
    obtain ⟨s, hs, ht⟩ := Option.bind_eq_some_iff.1 ht
    obtain ⟨p, -, ht⟩ := Option.bind_eq_some_iff.1 ht
    cases ht
    exact S.object_mem_nodes (mem_of_object? hsource) hs
  · split at ht
    · exact S.subject_mem_nodes (mem_incoming.1 ht).1
    · cases ht

/-- The nodes one step up from some nodes and not among them. -/
def above (reached : List Node) : List Node :=
  (reached.flatMap S.parents).filter fun n => decide (n ∉ reached)

/-- The nodes of the set that a climb has not reached. -/
def unreached (reached : List Node) : Nat :=
  (S.nodes.filter fun n => decide (n ∉ reached)).length

/-- Reaching a new node of the set leaves fewer to reach. -/
theorem unreached_append_lt {reached new : List Node} {n : Node} (hn : n ∈ new)
    (hset : n ∈ S.nodes) (hnew : n ∉ reached) :
    S.unreached (new ++ reached) < S.unreached reached := by
  have h : (S.nodes.filter fun m => decide (m ∉ new ++ reached)) =
      (S.nodes.filter fun m => decide (m ∉ reached)).filter fun m => decide (m ∉ new) := by
    rw [List.filter_filter]
    congr 1
    funext m
    simp only [List.mem_append, not_or, Bool.decide_and]
  unfold unreached
  rw [h, List.length_filter_lt_length_iff_exists]
  exact ⟨n, by simp [hset, hnew], by simpa using hn⟩

/-- Climbs until no step up leads to a new node. -/
def climb (reached : List Node) : List Node :=
  match h : S.above reached with
  | [] => reached
  | n :: ns =>
    have hn : n ∈ S.above reached := h ▸ List.mem_cons_self
    have hnew : n ∈ (n :: ns).eraseDups := by simp
    have := S.unreached_append_lt hnew
      ((List.mem_flatMap.1 (List.mem_filter.1 hn).1).elim fun _ hm =>
        S.mem_nodes_of_mem_parents hm.2)
      (by simpa using (List.mem_filter.1 hn).2)
    climb ((n :: ns).eraseDups ++ reached)
termination_by S.unreached reached

/-- The triples that may have to be read again if some triples change: these triples, all others
of their subjects if they are types, and those that a climb from their subjects passes. -/
def mainsNear (ts : List Triple) : List Triple :=
  let typed := ts.filter fun t => t.predicate == .rdf .type
  (ts ++ typed.flatMap (fun t => S.outgoing t.subject) ++
    (S.climb (ts.map Triple.subject).eraseDups).flatMap S.around).eraseDups

end TripleSet

end Ontograph
