import Mathlib.Logic.Relation
import Ontograph.Proofs.Index.Additions
import Ontograph.Proofs.Mapping.Hanging

/-!
# Climbing back to main triples

A climb lists the nodes that steps up lead to, each once, and so it ends on every graph
(`TripleSet.mem_climb_iff`, `TripleSet.nodup_climb`, `TripleSet.length_climb_le`).

What is gathered for an axiom hangs from its main triple, so a climb from any triple of a footprint
comes to the main triple, as long as it may go up at each node it passes: from blank nodes, and from
the node that stands for the main triple (`Source.main_mem_mainsNear_of_mem_scan`).
-/

namespace Ontograph

open Relation

namespace TripleSet

variable {S : TripleSet} {ns : List Node} {ts : List Triple} {n m : Node} {t u main : Triple}

/-! ## Climbs -/

/-- One step up leads from the first node to the second one. -/
def Up (S : TripleSet) (n m : Node) : Prop := m ∈ S.parents n

/-- The nodes above some are one step up from one of them, and none of them. -/
theorem mem_above : m ∈ S.above ns ↔ (∃ n ∈ ns, S.Up n m) ∧ m ∉ ns := by
  simp [above, Up, List.mem_filter, List.mem_flatMap]

/-- The climb ends where nothing new is above. -/
theorem climb_of_above_eq_nil (h : S.above ns = []) : S.climb ns = ns := by
  rw [climb]
  split
  case h_1 => rfl
  case h_2 hmore => cases h.symm.trans hmore

/-- Where something new is above, the climb goes on from there. -/
theorem climb_of_above_eq_cons {ms : List Node} (h : S.above ns = m :: ms) :
    S.climb ns = S.climb ((m :: ms).eraseDups ++ ns) := by
  rw [climb]
  split
  case h_1 hnone => cases h.symm.trans hnone
  case h_2 hmore =>
    cases h.symm.trans hmore
    rfl

/-- A climb lists what steps up lead to. -/
theorem mem_climb_iff : m ∈ S.climb ns ↔ ∃ n ∈ ns, ReflTransGen S.Up n m := by
  induction ns using climb.induct S with
  | case1 ns h =>
    rw [climb_of_above_eq_nil h]
    refine ⟨fun hm => ⟨m, hm, .refl⟩, ?_⟩
    rintro ⟨n, hn, hpath⟩
    induction hpath with
    | refl => exact hn
    | @tail k m _ hup ih =>
      by_contra hm
      have habove : m ∈ S.above ns := mem_above.2 ⟨⟨k, ih, hup⟩, hm⟩
      rw [h] at habove
      cases habove
  | case2 ns k ks h _ _ _ ih =>
    rw [climb_of_above_eq_cons h, ih]
    constructor
    · rintro ⟨n, hn, hpath⟩
      rcases List.mem_append.1 hn with hn | hn
      · obtain ⟨⟨n', hn', hup⟩, -⟩ := mem_above.1 (h ▸ List.mem_eraseDups.1 hn)
        exact ⟨n', hn', .head hup hpath⟩
      · exact ⟨n, hn, hpath⟩
    · rintro ⟨n, hn, hpath⟩
      exact ⟨n, List.mem_append_right _ hn, hpath⟩

/-- No node is listed twice. -/
theorem nodup_climb (hns : ns.Nodup) : (S.climb ns).Nodup := by
  induction ns using climb.induct S with
  | case1 ns h => rwa [climb_of_above_eq_nil h]
  | case2 ns k ks h _ _ _ ih =>
    rw [climb_of_above_eq_cons h]
    refine ih (List.nodup_append'.2 ⟨Graph.nodup_eraseDups _, hns, fun m hm => ?_⟩)
    exact (mem_above.1 (h ▸ List.mem_eraseDups.1 hm)).2

/-- A set has two nodes for each triple at most. -/
theorem length_nodes_le : S.nodes.length ≤ 2 * S.size := by
  have hall : ∀ us : List Triple,
      (us.flatMap fun t => t.subject :: t.object.node?.toList).length ≤ 2 * us.length := by
    intro us
    induction us with
    | nil => exact Nat.le_refl 0
    | cons u us ih =>
      rw [List.flatMap_cons, List.length_append, List.length_cons, List.length_cons]
      have hone : u.object.node?.toList.length ≤ 1 := by cases u.object.node? <;> simp
      omega
  exact hall S.toList

/-- All nodes but those that a climb starts at are nodes of the set. -/
theorem length_climb_le (hns : ns.Nodup) : (S.climb ns).length ≤ ns.length + 2 * S.size := by
  have hsub : S.climb ns ⊆ ns ++ S.nodes := by
    intro m hm
    obtain ⟨n, hn, hpath⟩ := mem_climb_iff.1 hm
    rcases hpath.cases_tail with rfl | ⟨k, -, hup⟩
    · exact List.mem_append_left _ hn
    · exact List.mem_append_right _ (S.mem_nodes_of_mem_parents hup)
  have hlength := (nodup_climb hns).length_le_of_subset hsub
  rw [List.length_append] at hlength
  exact hlength.trans (Nat.add_le_add_left length_nodes_le _)

/-- The triples to read again are the given ones, those of a subject whose types change, and those
around the nodes that steps up lead to. -/
theorem mem_mainsNear_iff : u ∈ S.mainsNear ts ↔ u ∈ ts ∨
    (∃ t ∈ ts, t.predicate = .rdf .type ∧ u ∈ S ∧ u.subject = t.subject) ∨
    ∃ t ∈ ts, ∃ n, ReflTransGen S.Up t.subject n ∧ u ∈ S.around n := by
  have htyped : u ∈ (ts.filter fun t => t.predicate == .rdf .type).flatMap
      (fun t => S.outgoing t.subject) ↔
      ∃ t ∈ ts, t.predicate = .rdf .type ∧ u ∈ S ∧ u.subject = t.subject := by
    simp only [List.mem_flatMap, List.mem_filter, beq_iff_eq, mem_outgoing, and_assoc]
  have hclimb : u ∈ (S.climb (ts.map Triple.subject).eraseDups).flatMap S.around ↔
      ∃ t ∈ ts, ∃ n, ReflTransGen S.Up t.subject n ∧ u ∈ S.around n := by
    simp only [List.mem_flatMap, mem_climb_iff, List.mem_eraseDups, List.mem_map]
    constructor
    · rintro ⟨n, ⟨_, ⟨t, ht, rfl⟩, hpath⟩, hu⟩
      exact ⟨t, ht, n, hpath, hu⟩
    · rintro ⟨t, ht, n, hpath, hu⟩
      exact ⟨n, ⟨_, ⟨t, ht, rfl⟩, hpath⟩, hu⟩
  rw [mainsNear, List.mem_eraseDups, List.mem_append, List.mem_append, htyped, hclimb, or_assoc]

/-- More triples are near more triples. -/
theorem mainsNear_subset {us : List Triple} (h : us ⊆ ts) : S.mainsNear us ⊆ S.mainsNear ts := by
  intro u hu
  rw [mem_mainsNear_iff] at hu ⊢
  rcases hu with hu | ⟨t, ht, htyped⟩ | ⟨t, ht, hclimbs⟩
  · exact Or.inl (h hu)
  · exact Or.inr (Or.inl ⟨t, h ht, htyped⟩)
  · exact Or.inr (Or.inr ⟨t, h ht, hclimbs⟩)

/-! ## Steps up -/

/-- A node has one value for each part of a triple that it stands for. -/
structure ReifiesOnce (S : TripleSet) (n : Node) : Prop where
  source : ∀ x y, ⟨n, .owl .annotatedSource, x⟩ ∈ S → ⟨n, .owl .annotatedSource, y⟩ ∈ S → x = y
  property : ∀ x y, ⟨n, .owl .annotatedProperty, x⟩ ∈ S →
    ⟨n, .owl .annotatedProperty, y⟩ ∈ S → x = y
  target : ∀ x y, ⟨n, .owl .annotatedTarget, x⟩ ∈ S → ⟨n, .owl .annotatedTarget, y⟩ ∈ S → x = y

/-- A node with one value for each property stands for one triple at most. -/
theorem reifiesOnce_of_forall (hone : ∀ t ∈ S.toList, ∀ u ∈ S.toList,
    t.subject = u.subject → t.predicate = u.predicate → t.object = u.object) :
    S.ReifiesOnce n where
  source _ _ hx hy := hone _ hx _ hy rfl rfl
  property _ _ hx hy := hone _ hx _ hy rfl rfl
  target _ _ hx hy := hone _ hx _ hy rfl rfl

/-- A node with the three parts of a triple, and no others, stands for the triple. -/
theorem ReifiesOnce.reified?_eq_some (h : S.ReifiesOnce n) (hn : ∀ u ∈ main.reifiedBy n, u ∈ S) :
    S.reified? n = some main := by
  simp only [Triple.reifiedBy, List.forall_mem_cons, List.not_mem_nil, false_implies,
    implies_true, and_true] at hn
  obtain ⟨hsource, hproperty, htarget⟩ := hn
  unfold reified?
  rw [object?_eq_some hsource fun _ ho => h.source _ _ ho hsource,
    object?_eq_some hproperty fun _ ho => h.property _ _ ho hproperty,
    object?_eq_some htarget fun _ ho => h.target _ _ ho htarget]
  rfl

/-- The triple that a node stands for is around the node. -/
theorem mem_around_of_reified? (h : S.reified? n = some main) : main ∈ S.around n := by
  simp [around, h]

/-- The triples with a blank node in them are around it. -/
theorem mem_around_of_isBlank (hn : n.isBlank = true) (ht : t ∈ S)
    (h : t.subject = n ∨ t.object = .node n) : t ∈ S.around n := by
  rw [around, if_pos hn, List.mem_append, List.mem_append, mem_incoming, mem_outgoing]
  exact Or.inr (h.symm.imp (⟨ht, ·⟩) (⟨ht, ·⟩))

/-- From a blank node steps up lead to the subjects of the triples that it ends. -/
theorem up_of_isBlank (hn : n.isBlank = true) (ht : t ∈ S) (h : t.object = .node n) :
    S.Up n t.subject := by
  refine List.mem_map.2 ⟨t, ?_, rfl⟩
  rw [if_pos hn, List.mem_append, mem_incoming]
  exact Or.inr ⟨ht, h⟩

/-- From a node that hangs from a triple steps up lead to the triple, if each step can be made:
from a blank node, or from one that stands for the triple. -/
theorem exists_path_of_hangs {us : List Triple} {x : Term} (hmain : main ∈ S)
    (hus : ∀ u ∈ us, u ∈ S)
    (hfree : ∀ u ∈ us, u ≠ main → u.subject.isBlank = true ∨ S.reified? u.subject = some main)
    (h : Hangs [.node main.subject, main.object] us x) (hx : x = .node n)
    (hn : n.isBlank = true ∨ S.reified? n = some main) :
    ∃ m, ReflTransGen S.Up n m ∧ main ∈ S.around m := by
  induction h generalizing n with
  | @root x hroot =>
    refine ⟨n, .refl, hn.elim (fun hblank => ?_) mem_around_of_reified?⟩
    refine mem_around_of_isBlank hblank hmain ?_
    simpa [hx, eq_comm] using hroot
  | @step u hu _ ih =>
    rcases hn with hblank | hreified
    · by_cases heq : u = main
      · subst heq
        exact ⟨n, .refl, mem_around_of_isBlank hblank hmain (Or.inr hx)⟩
      · obtain ⟨m, hpath, hm⟩ := ih rfl (hfree u hu heq)
        exact ⟨m, .head (up_of_isBlank hblank (hus u hu) hx) hpath, hm⟩
    · exact ⟨n, .refl, mem_around_of_reified? hreified⟩

end TripleSet

/-! ## Main triples -/

/-- A node that a footprint makes stand for its main triple. -/
def Footprint.IsReifier (f : Footprint) (n : Node) : Prop := ∀ u ∈ f.main.reifiedBy n, u ∈ f.triples

/-- From each triple of the footprint steps up can be made: all but the main one are about blank
nodes and about the node that stands for the main triple, and this node has one value for each of
the three parts of a triple. -/
structure Footprint.Anchored (f : Footprint) (S : TripleSet) : Prop where
  free : ∀ u ∈ f.triples, u ≠ f.main → u.subject.isBlank = true ∨ f.IsReifier u.subject
  once : ∀ n, f.IsReifier n → S.ReifiesOnce n

/-- The main triple is near each triple of an anchored footprint. -/
theorem Source.main_mem_mainsNear_of_anchored {R : Source} {a : AnnotatedAxiom} {f : Footprint}
    {t : Triple} (hscan : (a, f) ∈ R.scan) (hanchored : f.Anchored R.triples)
    (ht : t ∈ f.triples) : f.main ∈ R.triples.mainsNear [t] := by
  have hmem : ∀ u ∈ f.triples, u ∈ R.triples := fun u hu => triples_of_mem_scan hscan hu
  have hreified : ∀ n, f.IsReifier n → R.triples.reified? n = some f.main := fun n hn =>
    (hanchored.once n hn).reified?_eq_some fun u hu => hmem u (hn u hu)
  have hstep : ∀ u ∈ f.triples, u ≠ f.main →
      u.subject.isBlank = true ∨ R.triples.reified? u.subject = some f.main := fun u hu hne =>
    (hanchored.free u hu hne).imp_right (hreified _)
  by_cases heq : t = f.main
  · exact TripleSet.mem_mainsNear (heq ▸ List.mem_cons_self)
  refine TripleSet.mem_mainsNear_iff.2 (Or.inr (Or.inr ⟨t, List.mem_cons_self, ?_⟩))
  rcases hangs_or_reified_of_mem_scan hscan ht with hhangs | hn
  · exact TripleSet.exists_path_of_hangs (hmem _ List.mem_cons_self) hmem hstep hhangs rfl
      (hstep t ht heq)
  · exact ⟨t.subject, .refl, TripleSet.mem_around_of_reified? (hreified _ hn)⟩

/-- **Climbs.** Let the triples of a footprint, but for the main one, be about blank nodes and about
the node that stands for the main triple, and let this node have one value for each of the three
parts of a triple.  Then the main triple is near each triple of the footprint.  On every graph the
triples near some others are listed, each once, and the climb passes each node once that steps up
lead to: no more nodes than it starts at and the triples name. -/
theorem Source.main_mem_mainsNear_of_mem_scan (g : Graph) (settings : Settings) :
    (∀ a f, (a, f) ∈ scan ⟨g.union, settings⟩ →
      (∀ u ∈ f.triples, u ≠ f.main → u.subject.isBlank = true ∨ f.IsReifier u.subject) →
      (∀ n, f.IsReifier n → g.union.ReifiesOnce n) →
      ∀ t ∈ f.triples, f.main ∈ g.union.mainsNear [t]) ∧
    (∀ ns : List Node, ns.Nodup →
      (∀ m, m ∈ g.union.climb ns ↔ ∃ n ∈ ns, ReflTransGen g.union.Up n m) ∧
      (g.union.climb ns).Nodup ∧ (g.union.climb ns).length ≤ ns.length + 2 * g.size) ∧
    ∀ ts, (g.union.mainsNear ts).Nodup ∧ ∀ u, u ∈ g.union.mainsNear ts ↔ u ∈ ts ∨
      (∃ t ∈ ts, t.predicate = .rdf .type ∧ u ∈ g ∧ u.subject = t.subject) ∨
      ∃ t ∈ ts, ∃ n, ReflTransGen g.union.Up t.subject n ∧ u ∈ g.union.around n := by
  refine ⟨fun a f hscan hfree honce t ht => ?_, fun ns hns => ?_, fun ts => ?_⟩
  · exact main_mem_mainsNear_of_anchored hscan ⟨hfree, honce⟩ ht
  · rw [g.size_eq]
    exact ⟨fun m => TripleSet.mem_climb_iff, TripleSet.nodup_climb hns,
      TripleSet.length_climb_le hns⟩
  · simp only [← Graph.mem_union]
    exact ⟨Graph.nodup_eraseDups _, fun u => TripleSet.mem_mainsNear_iff⟩

/-- The main triple of a subclass of a union, which a node with a remark stands for, is near each
triple of its footprint. -/
theorem Source.main_mem_mainsNear_of_mem_scan_union :
    let n (x : String) : Node := .blank ⟨x⟩
    let main : Triple := ⟨.iri (.owl .Thing), .rdfs .subClassOf, n "u"⟩
    let g : Graph :=
      { base := .ofList ([main, ⟨n "u", .owl .unionOf, n "c"⟩,
          ⟨n "c", .rdf .first, .node (.iri (.owl .Thing))⟩, ⟨n "c", .rdf .rest, Term.nil⟩,
          ⟨n "r", .rdfs .comment, .node (.iri (.owl .Thing))⟩] ++ main.reifiedBy (n "r")) }
    ∃ e ∈ axiomsAt ⟨g.union, {}⟩ main,
      ⟨n "c", .rdf .first, .node (.iri (.owl .Thing))⟩ ∈ e.2.triples ∧ e.2.triples.length = 8 ∧
      ∀ t ∈ e.2.triples, main ∈ g.union.mainsNear [t] := by
  intro n main g
  obtain ⟨e, he, hdeep, hlength, hblank⟩ : ∃ e ∈ axiomsAt ⟨g.union, {}⟩ main,
      ⟨n "c", .rdf .first, .node (.iri (.owl .Thing))⟩ ∈ e.2.triples ∧ e.2.triples.length = 8 ∧
      ∀ u ∈ e.2.triples, u ≠ main → u.subject.isBlank = true := by decide +kernel
  have hmain : e.2.main = main := main_of_mem_axiomsAt he
  have honce : ∀ m, g.union.ReifiesOnce m :=
    fun m => TripleSet.reifiesOnce_of_forall (by decide +kernel)
  have hscan : (e.1, e.2) ∈ scan ⟨g.union, {}⟩ := by
    rw [← hmain] at he
    exact mem_scan_iff.2 he
  refine ⟨e, he, hdeep, hlength, fun t ht => ?_⟩
  rw [← hmain]
  refine (main_mem_mainsNear_of_mem_scan g {}).1 e.1 e.2 hscan (fun u hu hne => ?_)
    (fun m _ => honce m) t ht
  rw [hmain] at hne
  exact Or.inl (hblank u hu hne)

end Ontograph
