import Ontograph.Proofs.Mapping.Axioms
import Ontograph.Proofs.Owl.Remarks

/-!
# Writing and reading remarks

Remarks are read in the order of their triples and put in the order of their texts
(`Remark.canonical`).  If no two of them have the same text, that order does not depend on the one
they came in, so the remarks read are those written.  They are written on the node of the axiom, or
else on a node that stands for its main triple.
-/

namespace Ontograph

/-! ## Writing remarks -/

/-- The triple that makes a remark on a node. -/
def Remark.on (n : Node) (r : Remark) : Triple := ⟨n, r.property, r.value⟩

/-- The triples of a node that stands for a triple. -/
def Triple.reifiedAs (t : Triple) (n : Node) : List Triple :=
  [.typing n (.owl .Axiom), ⟨n, .owl .annotatedSource, t.subject⟩,
    ⟨n, .owl .annotatedProperty, .node (.iri t.predicate)⟩, ⟨n, .owl .annotatedTarget, t.object⟩]

namespace Drafting

variable {n : Node} {rs : List Remark} {t : Triple} {d d' : Draft} {u : Unit}

/-- Remarks on a node are written as one triple each, without fresh nodes. -/
theorem encodeRemarks_eq_ok_iff : encodeRemarks n rs d = .ok (u, d') ↔
    ⟨d.supply, d.triples ++ rs.map (Remark.on n)⟩ = d' := by
  induction rs generalizing d with
  | nil =>
    rw [encodeRemarks, pure_eq_ok_iff, List.map_nil, List.append_nil]
    exact and_iff_right rfl
  | cons r rs ih =>
    rw [encodeRemarks, bind_eq_ok_iff]
    constructor
    · rintro ⟨_, d₁, hemit, hrest⟩
      obtain rfl := emit_eq_ok_iff.1 hemit
      rw [← ih.1 hrest, List.map_cons, List.append_assoc]
      rfl
    · rintro rfl
      refine ⟨(), _, emit_eq_ok_iff.2 rfl, ih.2 ?_⟩
      rw [List.map_cons, List.append_assoc]
      rfl

/-- Remarks on a triple are written on a fresh node that stands for it. -/
theorem encodeReified_eq_ok_iff : encodeReified t rs d = .ok (u, d') ↔
    ⟨d.supply.tail, d.triples ++
      (t.reifiedAs d.supply.head ++ rs.map (Remark.on d.supply.head))⟩ = d' := by
  have h : encodeReified t rs d = encodeRemarks d.supply.head rs
      ⟨d.supply.tail, d.triples ++ [.typing d.supply.head (.owl .Axiom)] ++
        [⟨d.supply.head, .owl .annotatedSource, t.subject⟩] ++
        [⟨d.supply.head, .owl .annotatedProperty, .node (.iri t.predicate)⟩] ++
        [⟨d.supply.head, .owl .annotatedTarget, t.object⟩]⟩ := rfl
  rw [h, encodeRemarks_eq_ok_iff]
  simp only [Triple.reifiedAs, List.append_assoc, List.cons_append, List.nil_append]

end Drafting

/-! ## Reading remarks -/

namespace Source

variable {R : Source} {n : Node} {rs : List Remark} {main t : Triple}

/-- No remark is read twice from a node. -/
theorem nodup_remarksOf : (remarksOf (R.remarkTriples n)).Nodup := by
  refine ((R.triples.nodup.filter _).filter _).map_on ?_
  rintro ⟨m, p, o⟩ ht ⟨m', q, o'⟩ hu heq
  have hm : m = n := (TripleSet.mem_outgoing.1 (List.mem_of_mem_filter ht)).2
  have hm' : m' = n := (TripleSet.mem_outgoing.1 (List.mem_of_mem_filter hu)).2
  cases heq
  rw [hm, hm']

/-- Remarks made on a node, and no others, are the remarks read. -/
theorem canonical_remarksOf (hcanonical : Remark.canonical rs = rs)
    (htexts : (rs.map Remark.text).Nodup)
    (hread : ∀ t, t ∈ R.remarkTriples n ↔ t ∈ rs.map (Remark.on n)) :
    Remark.canonical (remarksOf (R.remarkTriples n)) = rs := by
  have hsame : ∀ r, r ∈ rs ↔ r ∈ remarksOf (R.remarkTriples n) := by
    intro r
    simp only [remarksOf, List.mem_map, hread]
    constructor
    · exact fun hr => ⟨r.on n, ⟨r, hr, rfl⟩, rfl⟩
    · rintro ⟨_, ⟨r', hr', rfl⟩, rfl⟩
      exact hr'
  have hperm : rs.Perm (remarksOf (R.remarkTriples n)) :=
    (List.perm_ext_iff_of_nodup (htexts.of_map Remark.text) nodup_remarksOf).2 hsame
  rw [← Remark.canonical_eq_of_perm hperm htexts, hcanonical]

end Source

end Ontograph
