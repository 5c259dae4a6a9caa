import Mathlib.Data.List.Nodup
import Mathlib.Tactic.Tauto
import Ontograph.Proofs.Graph.Edits
import Ontograph.Proofs.Mapping.Remarks

/-!
# The round trip

An axiom that was written to a graph is read back from its main triple, with its remarks and with
the triples that were written, and no other axiom is read from them (`axiomsAt_insertAll`).  The
graph may hold anything else, as long as it says nothing about the new nodes and no node stands for
the main triple already.
-/

namespace Ontograph

open Reading Drafting

/-! ## What was written -/

namespace Triple

variable {t u : Triple} {n : Node}

/-- What says which triple a node stands for is about the node. -/
theorem subject_of_mem_reifiedAs (h : u ∈ t.reifiedAs n) : u.subject = n := by
  simp only [reifiedAs, List.mem_cons, List.not_mem_nil, or_false] at h
  rcases h with rfl | rfl | rfl | rfl <;> rfl

/-- What says which triple a node stands for is no remark. -/
theorem canAnnotate_of_mem_reifiedAs (h : u ∈ t.reifiedAs n) :
    u.predicate.canAnnotate = false := by
  simp only [reifiedAs, List.mem_cons, List.not_mem_nil, or_false] at h
  rcases h with rfl | rfl | rfl | rfl <;> rfl

end Triple

namespace AnnotatedAxiom

variable {a : AnnotatedAxiom} {d d' : Draft} {main : Triple}

/-- After the axiom its remarks are written: on the node of the axiom, nowhere if there are none,
or on a node that stands for the main triple. -/
inductive Noted (a : AnnotatedAxiom) (anchor : Anchor) (d : Draft) : Draft → List Triple → Prop
  | rooted (h : anchor.rooted = true) : Noted a anchor d
      ⟨d.supply, d.triples ++ a.remarks.map (Remark.on anchor.main.subject)⟩
      (a.remarks.map (Remark.on anchor.main.subject))
  | bare (h : anchor.rooted = false) (hremarks : a.remarks = []) : Noted a anchor d d []
  | reified (h : anchor.rooted = false) (hremarks : a.remarks ≠ []) : Noted a anchor d
      ⟨d.supply.tail, d.triples ++ (anchor.main.reifiedAs d.supply.head ++
        a.remarks.map (Remark.on d.supply.head))⟩
      (anchor.main.reifiedAs d.supply.head ++ a.remarks.map (Remark.on d.supply.head))

/-- A draft writes the axiom and then its remarks. -/
theorem exists_noted_of_draft (h : a.draft d = .ok (main, d')) :
    ∃ anchor d₁ notes, a.base.encode d = .ok (anchor, d₁) ∧ anchor.main = main ∧
      a.Noted anchor d₁ d' notes := by
  obtain ⟨anchor, d₁, hbase, h⟩ := bind_eq_ok_iff.1 h
  split at h
  case isTrue hrooted =>
    obtain ⟨_, d₂, hremarks, h⟩ := bind_eq_ok_iff.1 h
    obtain ⟨hmain, rfl⟩ := pure_eq_ok_iff.1 h
    obtain rfl := encodeRemarks_eq_ok_iff.1 hremarks
    exact ⟨anchor, d₁, _, hbase, hmain, .rooted hrooted⟩
  case isFalse hrooted =>
    have hplain : anchor.rooted = false := by simpa using hrooted
    split at h
    case isTrue hannotated =>
      obtain ⟨_, d₂, hremarks, h⟩ := bind_eq_ok_iff.1 h
      obtain ⟨hmain, rfl⟩ := pure_eq_ok_iff.1 h
      obtain rfl := encodeReified_eq_ok_iff.1 hremarks
      refine ⟨anchor, d₁, _, hbase, hmain, .reified hplain ?_⟩
      intro hnone
      simp [isAnnotated, hnone] at hannotated
    case isFalse hbare =>
      obtain ⟨hmain, rfl⟩ := pure_eq_ok_iff.1 h
      refine ⟨anchor, d₁, _, hbase, hmain, .bare hplain ?_⟩
      simpa [isAnnotated] using hbare

/-- The remarks are written after the axiom. -/
theorem Noted.triples {anchor : Anchor} {notes : List Triple} (h : a.Noted anchor d d' notes) :
    d'.triples = d.triples ++ notes := by
  cases h with
  | rooted => rfl
  | bare => rw [List.append_nil]
  | reified => rfl

/-- Writing remarks takes fresh nodes in order. -/
theorem Noted.precedes {anchor : Anchor} {notes : List Triple} (h : a.Noted anchor d d' notes) :
    d.supply.Precedes d'.supply := by
  cases h with
  | rooted => exact .refl
  | bare => exact .refl
  | reified => exact Supply.precedes_tail

/-- The triples of the remarks are about the node of the axiom or about a new node. -/
theorem Noted.subject_eq {anchor : Anchor} {notes : List Triple} {t : Triple}
    (h : a.Noted anchor d d' notes) (ht : t ∈ notes) :
    anchor.rooted = true ∧ (∃ r ∈ a.remarks, t = r.on anchor.main.subject) ∨
      t.subject = d.supply.head ∧ d'.supply = d.supply.tail := by
  cases h with
  | rooted hrooted =>
    obtain ⟨r, hr, rfl⟩ := List.mem_map.1 ht
    exact Or.inl ⟨hrooted, r, hr, rfl⟩
  | bare => cases ht
  | reified =>
    refine Or.inr ⟨?_, rfl⟩
    rcases List.mem_append.1 ht with ht | ht
    · exact Triple.subject_of_mem_reifiedAs ht
    · obtain ⟨r, -, rfl⟩ := List.mem_map.1 ht
      rfl

/-- The triples of remarks are about nodes that the draft made. -/
theorem Noted.makes {anchor : Anchor} {notes ts : List Triple} {t : Triple} {d₁ : Draft}
    (h : a.Noted anchor d₁ d' notes) (hwritten : a.base.Written d d₁ anchor ts)
    (ht : t ∈ notes) : d.supply.Makes d'.supply t.subject := by
  rcases h.subject_eq ht with ⟨hrooted, r, -, rfl⟩ | ⟨hsubject, htail⟩
  · exact (hwritten.rooted hrooted).1.mono .refl h.precedes
  · rw [hsubject, htail]
    exact Supply.makes_head_tail.mono hwritten.toPrecedes .refl

end AnnotatedAxiom

/-! ## Reading it back -/

namespace Source

variable {R : Source} {t main : Triple} {n : Node} {ax : Axiom} {a : AnnotatedAxiom}
  {d d₁ d' : Draft} {anchor : Anchor} {ts notes : List Triple} {G : TripleSet} {p : Iri}

/-- No axioms are found at a mute triple. -/
theorem Mute.axiomsAt_eq_nil (h : R.Mute t) : R.axiomsAt t = [] := by
  unfold axiomsAt
  split
  case isTrue =>
    rw [h []]
  case isFalse => rfl

/-- A blank node of a structural type is structural. -/
theorem isStructural_of_hasType {c : Iri} (hn : n.isBlank = true) (hc : c ∈ structuralTypes)
    (h : R.triples.hasType n c = true) : R.isStructural n = true := by
  have hany : structuralTypes.any (fun c => R.triples.hasType n c) = true :=
    List.any_eq_true.2 ⟨c, hc, h⟩
  simp [isStructural, hn, hany]

/-- Nothing is asserted of a node that belongs to the encoding of something else. -/
theorem mute_of_isStructural (hp : t.predicate.canAnnotate = true)
    (hs : R.isStructural t.subject = true) : R.Mute t := by
  refine mute_of_read ?_ (statement_of_canAnnotate hp)
  unfold assertion
  rw [hs]
  exact fails_plain fails_failure

/-- No node is listed twice among those that stand for a triple. -/
theorem nodup_reifiers (R : Source) : (R.reifiers t).Nodup := by
  refine List.Nodup.filter _ (List.Nodup.filterMap ?_ R.triples.nodup)
  rintro ⟨s, p, o⟩ ⟨s', p', o'⟩ n hn hn'
  simp only [Option.mem_def, Option.ite_none_right_eq_some, Bool.and_eq_true, beq_iff_eq,
    Option.some.injEq] at hn hn'
  obtain ⟨⟨rfl, rfl⟩, rfl⟩ := hn
  obtain ⟨⟨rfl, rfl⟩, rfl⟩ := hn'
  rfl

/-- A main triple does not make its subject stand for another triple. -/
theorem predicate_ne_of_yields {r : Axiom × Bool} (h : Yields (R.statement main) r ts)
    (hp : p ∈ reifyingPredicates) : main.predicate ≠ p := by
  rintro rfl
  obtain ⟨us, hrun, -⟩ := h
  have hnone := mute_of_mem_reifyingPredicates (R := R) hp []
  rw [hrun] at hnone
  cases hnone

/-- The source holds what another one held before, the main triple of an axiom, its other triples
and the triples of its remarks; before, nothing was said about the nodes that are new. -/
structure Received (R : Source) (G : TripleSet) (s s' : Supply) (main : Triple)
    (ts notes : List Triple) : Prop where
  mem_iff : ∀ t, t ∈ R.triples ↔ t ∈ G ∨ t = main ∨ t ∈ ts ∨ t ∈ notes
  fresh : ∀ t ∈ G, ¬ s.Makes s' t.subject

/-- The axiom under the remarks is read, and nothing from its other triples. -/
theorem Received.reads (hR : R.Received G d.supply d'.supply anchor.main ts notes)
    (hwritten : a.base.Written d d₁ anchor ts) (hnoted : a.Noted anchor d₁ d' notes)
    (hremarks : ∀ r ∈ a.remarks, r.property.canAnnotate = true) (hnil : R.triples.NilEnds)
    (hfits : a.base.ReadableIn R)
    (hheader : R.triples.hasType anchor.main.subject (.owl .Ontology) = false) :
    Yields (R.statement anchor.main) (a.base, anchor.rooted) ts ∧ ∀ t ∈ ts, R.Mute t := by
  refine hwritten.reads R hnil hfits hheader ⟨fun t ht => ?_, fun t ht hmade => ?_⟩
  · rw [hR.mem_iff]
    split at ht
    case isTrue =>
      rcases List.mem_cons.1 ht with rfl | ht
      · exact Or.inr (Or.inl rfl)
      · exact Or.inr (Or.inr (Or.inl ht))
    case isFalse => exact Or.inr (Or.inr (Or.inl ht))
  · rcases (hR.mem_iff t).1 ht with ht | rfl | ht | ht
    · exact absurd (hmade.mono .refl hnoted.precedes) (hR.fresh t ht)
    · cases hrooted : anchor.rooted with
      | true => exact Or.inl (by simp)
      | false => exact Or.inr ⟨rfl, hwritten.plain hrooted hmade⟩
    · refine Or.inl ?_
      split
      case isTrue => exact List.mem_cons_of_mem _ ht
      case isFalse => exact ht
    · rcases hnoted.subject_eq ht with ⟨-, r, hr, rfl⟩ | ⟨hsubject, -⟩
      · refine Or.inr ⟨rfl, ?_⟩
        simp [Iri.attaches, Remark.on, hremarks r hr]
      · -- A node taken for the remarks is none of those taken before.
        exact absurd hsubject (hmade.ne_head hwritten.toPrecedes)

/-- A node stands for the main triple only if this was written with the remarks. -/
theorem Received.exists_of_mem_reifiers
    (hR : R.Received G d.supply d'.supply anchor.main ts notes)
    (hwritten : a.base.Written d d₁ anchor ts) (hnoted : a.Noted anchor d₁ d' notes)
    (hyields : Yields (R.statement anchor.main) (a.base, anchor.rooted) ts)
    (hfree : ∀ n, ¬ (⟨n, .owl .annotatedSource, .node anchor.main.subject⟩ ∈ G ∧
      ⟨n, .owl .annotatedProperty, .node (.iri anchor.main.predicate)⟩ ∈ G ∧
      ⟨n, .owl .annotatedTarget, anchor.main.object⟩ ∈ G))
    (hn : n ∈ R.reifiers anchor.main) :
    ∃ t ∈ notes, t.subject = n ∧ t.predicate = .owl .annotatedSource := by
  obtain ⟨hsource, hproperty, htarget⟩ := mem_reifiers.1 hn
  have hmain : ∀ p ∈ reifyingPredicates, anchor.main.predicate ≠ p := fun p hp =>
    predicate_ne_of_yields hyields hp
  rcases (hR.mem_iff _).1 hsource with hold | he | hmem | hmem
  · -- A node that was there says all three things itself, for nothing else is written about it.
    have hn : ¬ d.supply.Makes d'.supply n := hR.fresh _ hold
    have hstill : ∀ p ∈ reifyingPredicates, ∀ o, ⟨n, p, o⟩ ∈ R.triples → ⟨n, p, o⟩ ∈ G := by
      intro p hp o ho
      rcases (hR.mem_iff _).1 ho with hmem | he | hmem | hmem
      · exact hmem
      · exact absurd (congrArg Triple.predicate he).symm (hmain p hp)
      · exact absurd ((hwritten.subjects _ hmem).mono .refl hnoted.precedes) hn
      · exact absurd (hnoted.makes hwritten hmem) hn
    exact absurd ⟨hold, hstill _ (by decide) _ hproperty, hstill _ (by decide) _ htarget⟩ (hfree n)
  · exact absurd (congrArg Triple.predicate he).symm (hmain (.owl .annotatedSource) (by decide))
  · have hreifies := hwritten.reifies _ hmem
    cases hreifies
  · exact ⟨_, hmem, rfl, rfl⟩

/-- The remarks read from the node they were written on are those written. -/
theorem Received.mem_remarkTriples_iff {s s' : Supply}
    (hR : R.Received G s s' anchor.main ts notes) (hn : s.Makes s' n)
    (hmain : anchor.main.subject = n → anchor.main.predicate.canAnnotate = false)
    (hts : ∀ t ∈ ts, t.subject = n → t.predicate.canAnnotate = false)
    (hnotes : ∀ t, t ∈ notes ∧ t.subject = n ∧ t.predicate.canAnnotate = true ↔
      t ∈ a.remarks.map (Remark.on n)) :
    t ∈ R.remarkTriples n ↔ t ∈ a.remarks.map (Remark.on n) := by
  rw [remarkTriples, List.mem_filter, TripleSet.mem_outgoing, ← hnotes, hR.mem_iff]
  constructor
  · rintro ⟨⟨hmem | rfl | hmem | hmem, rfl⟩, hp⟩
    · exact absurd hn (hR.fresh t hmem)
    · rw [hmain rfl] at hp
      cases hp
    · rw [hts t hmem rfl] at hp
      cases hp
    · exact ⟨hmem, rfl, hp⟩
  · rintro ⟨hmem, hs, hp⟩
    exact ⟨⟨Or.inr (Or.inr (Or.inr hmem)), hs⟩, hp⟩

/-- If one node was made to stand for a triple and no other does, it is the only one. -/
theorem reifiers_eq_singleton {m : Node} (hown : ∀ t ∈ main.reifiedAs m, t ∈ R.triples)
    (honly : ∀ n ∈ R.reifiers main, n = m) : R.reifiers main = [m] := by
  have hmem : m ∈ R.reifiers main := by
    refine mem_reifiers.2 ⟨?_, ?_, ?_⟩
    · exact hown _ (by simp [Triple.reifiedAs])
    · exact hown _ (by simp [Triple.reifiedAs])
    · exact hown _ (by simp [Triple.reifiedAs])
  exact TripleSet.eq_singleton_of_nodup R.nodup_reifiers hmem honly

/-- What remarks say of a node is about the node, by properties that can annotate. -/
theorem remark_of_mem_map {rs : List Remark} (hremarks : ∀ r ∈ rs, r.property.canAnnotate = true)
    (ht : t ∈ rs.map (Remark.on n)) : t.subject = n ∧ t.predicate.canAnnotate = true := by
  obtain ⟨r, hr, rfl⟩ := List.mem_map.1 ht
  exact ⟨rfl, hremarks r hr⟩

/-- The remarks read from the node that was made for them are those written. -/
theorem Received.mem_remarkTriples_of_reified
    (hR : R.Received G d.supply d₁.supply.tail anchor.main ts
      (anchor.main.reifiedAs d₁.supply.head ++ a.remarks.map (Remark.on d₁.supply.head)))
    (hwritten : a.base.Written d d₁ anchor ts)
    (hyields : Yields (R.statement anchor.main) (a.base, anchor.rooted) ts)
    (htype : R.triples.hasType d₁.supply.head (.owl .Axiom) = true)
    (hremarks : ∀ r ∈ a.remarks, r.property.canAnnotate = true) :
    t ∈ R.remarkTriples d₁.supply.head ↔ t ∈ a.remarks.map (Remark.on d₁.supply.head) := by
  have hmade : d.supply.Makes d₁.supply.tail d₁.supply.head :=
    Supply.makes_head_tail.mono hwritten.toPrecedes .refl
  refine hR.mem_remarkTriples_iff hmade (fun hsubject => ?_) (fun t ht hsubject => ?_)
    fun t => ⟨fun h => ?_, fun h => ⟨List.mem_append_right _ h, remark_of_mem_map hremarks h⟩⟩
  · -- The node of the remarks is structural, and nothing is asserted of it.
    have hstructural : R.isStructural d₁.supply.head = true :=
      isStructural_of_hasType rfl (by decide) htype
    refine Bool.eq_false_iff.2 fun hp => ?_
    have hmute := mute_of_isStructural (R := R) hp (by rw [hsubject, hstructural])
    obtain ⟨us, hrun, -⟩ := hyields.run_nil
    rw [hmute []] at hrun
    cases hrun
  · exact absurd hsubject ((hwritten.subjects t ht).ne_head hwritten.toPrecedes)
  · rcases List.mem_append.1 h.1 with ht | ht
    · have hp := Triple.canAnnotate_of_mem_reifiedAs ht
      rw [h.2.2] at hp
      cases hp
    · exact ht

/-- The axiom is read from its main triple, with its remarks and with what was written. -/
theorem Received.exists_axiomsAt_eq
    (hR : R.Received G d.supply d'.supply anchor.main ts notes)
    (hwritten : a.base.Written d d₁ anchor ts) (hnoted : a.Noted anchor d₁ d' notes)
    (hyields : Yields (R.statement anchor.main) (a.base, anchor.rooted) ts)
    (hcanonical : Remark.canonical a.remarks = a.remarks)
    (htexts : (a.remarks.map Remark.text).Nodup)
    (hremarks : ∀ r ∈ a.remarks, r.property.canAnnotate = true)
    (hfree : ∀ n, ¬ (⟨n, .owl .annotatedSource, .node anchor.main.subject⟩ ∈ G ∧
      ⟨n, .owl .annotatedProperty, .node (.iri anchor.main.predicate)⟩ ∈ G ∧
      ⟨n, .owl .annotatedTarget, anchor.main.object⟩ ∈ G)) :
    ∃ F : Footprint, R.axiomsAt anchor.main = [(a, F)] ∧ F.main = anchor.main ∧
      ∀ t, t ∈ F.triples ↔ t = anchor.main ∨ t ∈ ts ∨ t ∈ notes := by
  obtain ⟨us, hrun, hus⟩ := hyields.run_nil
  have hmain : anchor.main ∈ R.triples := (hR.mem_iff _).2 (Or.inr (Or.inl rfl))
  have hstands := fun n (hn : n ∈ R.reifiers anchor.main) =>
    hR.exists_of_mem_reifiers hwritten hnoted hyields hfree hn
  unfold axiomsAt
  rw [if_pos hmain, hrun]
  cases hnoted with
  | rooted hrooted =>
    obtain ⟨hmade, c, -, htyping⟩ := hwritten.rooted hrooted
    have hmem : ∀ t, t ∈ R.remarkTriples anchor.main.subject ↔
        t ∈ a.remarks.map (Remark.on anchor.main.subject) := by
      intro t
      refine hR.mem_remarkTriples_iff hmade (fun _ => ?_) (hwritten.silent hrooted) fun t => ?_
      · rw [htyping]
        rfl
      · exact ⟨fun h => h.1, fun h => ⟨h, remark_of_mem_map hremarks h⟩⟩
    rw [hrooted]
    dsimp only
    rw [AnnotatedAxiom.of, canonical_remarksOf hcanonical htexts hmem]
    refine ⟨_, rfl, rfl, fun t => ?_⟩
    rw [Footprint.mem_triples_of, List.mem_append, hus, hmem]
  | bare hplain hnone =>
    have hnobody : R.reifiers anchor.main = [] := by
      refine List.eq_nil_iff_forall_not_mem.2 fun n hn => ?_
      obtain ⟨t, ht, -⟩ := hstands n hn
      cases ht
    rw [hplain, hnobody]
    obtain ⟨ax, rs⟩ := a
    obtain rfl : rs = [] := hnone
    refine ⟨_, rfl, rfl, fun t => ?_⟩
    rw [Footprint.mem_triples_of, hus]
    simp
  | reified hplain hsome =>
    have hown : ∀ t ∈ anchor.main.reifiedAs d₁.supply.head, t ∈ R.triples := fun t ht =>
      (hR.mem_iff t).2 (Or.inr (Or.inr (Or.inr (List.mem_append_left _ ht))))
    have htype : R.triples.hasType d₁.supply.head (.owl .Axiom) = true :=
      TripleSet.hasType_iff.2 (hown _ (by simp [Triple.reifiedAs, Triple.typing]))
    -- only the node that was written stands for the main triple
    have hone : R.reifiers anchor.main = [d₁.supply.head] := by
      refine reifiers_eq_singleton hown fun n hn => ?_
      obtain ⟨t, ht, rfl, -⟩ := hstands n hn
      rcases List.mem_append.1 ht with ht | ht
      · exact Triple.subject_of_mem_reifiedAs ht
      · exact (remark_of_mem_map hremarks ht).1
    have hmem : ∀ t, t ∈ R.remarkTriples d₁.supply.head ↔
        t ∈ a.remarks.map (Remark.on d₁.supply.head) := fun t =>
      hR.mem_remarkTriples_of_reified hwritten hyields htype hremarks
    have hof : AnnotatedAxiom.of a.base (remarksOf (R.remarkTriples d₁.supply.head)) = a := by
      rw [AnnotatedAxiom.of, canonical_remarksOf hcanonical htexts hmem]
    rw [hplain, hone]
    refine ⟨.of anchor.main (us ++ R.reification d₁.supply.head anchor.main ++
      R.remarkTriples d₁.supply.head), ?_, rfl, fun t => ?_⟩
    · show [(AnnotatedAxiom.of a.base (remarksOf (R.remarkTriples d₁.supply.head)), _)] = _
      rw [hof]
    · rw [Footprint.mem_triples_of, List.mem_append, List.mem_append, hus, hmem, reification,
        htype, List.mem_append, Triple.reifiedAs]
      simp only [if_true, List.mem_append, List.mem_cons, List.not_mem_nil, or_false]
      tauto

/-- Nothing is read from the triples of the remarks. -/
theorem Received.mute_of_mem (hR : R.Received G d.supply d'.supply anchor.main ts notes)
    (hwritten : a.base.Written d d₁ anchor ts) (hnoted : a.Noted anchor d₁ d' notes)
    (hremarks : ∀ r ∈ a.remarks, r.property.canAnnotate = true) (ht : t ∈ notes) :
    R.Mute t := by
  cases hnoted with
  | rooted hrooted =>
    obtain ⟨r, hr, rfl⟩ := List.mem_map.1 ht
    obtain ⟨hmade, c, hc, htyping⟩ := hwritten.rooted hrooted
    have htype : R.triples.hasType anchor.main.subject c = true := by
      rw [TripleSet.hasType_iff, hR.mem_iff]
      exact Or.inr (Or.inl htyping.symm)
    exact mute_of_isStructural (hremarks r hr) (isStructural_of_hasType hmade.isBlank hc htype)
  | bare => cases ht
  | reified =>
    rcases List.mem_append.1 ht with hown | hremark
    · simp only [Triple.reifiedAs, List.mem_cons, List.not_mem_nil, or_false] at hown
      rcases hown with rfl | rfl | rfl | rfl
      · exact mute_typing rfl (by simp [encodingTypes])
      · exact mute_of_mem_reifyingPredicates (by simp [reifyingPredicates])
      · exact mute_of_mem_reifyingPredicates (by simp [reifyingPredicates])
      · exact mute_of_mem_reifyingPredicates (by simp [reifyingPredicates])
    · obtain ⟨r, hr, rfl⟩ := List.mem_map.1 hremark
      have htype : R.triples.hasType d₁.supply.head (.owl .Axiom) = true := by
        rw [TripleSet.hasType_iff, hR.mem_iff]
        exact Or.inr (Or.inr (Or.inr (List.mem_append_left _ (by
          simp [Triple.reifiedAs, Triple.typing]))))
      exact mute_of_isStructural (hremarks r hr)
        (isStructural_of_hasType rfl (by decide) htype)

end Source

/-! ## The main result -/

/-- The source that a graph is once a footprint was written to it. -/
def Source.after (g : Graph) (F : Footprint) (settings : Settings) : Source :=
  ⟨(g.insertAll F.triples).2.union, settings⟩

open Source in
/-- **Round trip.** An axiom that is written to a graph is read from its main triple, and is the
only one read from it; it is read with its remarks and from the triples that were written.  From
the others of these triples no axiom is read.  Nothing may be said beforehand about the nodes that
are new, no node may stand for the main triple, and the graph has to classify what the axiom
mentions as the axiom has it. -/
theorem axiomsAt_after_encode {g : Graph} {settings : Settings} {ax : Axiom} {rs : List Remark}
    {supply supply' : Supply} {F : Footprint}
    (hencode : (AnnotatedAxiom.of ax rs).encode supply = .ok (F, supply'))
    (htexts : (rs.map Remark.text).Nodup) (hremarks : ∀ r ∈ rs, r.property.canAnnotate = true)
    (hfresh : ∀ t ∈ g, ¬ supply.Makes supply' t.subject)
    (hoperands : ∀ n ∈ ax.operands, ¬ supply.Makes supply' n)
    (hfree : reifiers ⟨g.union, settings⟩ F.main = [])
    (hnil : (after g F settings).triples.NilEnds)
    (hheader : (after g F settings).triples.hasType F.main.subject (.owl .Ontology) = false)
    (hfits : ax.ReadableIn (after g F settings)) :
    ∃ F' : Footprint, (after g F settings).axiomsAt F.main = [(.of ax rs, F')] ∧
      F'.main = F.main ∧ (∀ t, t ∈ F'.triples ↔ t ∈ F.triples) ∧
      ∀ t ∈ F.triples, t ≠ F.main → (after g F settings).axiomsAt t = [] := by
  have hperm := Remark.canonical_perm htexts
  have hremarks' : ∀ r ∈ Remark.canonical rs, r.property.canAnnotate = true := fun r hr =>
    hremarks r (hperm.mem_iff.1 hr)
  have htexts' : ((Remark.canonical rs).map Remark.text).Nodup :=
    (hperm.map Remark.text).nodup_iff.2 htexts
  have hcanonical : Remark.canonical (Remark.canonical rs) = Remark.canonical rs :=
    Remark.canonical_eq_of_perm hperm htexts'
  obtain ⟨main, d', hdraft, rfl, rfl⟩ : ∃ main d', (AnnotatedAxiom.of ax rs).draft { supply } =
      .ok (main, d') ∧ Footprint.of main d'.triples = F ∧ d'.supply = supply' := by
    unfold AnnotatedAxiom.encode at hencode
    split at hencode
    case h_1 main d' hdraft =>
      cases hencode
      exact ⟨main, d', hdraft, rfl, rfl⟩
    case h_2 => cases hencode
  -- the axiom is written first, and its remarks on top of it
  obtain ⟨anchor, d₁, notes, hbase, rfl, hnoted⟩ := AnnotatedAxiom.exists_noted_of_draft hdraft
  obtain ⟨ts, hwritten⟩ := Axiom.exists_written_of_encode hbase fun n hn hmade =>
    hoperands n hn (hmade.mono .refl hnoted.precedes)
  have hwrote : ∀ t, t ∈ (Footprint.of anchor.main d'.triples).triples ↔
      t = anchor.main ∨ t ∈ ts ∨ t ∈ notes := by
    intro t
    rw [Footprint.mem_triples_of, hnoted.triples, List.mem_append, hwritten.mem_iff]
    simp only [List.not_mem_nil, false_or]
    tauto
  -- so the graph has become the old one and these triples, about new nodes only
  have hreceived : Received (after g (Footprint.of anchor.main d'.triples) settings)
      g.union supply d'.supply anchor.main ts notes := by
    refine ⟨fun t => ?_, fun t ht => hfresh t (Graph.mem_union.1 ht)⟩
    rw [after, Graph.mem_union, Graph.mem_insertAll, hwrote, Graph.mem_union]
  obtain ⟨hyields, hmute⟩ := hreceived.reads hwritten hnoted hremarks' hnil hfits hheader
  obtain ⟨F', hread, hmain, hmem⟩ := hreceived.exists_axiomsAt_eq hwritten hnoted hyields
    hcanonical htexts' hremarks' (by
      intro n hn
      have hbad : n ∈ reifiers ⟨g.union, settings⟩ anchor.main := mem_reifiers.2 hn
      have hnone : reifiers ⟨g.union, settings⟩ anchor.main = [] := hfree
      rw [hnone] at hbad
      cases hbad)
  refine ⟨F', hread, hmain, fun t => ?_, fun t ht hne => ?_⟩
  · rw [hmem, hwrote]
  · rcases (hwrote t).1 ht with rfl | ht | ht
    · exact absurd rfl hne
    · exact (hmute t ht).axiomsAt_eq_nil
    · exact (hreceived.mute_of_mem hwritten hnoted hremarks' ht).axiomsAt_eq_nil

open Source in
/-- A class with an anonymous superclass and a remark, written to a graph with one triple. -/
theorem axiomsAt_after_encode_subClassOf :
    let a : Iri := .ofValue "http://example.org/a"
    let p : Iri := .ofValue "http://example.org/p"
    let n : Nat → Node := Supply.nth ⟨"n", 0⟩
    let g : Graph := { base := .ofList [.typing (.iri p) (.owl .ObjectProperty)] }
    let sub : Axiom := .subClassOf (.named a) (.objectValues .some (.named p) (.named a))
    let remark : Remark := ⟨.rdfs .comment, .literal (.plain "x")⟩
    let main : Triple := ⟨.iri a, .rdfs .subClassOf, .node (n 0)⟩
    let F : Footprint := ⟨main, [.typing (n 0) (.owl .Restriction),
      ⟨n 0, .owl .onProperty, .node (.iri p)⟩, ⟨n 0, .owl .someValuesFrom, .node (.iri a)⟩] ++
      main.reifiedAs (n 1) ++ [remark.on (n 1)]⟩
    ∃ F' : Footprint, (after g F {}).axiomsAt main = [(.of sub [remark], F')] ∧
      F'.main = main ∧ (∀ t, t ∈ F'.triples ↔ t ∈ F.triples) ∧
      ∀ t ∈ F.triples, t ≠ main → (after g F {}).axiomsAt t = [] := by
  intro a p n g sub remark main F
  have hencode : (AnnotatedAxiom.of sub [remark]).encode ⟨"n", 0⟩ = .ok (F, ⟨"n", 2⟩) := by
    decide +kernel
  refine axiomsAt_after_encode hencode ?_ ?_ ?_ ?_ ?_ ?_ ?_ ?_
  · simp
  · decide +kernel
  · intro t ht
    obtain rfl : t = .typing (.iri p) (.owl .ObjectProperty) := by
      simpa [g, Graph.mem_def] using ht
    exact Supply.not_makes_iri
  · intro n hn
    obtain rfl : n = .iri a := by
      simpa [sub, Axiom.operands, Axiom.operands.named, ClassExpr.class?] using hn
    exact Supply.not_makes_iri
  · decide +kernel
  · exact TripleSet.nilEnds_of_describes (by decide +kernel)
  · decide +kernel
  · have hp : (after g F {}).isA .objectProperty (.node (.iri p)) = true := by decide +kernel
    generalize after g F {} = R at hp
    simp only [sub, Axiom.ReadableIn, ClassExpr.ReadableIn, true_and, and_true]
    exact hp

open Source in
/-- Nothing of what the round trip asks can be left out: an axiom does not come back, or not alone,
if its subject is a header, a remark has a reserved property, a list is too long, an individual is
part of another encoding, a facet is an annotation property, or `rdf:nil` is a cell. -/
theorem axiomsAt_after_encode_unmet :
    let a : Iri := .ofValue "http://example.org/a"
    let b : Iri := .ofValue "http://example.org/b"
    let i : Node := .blank ⟨"i"⟩
    let s (k : Nat) : Supply := ⟨"n", k⟩
    let n : Nat → Node := (s 0).nth
    let isClass : Axiom := .declaration ⟨.owlClass, a⟩
    let remark : Remark := ⟨.owl .sameAs, .node (.iri b)⟩
    let range : Axiom := .dataPropertyRange a
      (.restriction (.xsd .string) [(.rdfs .label, .plain "x")])
    let facet : Triple := ⟨n 1, .rdfs .label, .literal (.plain "x")⟩
    let cell : Triple := ⟨.iri (.rdf .nil), .rdf .first, .node (.iri a)⟩
    let declared : Footprint := ⟨.typing (.iri a) (.owl .Class), []⟩
    let remarked : Footprint := ⟨declared.main,
      declared.main.reifiedAs (n 0) ++ [remark.on (n 0)]⟩
    let listed : Footprint := ⟨⟨.iri a, .owl .disjointUnionOf, .node (n 0)⟩,
      [⟨n 0, .rdf .first, .node (.iri b)⟩, ⟨n 0, .rdf .rest, .node (.iri (.rdf .nil))⟩]⟩
    let asserted : Footprint := ⟨.typing i a, []⟩
    let restricted : Footprint := ⟨⟨.iri a, .rdfs .range, .node (n 0)⟩,
      [.typing (n 0) (.rdfs .Datatype),
        ⟨n 0, .owl .onDatatype, .node (.iri (.xsd .string))⟩, facet,
        ⟨n 2, .rdf .first, .node (n 1)⟩, ⟨n 2, .rdf .rest, .node (.iri (.rdf .nil))⟩,
        ⟨n 0, .owl .withRestrictions, .node (n 2)⟩]⟩
    let typed : Source :=
      after { base := .ofList [.typing (.iri a) (.owl .DatatypeProperty)] } restricted {}
    -- the subject is an ontology header
    ((AnnotatedAxiom.of isClass []).encode (s 0) = .ok (declared, s 0) ∧
      (after { base := .ofList [.typing (.iri a) (.owl .Ontology)] } declared {}).axiomsAt
        declared.main = []) ∧
    -- a remark has a reserved property
    ((AnnotatedAxiom.of isClass [remark]).encode (s 0) = .ok (remarked, s 1) ∧
      ((after {} remarked {}).axiomsAt declared.main).map Prod.fst = [.of isClass []]) ∧
    -- a list is longer than the limit
    ((AnnotatedAxiom.of (.disjointUnion a [.named b]) []).encode (s 0) = .ok (listed, s 1) ∧
      (after {} listed { listLimit := 0 }).axiomsAt listed.main = []) ∧
    -- the individual belongs to the encoding of something else
    ((AnnotatedAxiom.of (.classAssertion (.named a) i) []).encode (s 0) = .ok (asserted, s 0) ∧
      (after { base := .ofList [.typing i (.owl .AllDifferent)] } asserted {}).axiomsAt
        asserted.main = []) ∧
    -- a facet is an annotation property
    ((AnnotatedAxiom.of range []).encode (s 0) = .ok (restricted, s 3) ∧
      typed.isA .dataProperty (.node (.iri a)) = true ∧
      typed.isA .objectProperty (.node (.iri a)) = false ∧
      (typed.axiomsAt facet).map Prod.fst =
        [.of (.annotationAssertion (.rdfs .label) (n 1) (.literal (.plain "x"))) []]) ∧
    -- the end of lists is a cell
    ((after { base := .ofList [cell] } listed {}).axiomsAt listed.main).map Prod.snd =
      [⟨listed.main, listed.others ++ [cell]⟩] := by
  decide +kernel

end Ontograph
