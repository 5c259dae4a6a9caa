import Ontograph.Proofs.Mapping.Pruning
import Ontograph.Proofs.Classify.Completeness

/-!
# Detaching an axiom from a source

An axiom may still be read from what is left of a source without some of the triples it was read
from.  A main triple may be left, and if nothing else of a footprint is gone, the axiom is read from
it as before.  The axiom may even be read from a triple that it was not read from: where a node is
left with some of its parts, or a facet with one of its triples, something else is read than before.
`Source.Detaches` lists what must not happen, in terms of the triples that leave and of the source
as it was, and `Source.not_mem_scan_without` says that the axiom is then read no more.
-/

namespace Ontograph

open Reading

/-! ## Sorts in a part of the triples -/

namespace TripleSet

variable {S S' : TripleSet} {n m : Node} {q : Question} {sort : PropertySort}

/-- A question that is derivable is not ruled out. -/
theorem Derivable.not_ruledOut (h : S.Derivable q) : ¬ S.RuledOut q := by
  obtain ⟨r, hchain, hevident⟩ := h
  rcases Relation.ReflTransGen.cases_head hchain with rfl | ⟨_, hpursues, -⟩
  · rcases hevident with hbuiltin | ⟨hopen, -⟩
    · intro hout
      rw [hout.1] at hbuiltin
      cases hbuiltin
    · exact hopen
  · exact hpursues.1

/-- If some triples rule a sort out, a part of them that declares the same properties does so. -/
theorem RuledOut.of_subset (h : S.RuledOut ⟨sort.category, n⟩) (hsubset : ∀ t ∈ S', t ∈ S)
    (htypes : ∀ c ∈ propertyTypes, .typing n c ∈ S → .typing n c ∈ S') :
    S'.RuledOut ⟨sort.category, n⟩ := by
  have hother : ∀ {c}, S.isDeclaredOtherwise n c = true → S'.isDeclaredOtherwise n c = true := by
    intro c hc
    obtain ⟨d, hd, hc⟩ := List.any_eq_true.1 hc
    rw [Bool.and_eq_true, hasType_iff] at hc
    refine List.any_eq_true.2 ⟨d, hd, ?_⟩
    rw [Bool.and_eq_true, hasType_iff]
    exact ⟨hc.1, htypes d hd hc.2⟩
  have htyped : S'.isTypedObjectProperty n = true → S.isTypedObjectProperty n = true := by
    simp only [isTypedObjectProperty, Bool.or_eq_true, List.any_eq_true, hasType_iff]
    rintro (h | ⟨c, hc, h⟩)
    · exact Or.inl (hsubset _ h)
    · exact Or.inr ⟨c, hc, hsubset _ h⟩
  obtain ⟨hbuiltin, hreserved | hdeclared⟩ := h
  · exact ⟨hbuiltin, Or.inl hreserved⟩
  · refine ⟨hbuiltin, Or.inr ?_⟩
    cases sort with
    | object =>
      exact ⟨Bool.eq_false_iff.2 fun h => Bool.eq_false_iff.1 hdeclared.1 (htyped h),
        hother hdeclared.2⟩
    | data =>
      refine ⟨Bool.eq_false_iff.2 fun h => Bool.eq_false_iff.1 hdeclared.1 ?_, hother hdeclared.2⟩
      exact hasType_iff.2 (hsubset _ (hasType_iff.1 h))

/-- A property that is disjoint with one of a sort is of the sort, unless this is ruled out. -/
theorem derivable_of_disjoint (h : ⟨n, .owl .propertyDisjointWith, .node m⟩ ∈ S)
    (hm : S.Derivable ⟨sort.category, m⟩) (hopen : ¬ S.RuledOut ⟨sort.category, n⟩) :
    S.Derivable ⟨sort.category, n⟩ := by
  refine Pursues.derivable ⟨hopen, ?_⟩ hm
  cases sort with
  | object => exact .kin .object (by decide) (Or.inl h)
  | data => exact .kin .data (by decide) (Or.inl h)

end TripleSet

namespace Source

variable {R : Source} {a : AnnotatedAxiom} {f : Footprint} {n x : Node} {m t : Triple}
  {ts us : List Triple} {ax : Axiom} {b : Bool}

/-- A main triple of an axiom is a triple of the source. -/
theorem main_mem_of_mem_scan (h : (a, f) ∈ R.scan) : f.main ∈ R.triples :=
  (mem_axiomsAt_iff.1 (mem_scan_iff.1 h)).mem

/-- The main triple of an axiom that is read is not mute. -/
theorem not_mute_main (h : (a, f) ∈ R.scan) : ¬ R.Mute f.main := by
  intro hmute
  obtain ⟨_, _, hrun⟩ := exists_run_of_mem_scan h
  rw [hmute []] at hrun
  cases hrun

/-! ## Detaching an axiom -/

/-- Some triples hold an axiom to a source.  If they leave, each main triple of the axiom is gone
or, where there are remarks, does not have a node with them anymore; a node that loses a part, or a
remark that is no main triple of the axiom, loses all its parts; a facet that loses one of its
triples loses them all, or is not listed by a restriction anymore.  And if sorts are searched for
with a budget, that of the first of some disjoint properties is found. -/
structure Detaches (R : Source) (a : AnnotatedAxiom) (leaves : Triple → Prop) : Prop where
  main : ∀ f, (a, f) ∈ R.scan → leaves f.main ∨ a.remarks ≠ [] ∧
    ∃ n, ⟨n, .owl .annotatedSource, .node f.main.subject⟩ ∈ f.triples ∧
      leaves ⟨n, .owl .annotatedSource, .node f.main.subject⟩
  parts : ∀ t, leaves t → t.isPart = true ∨
      t.predicate.canAnnotate = true ∧ (∀ f, (a, f) ∈ R.scan → t ≠ f.main) →
    ∀ u ∈ R.triples, u.subject = t.subject → u.isPart = true → leaves u
  facets : ∀ r l xs t, ⟨r, .owl .withRestrictions, l⟩ ∈ R.triples →
    R.triples.readList R.settings.listLimit l = .ok xs → .node t.subject ∈ xs → leaves t →
    leaves ⟨r, .owl .withRestrictions, l⟩ ∨ ∀ u ∈ R.triples, u.subject = t.subject → leaves u
  head : R.settings.budget ≠ none → ∀ sort p ps, a.base = .disjointProperties sort (p :: ps) →
    R.sortOf? (.node (.iri p)) ≠ none

/-- What holds an axiom to a source does not depend on how the triples are described. -/
theorem Detaches.congr {P Q : Triple → Prop} (h : R.Detaches a P) (hPQ : ∀ t, P t ↔ Q t) :
    R.Detaches a Q := by
  obtain rfl : P = Q := funext fun t => propext (hPQ t)
  exact h

/-- An axiom without facets is detached by its only main triple, if sorts are searched for without
a budget. -/
theorem detaches_main (hread : (a, f) ∈ R.scan) (hmain : ∀ g, (a, g) ∈ R.scan → g.main = m)
    (hfacets : ∀ t ∈ R.triples, t.predicate ≠ .owl .withRestrictions)
    (hbudget : R.settings.budget = none) : R.Detaches a (· ∈ [m]) where
  main g hg := Or.inl (List.mem_singleton.2 (hmain g hg))
  parts t ht hpart := by
    obtain rfl : t = f.main := (List.mem_singleton.1 ht).trans (hmain f hread).symm
    rcases hpart with hpart | ⟨-, hother⟩
    · exact absurd (mute_of_isPart hpart) (not_mute_main hread)
    · exact absurd rfl (hother f hread)
  facets _ _ _ _ hlink := absurd rfl (hfacets _ hlink)
  head hsome := absurd hbudget hsome

/-- The source without some triples. -/
def without (R : Source) (ts : List Triple) : Source where
  triples := ⟨R.triples.toList.filter fun t => decide (t ∉ ts), R.triples.nodup.filter _⟩
  settings := R.settings

/-- A source without some triples has all its others. -/
@[simp] theorem mem_without : t ∈ (R.without ts).triples ↔ t ∈ R.triples ∧ t ∉ ts := by
  simp [without, TripleSet.mem_def]

/-! ## The triples of footprints -/

/-- What makes a node stand for a triple is not gathered. -/
theorem mem_of_mem_triples_of {r : Axiom × Bool} (hm : m ∈ R.triples)
    (hrun : (R.statement m).run [] = some (r, ts))
    (ht : ⟨n, .owl .annotatedSource, .node x⟩ ∈ (Footprint.of m (ts ++ us)).triples) :
    ⟨n, .owl .annotatedSource, .node x⟩ ∈ us := by
  rcases Footprint.mem_triples_of.1 ht with rfl | ht
  · have hmute : R.Mute ⟨n, .owl .annotatedSource, .node x⟩ := mute_of_isPart rfl
    rw [hmute []] at hrun
    cases hrun
  · refine (List.mem_append.1 ht).resolve_left fun ht => ?_
    have hmem := ((decided_statement hm [] r ts hrun).2 _ ht).resolve_left List.not_mem_nil
    exact absurd (mem_encoding.1 hmem).2 Bool.false_ne_true

/-- A triple by which a node stands for another one is no remark. -/
theorem not_mem_remarkTriples {r : Node} :
    (⟨n, .owl .annotatedSource, .node x⟩ : Triple) ∉ R.remarkTriples r := fun ht =>
  absurd (List.mem_filter.1 ht).2 Bool.false_ne_true

/-- All triples of a reification are about its node. -/
theorem subject_of_mem_reification (h : t ∈ R.reification n m) : t.subject = n := by
  rcases List.mem_append.1 h with h | h
  · simp only [List.mem_cons, List.not_mem_nil, or_false] at h
    rcases h with rfl | rfl | rfl <;> rfl
  · split at h
    case isTrue =>
      obtain rfl := List.mem_singleton.1 h
      rfl
    case isFalse => cases h

/-- In a footprint with the remarks on a node, that node alone stands for the main triple. -/
theorem eq_of_mem_noted {r : Node} (hm : m ∈ R.triples)
    (hrun : (R.statement m).run [] = some ((ax, b), ts))
    (ht : ⟨n, .owl .annotatedSource, .node x⟩ ∈
      (R.noted m ax (ts ++ R.reification r m) r).2.triples) : n = r := by
  have hof : (R.noted m ax (ts ++ R.reification r m) r).2 =
      .of m (ts ++ (R.reification r m ++ R.remarkTriples r)) := by
    rw [← List.append_assoc]
    rfl
  rw [hof] at ht
  have hmem := (List.mem_append.1 (mem_of_mem_triples_of hm hrun ht)).resolve_right
    not_mem_remarkTriples
  exact subject_of_mem_reification hmem

/-- A footprint with a triple that makes a node stand for another one has the remarks on the
node. -/
theorem remarks_of_mem_triples (h : (a, f) ∈ R.scan)
    (ht : ⟨n, .owl .annotatedSource, .node x⟩ ∈ f.triples) :
    a.remarks = Remark.canonical (remarksOf (R.remarkTriples n)) := by
  have hread := mem_axiomsAt_iff.1 (mem_scan_iff.1 h)
  generalize f.main = main at hread
  cases hread with
  | rooted hm hrun => exact absurd (mem_of_mem_triples_of hm hrun ht) not_mem_remarkTriples
  | @bare ax ts hm hrun =>
    have hnil : _ ∈ [] := mem_of_mem_triples_of hm hrun ((List.append_nil ts).symm ▸ ht)
    cases hnil
  | @reified ax ts r hm hrun =>
    rw [eq_of_mem_noted hm hrun ht]
    rfl

/-- An axiom read from a triple that annotates is an assertion of the triple. -/
theorem eq_of_canAnnotate (ht : t.predicate.canAnnotate = true)
    (h : Answers (R.statement t) (ax, b)) :
    ax = .propertyAssertion t.predicate t.subject t.object ∨
      ax = .annotationAssertion t.predicate t.subject t.object := by
  obtain ⟨s, p, o⟩ := t
  rcases h.ite with ⟨-, h⟩ | ⟨-, h⟩
  · exact absurd h not_answers_failure
  dsimp only at h ht ⊢
  split at h
  case h_16 =>
    rcases h.ite with ⟨-, h⟩ | ⟨-, h⟩
    · obtain ⟨ax', hax, heq⟩ := h.map
      cases heq
      rcases hax.ite with ⟨-, hax⟩ | ⟨-, hax⟩
      · exact absurd hax not_answers_failure
      · rcases hax.ite with ⟨-, hax⟩ | ⟨-, hax⟩
        · exact Or.inl hax.eq_of_pure
        · rcases hax.ite with ⟨-, hax⟩ | ⟨-, hax⟩
          · exact Or.inr hax.eq_of_pure
          · exact absurd hax not_answers_failure
    · exact absurd h not_answers_failure
  all_goals exact absurd ht (by decide)

/-- If the remarks of an axiom belong to its subject, this denies an assertion or groups members. -/
theorem root_of_typing {o : Term} (h : Answers (R.typing n o) (ax, true)) :
    ∃ c ∈ rootTypes, o = .node (.iri c) ∧
      (Answers (R.negativeAssertion n) ax ∨ Answers (R.group n c) ax) := by
  have hgroup : ∀ {c : Iri}, Answers (do return (← R.group n c, true)) (ax, true) →
      Answers (R.group n c) ax := by
    intro c hread
    obtain ⟨_, hread, heq⟩ := hread.map
    cases heq
    exact hread
  unfold typing at h
  split at h
  case h_1 => exact absurd h not_answers_failure
  case h_2 =>
    rcases h.ite with ⟨-, h⟩ | ⟨-, h⟩
    · exact absurd h not_answers_failure
    · obtain ⟨_, -, heq⟩ := h.map
      cases heq
  case h_3 =>
    split at h
    case h_1 =>
      obtain ⟨_, hread, heq⟩ := h.map
      cases heq
      exact ⟨_, by decide, rfl, Or.inl hread⟩
    case h_5 =>
      split at h
      case h_1 => cases h.eq_of_pure
      case h_2 =>
        rcases h.ite with ⟨-, h⟩ | ⟨-, h⟩
        · cases h.eq_of_pure
        · exact absurd h not_answers_failure
    all_goals exact ⟨_, by decide, rfl, Or.inr (hgroup h)⟩

/-- An axiom with a node of its own is read from the type of that node, as a negative assertion or
as a group. -/
theorem root_of_rooted (h : Answers (R.statement t) (ax, true)) :
    ∃ c ∈ rootTypes, t = .typing t.subject c ∧
      (Answers (R.negativeAssertion t.subject) ax ∨ Answers (R.group t.subject c) ax) := by
  obtain ⟨s, p, o⟩ := t
  rcases h.ite with ⟨-, h⟩ | ⟨-, h⟩
  · exact absurd h not_answers_failure
  dsimp only at h ⊢
  have hplain : ∀ {read : Reading Axiom}, ¬ Answers (statement.plain read) (ax, true) := by
    intro read hread
    obtain ⟨_, -, heq⟩ := hread.map
    cases heq
  split at h
  case h_1 =>
    obtain ⟨c, hc, rfl, hread⟩ := root_of_typing h
    exact ⟨c, hc, rfl, hread⟩
  case h_16 =>
    rcases h.ite with ⟨-, h⟩ | ⟨-, h⟩
    · exact absurd h hplain
    · exact absurd h not_answers_failure
  all_goals exact absurd h hplain

/-- The remarks of an axiom belong to its subject only if this has parts. -/
theorem hasPart_of_rooted (h : Answers (R.statement t) (ax, true)) : R.HasPart t.subject := by
  obtain ⟨c, -, -, hread | hread⟩ := root_of_rooted h
  · obtain ⟨_, ho, -⟩ := hread.bind
    exact hasPart_of_object? (fun _ => rfl) (object?_of_answers ho)
  · by_contra hn
    exact not_answers_of_fails (fails_group hn) hread

/-! ## The sorts of properties -/

/-- A property that is found to be of a sort without a budget is so derivably. -/
theorem derivable_of_sortOf? {p : Iri} {sort : PropertySort} (hbudget : R.settings.budget = none)
    (h : R.sortOf? (.node (.iri p)) = some sort.category) :
    R.triples.Derivable ⟨sort.category, p⟩ := by
  have hisA := List.find?_some (p := fun c => R.isA c (.node (.iri p))) h
  rw [isA, hbudget] at hisA
  exact TripleSet.isA_node_iff.1 hisA

/-- A property that is derivably of a sort is found to be of one without a budget. -/
theorem sortOf?_ne_none_of_derivable {p : Iri} {sort : PropertySort}
    (hbudget : R.settings.budget = none) (h : R.triples.Derivable ⟨sort.category, p⟩) :
    R.sortOf? (.node (.iri p)) ≠ none := by
  intro hnone
  have hall := List.find?_eq_none.1 hnone sort.category (by cases sort <;> decide)
  rw [isA, hbudget] at hall
  exact hall (TripleSet.isA_node_iff.2 h)

/-- The declaration of a property says nothing about disjoint properties. -/
theorem not_answers_disjointProperties {c : Iri} {sort : PropertySort} {ps : List Iri}
    (hc : c ∈ propertyTypes) :
    ¬ Answers (R.statement (.typing n c)) (.disjointProperties sort ps, b) := by
  intro h
  rcases h.ite with ⟨-, h⟩ | ⟨-, h⟩
  · exact not_answers_failure h
  simp only [propertyTypes, List.mem_cons, List.not_mem_nil, or_false] at hc
  cases n with
  | iri i => rcases hc with rfl | rfl | rfl <;> cases h.eq_of_pure
  | blank i => rcases hc with rfl | rfl | rfl <;> exact not_answers_failure h

/-! ## What is left -/

/-- Nothing is read from a header. -/
theorem mute_header (h : .typing n (.owl .Ontology) ∈ R.triples) :
    R.Mute (.typing n (.owl .Ontology)) := by
  have htype : R.triples.hasType n (.owl .Ontology) = true := TripleSet.hasType_iff.2 h
  unfold Mute statement
  dsimp only [Triple.typing]
  rw [htype]
  exact fails_failure

/-- A type that is not gathered is in no footprint but as the main triple. -/
theorem main_eq_typing {c : Iri} (h : (a, f) ∈ R.scan) (hc : c ∉ encodingTypes)
    (ht : .typing n c ∈ f.triples) : f.main = .typing n c := by
  rcases cases_of_mem_triples h ht with heq | ht | ⟨r, ht⟩ | ⟨r, -, ht, -⟩
  · exact heq.symm
  · have hgathered : encodingTypes.any (fun d => Term.node (.iri c) == .node (.iri d)) = true :=
      (mem_encoding.1 ht).2
    simp only [List.any_eq_true, beq_iff_eq, Term.node.injEq, Node.iri.injEq] at hgathered
    obtain ⟨d, hd, rfl⟩ := hgathered
    exact absurd hd hc
  · exact absurd (List.mem_filter.1 ht).2 Bool.false_ne_true
  · rcases List.mem_append.1 ht with ht | ht
    · simp [Triple.typing] at ht
    · split at ht
      case isTrue =>
        cases List.mem_singleton.1 ht
        exact absurd (by decide) hc
      case isFalse => cases ht

/-- No axiom is read with a header. -/
theorem header_not_mem_triples (h : (a, f) ∈ R.scan) :
    .typing n (.owl .Ontology) ∉ f.triples := by
  intro ht
  have hmain := main_eq_typing h (by decide) ht
  exact not_mute_main h (hmain ▸ mute_header (hmain ▸ main_mem_of_mem_scan h))

/-- No type that declares a property has gone with an axiom about disjoint properties. -/
theorem typing_mem_without {sort : PropertySort} {ps : List Iri} {c : Iri}
    (hts : ∀ t ∈ ts, ∃ f, (a, f) ∈ R.scan ∧ t ∈ f.triples)
    (hax : a.base = .disjointProperties sort ps) (hc : c ∈ propertyTypes)
    (ht : .typing n c ∈ R.triples) : .typing n c ∈ (R.without ts).triples := by
  refine mem_without.2 ⟨ht, fun hgone => ?_⟩
  obtain ⟨f, hf, hmem⟩ := hts _ hgone
  have hdisjoint : ∀ c ∈ propertyTypes, c ∉ encodingTypes := by decide
  obtain ⟨b, us, hrun⟩ := exists_run_of_mem_scan hf
  rw [main_eq_typing hf (hdisjoint c hc) hmem, hax] at hrun
  exact not_answers_disjointProperties hc ⟨[], us, hrun⟩

/-- A node that stands for a triple after some others left stood for it before. -/
theorem mem_reifiers_of_without (hn : n ∈ (R.without ts).reifiers m) : n ∈ R.reifiers m := by
  obtain ⟨hsource, hproperty, htarget⟩ := mem_reifiers.1 hn
  exact mem_reifiers.2 ⟨(mem_without.1 hsource).1, (mem_without.1 hproperty).1,
    (mem_without.1 htarget).1⟩

section Without

variable (h : R.Detaches a (· ∈ ts)) (hts : ∀ t ∈ ts, ∃ f, (a, f) ∈ R.scan ∧ t ∈ f.triples)

include h hts

/-- Detaching an axiom prunes the source. -/
theorem prunes_without : R.Prunes (R.without ts) where
  settings := rfl
  toList := List.filter_congr fun t ht => by
    rw [decide_eq_decide, mem_without]
    exact (and_iff_right ht).symm
  parts := by
    intro t ht htpart u hu hupart hsubject
    obtain ⟨ht, hkept⟩ := mem_without.1 ht
    refine mem_without.2 ⟨hu, fun huts => hkept ?_⟩
    exact h.parts u huts (Or.inl hupart) t ht hsubject.symm htpart
  facets := by
    intro r l xs n hlink hread hn
    obtain ⟨hlink, hkept⟩ := mem_without.1 hlink
    by_cases hlost : ∃ t ∈ ts, t.subject = n
    · obtain ⟨t, ht, rfl⟩ := hlost
      have hall := (h.facets r l xs t hlink hread hn ht).resolve_left hkept
      refine Or.inr fun u hu hsubject => ?_
      obtain ⟨hu, hleft⟩ := mem_without.1 hu
      exact hleft (hall u hu hsubject)
    · refine Or.inl fun u hu hsubject => mem_without.2 ⟨hu, fun huts => ?_⟩
      exact hlost ⟨u, huts, hsubject⟩
  headers := by
    intro n hn
    refine mem_without.2 ⟨hn, fun hgone => ?_⟩
    obtain ⟨f, hf, ht⟩ := hts _ hgone
    exact header_not_mem_triples hf ht

/-- A node that is left with a part has kept its remarks. -/
theorem remarkTriples_without (hstated : a.base.Stated (R.without ts))
    (hn : (R.without ts).HasPart n) : (R.without ts).remarkTriples n = R.remarkTriples n := by
  unfold remarkTriples TripleSet.outgoing
  rw [List.filter_filter, List.filter_filter]
  refine (prunes_without h hts).filter_eq fun t ht hq => mem_without.2 ⟨ht, fun hgone => ?_⟩
  rw [Bool.and_eq_true, beq_iff_eq] at hq
  obtain ⟨hann, rfl⟩ := hq
  by_cases hmain : ∃ f, (a, f) ∈ R.scan ∧ t = f.main
  · -- the axiom asserts the remark, so the remark is left if the axiom is stated
    obtain ⟨f, hf, rfl⟩ := hmain
    obtain ⟨b, us, hrun⟩ := exists_run_of_mem_scan hf
    rcases eq_of_canAnnotate hann ⟨[], us, hrun⟩ with hax | hax
    · rw [hax] at hstated
      exact (mem_without.1 hstated).2 hgone
    · rw [hax] at hstated
      exact (mem_without.1 hstated).2 hgone
  · obtain ⟨u, hu, hsubject, hpart⟩ := hn
    obtain ⟨hu, hkept⟩ := mem_without.1 hu
    exact hkept <| h.parts t hgone (Or.inr ⟨hann, fun f hf heq => hmain ⟨f, hf, heq⟩⟩) u hu
      hsubject hpart

/-- What the search for the sort of a property finds in the rest, it finds in the source as well: if
a triple relates the property to one of the sort, only its types could rule that out. -/
theorem sortsHead_without (hread : ∃ f, (a, f) ∈ R.scan) : R.SortsHead (R.without ts) a.base := by
  intro sort p ps hax hrest
  by_cases hbudget : R.settings.budget = none
  · obtain ⟨f, hf⟩ := hread
    have hdecided := decided_of_mem_scan hf
    rw [hax] at hdecided
    obtain ⟨hfirst, p, ps, hps, hsorted | ⟨q, rfl, hlink⟩⟩ := hdecided
    · cases hps
      exact hsorted
    · cases hps
      intro hnone
      have hq : R.sortOf? (.node (.iri q)) = some sort.category := by
        rw [List.findSome?_cons, hnone] at hfirst
        simpa using hfirst
      have hopen : ¬ R.triples.RuledOut ⟨sort.category, p⟩ := fun hout =>
        (derivable_of_sortOf? (R := R.without ts) hbudget hrest).not_ruledOut <|
          hout.of_subset (fun _ ht => (mem_without.1 ht).1) fun c hc ht =>
            typing_mem_without hts hax hc ht
      have hp := TripleSet.derivable_of_disjoint hlink (derivable_of_sortOf? hbudget hq) hopen
      exact sortOf?_ne_none_of_derivable hbudget hp hnone
  · exact h.head hbudget sort p ps hax

/-- A node that does not stand for a triple anymore has lost what says so, like all its parts. -/
theorem gone_of_not_mem_reifiers (hn : n ∈ R.reifiers m) (hn' : n ∉ (R.without ts).reifiers m) :
    ⟨n, .owl .annotatedSource, .node m.subject⟩ ∈ ts := by
  obtain ⟨hsource, hproperty, htarget⟩ := mem_reifiers.1 hn
  have hprunes := prunes_without h hts
  by_contra hkept
  have hsource := mem_without.2 ⟨hsource, hkept⟩
  have hpart : (R.without ts).HasPart n := ⟨_, hsource, rfl, rfl⟩
  exact hn' <| mem_reifiers.2 ⟨hsource, hprunes.mem_of_hasPart hpart hproperty rfl rfl,
    hprunes.mem_of_hasPart hpart htarget rfl rfl⟩

/-- **Detached axioms.** An axiom is not read from what is left of a source it was detached
from. -/
theorem not_mem_scan_without (hread : ∃ f, (a, f) ∈ R.scan) : (a, f) ∉ (R.without ts).scan := by
  intro hf
  have hprunes := prunes_without h hts
  have hstated : a.base.Stated (R.without ts) := stated_of_mem_scan hf
  have hdecided : a.base.Decided R ∧ R.SortsHead (R.without ts) a.base :=
    ⟨hread.elim fun _ => decided_of_mem_scan, sortsHead_without h hts hread⟩
  have hleft := mem_axiomsAt_iff.1 (mem_scan_iff.1 hf)
  generalize f.main = m at hleft
  have hm := mem_without.1 hleft.mem
  -- the main triple is left, so if the axiom was read from it, a node with its remarks has changed
  have hlost : ∀ {g}, (a, g) ∈ R.axiomsAt m → a.remarks ≠ [] ∧
      ∃ n, ⟨n, .owl .annotatedSource, .node m.subject⟩ ∈ g.triples ∧
        ⟨n, .owl .annotatedSource, .node m.subject⟩ ∈ ts := by
    intro g hg
    have hmain := main_of_mem_axiomsAt hg
    subst hmain
    exact (h.main g (mem_scan_iff.2 hg)).resolve_left hm.2
  cases hleft with
  | @rooted ax us _ hrun =>
    obtain ⟨vs, hrun'⟩ := hprunes.lifts_statement _ ⟨[], us, hrun⟩ hdecided []
    have hremarks := remarkTriples_without h hts hstated (hasPart_of_rooted ⟨[], us, hrun⟩)
    have hread : (AnnotatedAxiom.of ax (remarksOf ((R.without ts).remarkTriples m.subject)),
        (R.noted m ax vs m.subject).2) ∈ R.axiomsAt m := by
      rw [hremarks]
      exact mem_axiomsAt_iff.2 (.rooted hm.1 hrun')
    obtain ⟨-, n, hn, -⟩ := hlost hread
    exact not_mem_remarkTriples (mem_of_mem_triples_of hm.1 hrun' hn)
  | @bare ax us _ hrun hnone =>
    obtain ⟨vs, hrun'⟩ := hprunes.lifts_statement _ ⟨[], us, hrun⟩ hdecided []
    by_cases hnone' : R.reifiers m = []
    · exact (hlost (mem_axiomsAt_iff.2 (.bare hm.1 hrun' hnone'))).1 rfl
    · -- the node that stood for the triple went with the axiom, so there was no remark on it
      obtain ⟨n, hn⟩ := List.exists_mem_of_ne_nil _ hnone'
      have hgone := gone_of_not_mem_reifiers h hts hn (hnone ▸ List.not_mem_nil)
      obtain ⟨g, hg, hmem⟩ := hts _ hgone
      have hremarks : [] = Remark.canonical (remarksOf (R.remarkTriples n)) :=
        remarks_of_mem_triples hg hmem
      have hread : ((⟨ax, []⟩ : AnnotatedAxiom), (R.noted m ax (vs ++ R.reification n m) n).2) ∈
          R.axiomsAt m := by
        rw [hremarks]
        exact mem_axiomsAt_iff.2 (.reified hm.1 hrun' hn)
      exact (hlost hread).1 rfl
  | @reified ax us n _ hrun hn =>
    obtain ⟨vs, hrun'⟩ := hprunes.lifts_statement _ ⟨[], us, hrun⟩ hdecided []
    have hsource := (mem_reifiers.1 hn).1
    have hremarks := remarkTriples_without h hts hstated ⟨_, hsource, rfl, rfl⟩
    have hread : (AnnotatedAxiom.of ax (remarksOf ((R.without ts).remarkTriples n)),
        (R.noted m ax (vs ++ R.reification n m) n).2) ∈ R.axiomsAt m := by
      rw [hremarks]
      exact mem_axiomsAt_iff.2 (.reified hm.1 hrun' (mem_reifiers_of_without hn))
    obtain ⟨-, r, hr, hgone⟩ := hlost hread
    obtain rfl := eq_of_mem_noted hm.1 hrun' hr
    exact (mem_without.1 hsource).2 hgone

end Without

end Source

end Ontograph
