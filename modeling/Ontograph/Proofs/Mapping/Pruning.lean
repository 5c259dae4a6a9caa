import Ontograph.Proofs.Mapping.Decisions
import Ontograph.Proofs.Mapping.Steps

/-!
# Reading what is left of a source

If triples are taken out of a source so that no node is left with only some of its parts, nothing is
read differently from before: what is read from the rest was read from the whole as well
(`Source.Prunes.lifts_statement`).  There is one exception.  Whether a property is an object
property, or a node part of an encoding, is decided by triples all over the source, so the result is
about axioms for which the whole source decides as they have it.
-/

namespace Ontograph

open Reading

/-! ## Parts of nodes -/

/-- Does the triple say what its subject is made of, or which triple it stands for? -/
def Triple.isPart (t : Triple) : Bool :=
  reifyingPredicates.contains t.predicate ||
    describingPredicates.contains t.predicate &&
      (t.predicate != .owl .inverseOf || t.subject.isBlank)

namespace Source

variable {R R' : Source} {n s root : Node} {p c : Iri} {x o : Term} {t : Triple}

/-- Nothing is read from a part of a node. -/
theorem mute_of_isPart (h : t.isPart = true) : R.Mute t := by
  obtain ⟨s, p, o⟩ := t
  rw [Triple.isPart, Bool.or_eq_true, Bool.and_eq_true, Bool.or_eq_true, List.contains_iff_mem,
    List.contains_iff_mem, bne_iff_ne] at h
  rcases h with hp | ⟨hp, hblank⟩
  · exact mute_of_mem_reifyingPredicates hp
  · rcases List.mem_cons.1 hp with rfl | hp
    · exact mute_inverseOf (hblank.resolve_left fun h => h rfl)
    · rcases List.mem_cons.1 hp with rfl | hp
      · exact mute_of_read fails_failure rfl
      · exact mute_of_mem_encodingPredicates hp

/-- The node has a part. -/
def HasPart (R : Source) (n : Node) : Prop := ∃ t ∈ R.triples, t.subject = n ∧ t.isPart = true

/-- A node has a part if it has an object for a predicate of parts. -/
theorem hasPart_of_object? (hp : ∀ o, Triple.isPart ⟨n, p, o⟩ = true)
    (h : R.triples.object? n p = some o) : R.HasPart n :=
  ⟨_, TripleSet.mem_of_object? h, rfl, hp o⟩

/-- A node without parts has none of the predicates of parts. -/
theorem hasProperty_of_not_hasPart (hp : ∀ o, Triple.isPart ⟨n, p, o⟩ = true)
    (hn : ¬ R.HasPart n) : R.triples.hasProperty n p = false := by
  rw [Bool.eq_false_iff]
  intro h
  obtain ⟨o, ho⟩ := TripleSet.hasProperty_iff.1 h
  exact hn ⟨_, ho, rfl, hp o⟩

/-- The object that a step requires is the one that is looked up. -/
theorem object?_of_answers (h : Answers (R.required n p) o) : R.triples.object? n p = some o := by
  obtain ⟨o', ho', h⟩ := h.bind
  obtain ⟨_, -, h⟩ := h.bind
  cases h.eq_of_pure
  have hlookup := ho'.of_sound (sound_lift (S := R.triples))
  exact hlookup

/-- No part can be required of a node without parts. -/
theorem fails_required (hp : ∀ o, Triple.isPart ⟨n, p, o⟩ = true) (hn : ¬ R.HasPart n) :
    Fails (R.required n p) := by
  have hnone : R.triples.object? n p = none := by
    rw [Option.eq_none_iff_forall_ne_some]
    exact fun o ho => hn (hasPart_of_object? hp ho)
  unfold required
  rw [hnone]
  exact Fails.bind fails_failure

/-! ### Nodes without parts -/

/-- No data range is read at a node without parts. -/
theorem fails_dataRangeAt {inner : Term → Reading DataRange} (hn : ¬ R.HasPart n) :
    Fails (R.dataRangeAt inner n) := by
  refine fails_bind fun _ => ?_
  rw [hasProperty_of_not_hasPart (fun _ => rfl) hn, hasProperty_of_not_hasPart (fun _ => rfl) hn,
    hasProperty_of_not_hasPart (fun _ => rfl) hn, hasProperty_of_not_hasPart (fun _ => rfl) hn]
  exact (fails_required (fun _ => rfl) hn).bind

/-- No class expression is read at a node without parts. -/
theorem fails_classExprAt {inner : Term → Reading ClassExpr}
    {innerData : Term → Reading DataRange} (hn : ¬ R.HasPart n) :
    Fails (R.classExprAt inner innerData n) := by
  unfold classExprAt
  rw [hasProperty_of_not_hasPart (fun _ => rfl) hn, hasProperty_of_not_hasPart (fun _ => rfl) hn,
    hasProperty_of_not_hasPart (fun _ => rfl) hn, hasProperty_of_not_hasPart (fun _ => rfl) hn]
  exact fails_bind fun _ => (fails_required (fun _ => rfl) hn).bind.bind

/-- No group is read at a node without parts. -/
theorem fails_group (hn : ¬ R.HasPart root) : Fails (R.group root c) := by
  exact fails_ite (fails_required (fun _ => rfl) hn).bind (fails_required (fun _ => rfl) hn).bind

/-! ## Sources without some triples -/

/-- If the rest takes the first of some disjoint properties for one of their sort, the source has
taken it for a property of a sort as well. -/
def SortsHead (R R' : Source) (ax : Axiom) : Prop :=
  ∀ sort p ps, ax = .disjointProperties sort (p :: ps) →
    R'.sortOf? (.node (.iri p)) = some sort.category → R.sortOf? (.node (.iri p)) ≠ none

/-- A source without some triples: a node has kept all its parts or none of them, a facet of a
datatype restriction that is left all its triples or none, and headers are headers still. -/
structure Prunes (R R' : Source) : Prop where
  settings : R'.settings = R.settings
  toList : R'.triples.toList = R.triples.toList.filter fun t => decide (t ∈ R'.triples)
  parts : ∀ t ∈ R'.triples, t.isPart = true → ∀ u ∈ R.triples, u.isPart = true →
    u.subject = t.subject → u ∈ R'.triples
  facets : ∀ r l xs f, ⟨r, .owl .withRestrictions, l⟩ ∈ R'.triples →
    R.triples.readList R.settings.listLimit l = .ok xs → .node f ∈ xs →
    (∀ u ∈ R.triples, u.subject = f → u ∈ R'.triples) ∨ ∀ u ∈ R'.triples, u.subject ≠ f
  headers : ∀ n, .typing n (.owl .Ontology) ∈ R.triples → .typing n (.owl .Ontology) ∈ R'.triples

namespace Prunes

/-- The source has the triples of the rest. -/
theorem mem (h : R.Prunes R') (ht : t ∈ R'.triples) : t ∈ R.triples := by
  rw [TripleSet.mem_def, h.toList] at ht
  exact List.mem_of_mem_filter ht

/-! ## Look-ups -/

/-- Triples that are all kept are found in the same order. -/
theorem filter_eq (h : R.Prunes R') {q : Triple → Bool}
    (hq : ∀ t ∈ R.triples, q t = true → t ∈ R'.triples) :
    R'.triples.toList.filter q = R.triples.toList.filter q := by
  rw [h.toList, List.filter_filter]
  refine List.filter_congr fun t ht => ?_
  by_cases hqt : q t = true
  · simp [hqt, hq t ht hqt]
  · simp [hqt]

/-- A node that has a part in the rest has kept all of its parts. -/
theorem mem_of_hasPart (h : R.Prunes R') (hn : R'.HasPart n) (ht : t ∈ R.triples)
    (hsubject : t.subject = n) (hpart : t.isPart = true) : t ∈ R'.triples := by
  obtain ⟨u, hu, rfl, hupart⟩ := hn
  exact h.parts u hu hupart t ht hpart hsubject

/-- A node that has a part in the rest has the same first object for a predicate of parts. -/
theorem object? (h : R.Prunes R') (hp : ∀ o, Triple.isPart ⟨n, p, o⟩ = true)
    (hn : R'.HasPart n) : R'.triples.object? n p = R.triples.object? n p := by
  unfold TripleSet.object?
  rw [← List.head?_filter, ← List.head?_filter, h.filter_eq]
  intro t ht hq
  obtain ⟨s, q, o⟩ := t
  simp only [Bool.and_eq_true, beq_iff_eq] at hq
  obtain ⟨rfl, rfl⟩ := hq
  exact h.mem_of_hasPart hn ht rfl (hp o)

/-- A node that has a part in the rest has the same predicates of parts. -/
theorem hasProperty (h : R.Prunes R') (hp : ∀ o, Triple.isPart ⟨n, p, o⟩ = true)
    (hn : R'.HasPart n) : R'.triples.hasProperty n p = R.triples.hasProperty n p := by
  rw [Bool.eq_iff_iff, TripleSet.hasProperty_iff, TripleSet.hasProperty_iff]
  exact exists_congr fun o => ⟨h.mem, fun ho => h.mem_of_hasPart hn ho rfl (hp o)⟩

/-- The rest has the same headers. -/
theorem hasType_ontology (h : R.Prunes R') :
    R'.triples.hasType n (.owl .Ontology) = R.triples.hasType n (.owl .Ontology) := by
  rw [Bool.eq_iff_iff, TripleSet.hasType_iff, TripleSet.hasType_iff]
  exact ⟨h.mem, h.headers n⟩

/-- What the rest describes, the source describes. -/
theorem describes (h : R.Prunes R') (hn : R'.triples.describes n = true) :
    R.triples.describes n = true := by
  obtain ⟨t, ht, hs⟩ := TripleSet.describes_iff.1 hn
  exact TripleSet.describes_iff.2 ⟨t, h.mem ht, hs⟩

/-- A list that can be read has kept its cells. -/
theorem readCells (h : R.Prunes R') {limit : Option Nat} {visited : List Node} {xs : List Term}
    (hread : R'.triples.readCells limit visited x = .ok xs) :
    R.triples.readCells limit visited x = .ok xs := by
  induction xs generalizing visited x with
  | nil =>
    rw [TripleSet.readCells_eq_ok_iff] at hread ⊢
    exact hread.imp_right fun ⟨_, _, _, _, _, _, _, _, _, _, _, hnil⟩ => nomatch hnil
  | cons y ys ih =>
    rw [TripleSet.readCells_eq_ok_iff] at hread ⊢
    refine hread.imp (fun hnil => nomatch hnil.2) ?_
    rintro ⟨cell, first, rest, zs, hx, hnil, hnew, hlimit, hfirst, hrest, hzs, hys⟩
    cases hys
    have hcell : R'.HasPart cell := hasPart_of_object? (fun _ => rfl) hfirst
    rw [h.object? (fun _ => rfl) hcell] at hfirst hrest
    exact ⟨cell, y, rest, ys, hx, hnil, hnew, hlimit, hfirst, hrest, ih hzs, rfl⟩

/-- A list that can be read in the rest has the same items in the source. -/
theorem readList (h : R.Prunes R') {xs : List Term}
    (hread : R'.triples.readList R'.settings.listLimit x = .ok xs) :
    R.triples.readList R.settings.listLimit x = .ok xs := by
  unfold TripleSet.readList at hread ⊢
  cases hcells : R'.triples.readCells (some R'.settings.listLimit) [] x with
  | error e =>
    rw [hcells] at hread
    cases hread
  | ok ys =>
    rw [hcells] at hread
    cases hread
    rw [← h.settings, h.readCells hcells]
    rfl

/-! ## Expressions -/

/-- A part that can be required in the rest is required in the source with the same answer. -/
theorem lifts_required (h : R.Prunes R') (hp : ∀ o, Triple.isPart ⟨n, p, o⟩ = true)
    {K : Term → Prop} : Lifts (R'.required n p) (R.required n p) K := by
  refine (lifts_lift fun o ho => ?_).then fun o _ => lifts_gather.then fun _ _ => lifts_pure
  rw [← h.object? hp (hasPart_of_object? hp ho)]
  exact ho

/-- The type of a node may be noted in either. -/
theorem lifts_noteType {K : Unit → Prop} : Lifts (R'.noteType n c) (R.noteType n c) K := by
  intro u _ _ acc
  unfold noteType
  split
  case isTrue => exact ⟨_, rfl⟩
  case isFalse => exact ⟨_, rfl⟩

/-- A list that is read in the rest is read in the source. -/
theorem lifts_list (h : R.Prunes R') {K : List Term → Prop} :
    Lifts (R'.list x) (R.list x) K := by
  refine (lifts_lift fun xs hxs => ?_).then fun _ _ => lifts_gather.then fun _ _ => lifts_pure
  cases hread : R'.triples.readList R'.settings.listLimit x with
  | error e =>
    rw [hread] at hxs
    cases hxs
  | ok ys =>
    rw [hread] at hxs
    cases hxs
    rw [h.readList hread]
    rfl

/-- An object property expression that is read in the rest is read in the source. -/
theorem lifts_objectProperty (h : R.Prunes R') {K : ObjectPropertyExpr → Prop} :
    Lifts (R'.objectProperty x) (R.objectProperty x) K := by
  obtain (i | b) | l := x
  · exact lifts_pure
  · exact (h.lifts_required fun _ => rfl).then fun _ _ => lifts_same.then fun _ _ => lifts_pure
  · exact lifts_failure

/-- A facet is read as before if its node has kept all its triples, and is none without any. -/
theorem lifts_facet (h : R.Prunes R') {K : Iri × Literal → Prop}
    (hx : ∀ f, x = .node f → (∀ t ∈ R.triples, t.subject = f → t ∈ R'.triples) ∨
      ∀ t ∈ R'.triples, t.subject ≠ f) :
    Lifts (R'.facet x) (R.facet x) K := by
  refine lifts_same.then fun n hn => ?_
  rcases hx n (hn.of_sound (sound_individual (S := ∅))) with hall | hnone
  · have hout : R'.triples.outgoing n = R.triples.outgoing n :=
      h.filter_eq fun t ht hs => hall t ht (by simpa using hs)
    rw [hout]
    split
    case h_1 => exact lifts_same.then fun _ _ => lifts_gather.then fun _ _ => lifts_pure
    case h_2 => exact lifts_failure
  · have hout : R'.triples.outgoing n = [] :=
      List.filter_eq_nil_iff.2 fun t ht hs => hnone t ht (by simpa using hs)
    rw [hout]
    exact lifts_failure

section Operands

variable {α : Type} {inner inner' : Term → Reading α} {K : α → Prop}

/-- Operands that are read in the rest are read in the source, if each of them is. -/
theorem lifts_operandsOf (h : R.Prunes R') (hp : ∀ o, Triple.isPart ⟨n, p, o⟩ = true)
    (hinner : ∀ x, Lifts (inner' x) (inner x) K) :
    Lifts (R'.operandsOf inner' n p) (R.operandsOf inner n p) fun as => ∀ a ∈ as, K a :=
  (h.lifts_required hp).then fun _ _ => h.lifts_list.then fun _ _ => lifts_mapM fun x _ => hinner x

end Operands

/-- The facets of a restriction that is left are all left. -/
theorem lifts_facets (h : R.Prunes R') :
    Lifts (R'.operandsOf R'.facet n (.owl .withRestrictions))
      (R.operandsOf R.facet n (.owl .withRestrictions)) fun _ => True := by
  refine (h.lifts_required fun _ => rfl).then fun l hl => h.lifts_list.then fun xs hxs => ?_
  have hlink := TripleSet.mem_of_object? (object?_of_answers hl)
  have hitems := h.readList (hxs.of_sound sound_list)
  refine (lifts_mapM fun x hx => h.lifts_facet ?_).mono fun _ _ _ _ => trivial
  rintro f rfl
  exact h.facets n l xs f hlink hitems hx

/-- A data range that is read at a node of the rest is read there in the source, if those inside of
it are. -/
theorem lifts_dataRangeAt (h : R.Prunes R') {inner inner' : Term → Reading DataRange}
    (hinner : ∀ x, Lifts (inner' x) (inner x) fun _ => True) :
    Lifts (R'.dataRangeAt inner' n) (R.dataRangeAt inner n) fun _ => True := by
  by_cases hn : R'.HasPart n
  · have hoperands : ∀ p, (∀ o, Triple.isPart ⟨n, p, o⟩ = true) →
        Lifts (R'.operandsOf inner' n p) (R.operandsOf inner n p) fun _ => True :=
      fun p hp => (h.lifts_operandsOf hp hinner).mono fun _ _ _ _ => trivial
    refine lifts_noteType.then fun _ _ => ?_
    rw [h.hasProperty (fun _ => rfl) hn, h.hasProperty (fun _ => rfl) hn,
      h.hasProperty (fun _ => rfl) hn, h.hasProperty (fun _ => rfl) hn]
    refine lifts_ite (fun _ => ?_) fun _ => lifts_ite (fun _ => ?_) fun _ => lifts_ite
      (fun _ => ?_) fun _ => lifts_ite (fun _ => ?_) fun _ => ?_
    · exact (hoperands _ fun _ => rfl).map fun _ _ => trivial
    · exact (hoperands _ fun _ => rfl).map fun _ _ => trivial
    · exact (h.lifts_required fun _ => rfl).then fun x _ => (hinner x).map fun _ _ => trivial
    · exact (h.lifts_operandsOf (fun _ => rfl) fun _ => lifts_same (K := fun _ => True)).map
        fun _ _ _ _ => trivial
    · exact (h.lifts_required fun _ => rfl).then fun _ _ => lifts_same.then fun _ _ =>
        h.lifts_facets.map fun _ _ => trivial
  · exact lifts_of_fails (fails_dataRangeAt hn)

/-- A data range that is read in the rest, inside of others, is read in the source. -/
theorem lifts_dataRangeIn (h : R.Prunes R') (within : List Node) (x : Term) :
    Lifts (R'.dataRangeIn within x) (R.dataRangeIn within x) fun _ => True := by
  induction within, x using Source.dataRangeIn.induct R' with
  | case1 within d =>
    rw [Source.dataRangeIn, Source.dataRangeIn]
    exact lifts_pure
  | case2 within b hnew _ ih =>
    rw [Source.dataRangeIn, Source.dataRangeIn, dif_pos hnew, dif_pos (hnew.imp_left h.describes)]
    exact h.lifts_dataRangeAt ih
  | case3 within b hold =>
    rw [Source.dataRangeIn, dif_neg hold]
    exact lifts_failure
  | case4 within l =>
    rw [Source.dataRangeIn]
    exact lifts_failure

/-- A data range that is read in the rest is read in the source. -/
theorem lifts_dataRange (h : R.Prunes R') :
    Lifts (R'.dataRange x) (R.dataRange x) fun _ => True := h.lifts_dataRangeIn [] x

/-- The bound of a node that has a part in the rest is read in the source. -/
theorem lifts_bounded (h : R.Prunes R') (hn : R'.HasPart n)
    (hp : ∀ o, Triple.isPart ⟨n, p, o⟩ = true) :
    Lifts (R'.bounded n p) (R.bounded n p) fun _ => True := by
  have hplain : ∀ (b : Bound) o, Triple.isPart ⟨n, b.plain, o⟩ = true := by
    rintro (_ | _ | _) o <;> rfl
  have hqualified : ∀ (b : Bound) o, Triple.isPart ⟨n, b.qualified, o⟩ = true := by
    rintro (_ | _ | _) o <;> rfl
  have hgo : ∀ bs, Lifts (bounded.go R' n p bs) (bounded.go R n p bs) fun _ => True := by
    intro bs
    induction bs with
    | nil => exact lifts_failure
    | cons b bs ih =>
      unfold bounded.go
      rw [h.hasProperty (hplain b) hn, h.hasProperty (hqualified b) hn]
      refine lifts_ite (fun _ => ?_) fun _ => lifts_ite (fun _ => ?_) fun _ => ih
      · exact (h.lifts_required (hplain b)).then fun _ _ =>
          lifts_same.map fun _ h => h
      · exact (h.lifts_required (hqualified b)).then fun _ _ => (h.lifts_required hp).then
          fun _ _ => lifts_same.map fun _ h => h
  exact hgo _

section Classes

variable {inner inner' : Term → Reading ClassExpr} {innerData innerData' : Term → Reading DataRange}
  {e : ObjectPropertyExpr}

/-- A restriction on an object property that is read in the rest is read in the source, if the
classes inside of it are. -/
theorem lifts_objectRestriction (h : R.Prunes R') (hn : R'.HasPart n)
    (hinner : ∀ x, Lifts (inner' x) (inner x) (ClassExpr.Sorted R)) :
    Lifts (R'.objectRestriction inner' n e) (R.objectRestriction inner n e)
      (ClassExpr.Sorted R) := by
  unfold objectRestriction
  rw [h.hasProperty (fun _ => rfl) hn, h.hasProperty (fun _ => rfl) hn,
    h.hasProperty (fun _ => rfl) hn, h.hasProperty (fun _ => rfl) hn]
  refine lifts_ite (fun _ => ?_) fun _ => lifts_ite (fun _ => ?_) fun _ => lifts_ite
    (fun _ => ?_) fun _ => lifts_ite (fun _ => ?_) fun _ => ?_
  · exact (h.lifts_required fun _ => rfl).then fun x _ => (hinner x).map fun _ hc => hc.2
  · exact (h.lifts_required fun _ => rfl).then fun x _ => (hinner x).map fun _ hc => hc.2
  · exact (h.lifts_required fun _ => rfl).then fun _ _ => lifts_same.map fun _ hc => hc
  · exact (h.lifts_required fun _ => rfl).map fun _ hc => hc
  · refine (h.lifts_bounded hn fun _ => rfl).then fun r _ => ?_
    obtain ⟨_, _, _ | filler⟩ := r
    · exact lifts_pure
    · exact (hinner filler).map fun _ hc => hc.2

/-- A restriction on a data property that is read in the rest is read in the source, if the data
ranges inside of it are. -/
theorem lifts_dataRestriction (h : R.Prunes R') (hn : R'.HasPart n)
    (hinner : ∀ x, Lifts (innerData' x) (innerData x) fun _ => True) {K : ClassExpr → Prop} :
    Lifts (R'.dataRestriction innerData' n p) (R.dataRestriction innerData n p) K := by
  unfold dataRestriction
  rw [h.hasProperty (fun _ => rfl) hn, h.hasProperty (fun _ => rfl) hn,
    h.hasProperty (fun _ => rfl) hn]
  refine lifts_ite (fun _ => ?_) fun _ => lifts_ite (fun _ => ?_) fun _ => lifts_ite
    (fun _ => ?_) fun _ => ?_
  · exact (h.lifts_required fun _ => rfl).then fun x _ => (hinner x).map fun _ _ => trivial
  · exact (h.lifts_required fun _ => rfl).then fun x _ => (hinner x).map fun _ _ => trivial
  · exact (h.lifts_required fun _ => rfl).then fun _ _ => lifts_same.map fun _ hc => hc
  · refine (h.lifts_bounded hn fun _ => rfl).then fun r _ => ?_
    obtain ⟨_, _, _ | filler⟩ := r
    · exact lifts_pure
    · exact (hinner filler).map fun _ _ => trivial

/-- The restriction at a node is on a property of the sort that the whole source takes it for. -/
theorem lifts_restriction (h : R.Prunes R') (hn : R'.HasPart n) {q : Term}
    (hinner : ∀ x, Lifts (inner' x) (inner x) (ClassExpr.Sorted R))
    (hdata : ∀ x, Lifts (innerData' x) (innerData x) fun _ => True)
    (hsorted : ∀ x, Sound R'.encoding (inner' x) (ClassExpr.Sorted R'))
    (hsound : ∀ x, Sound R'.encoding (innerData' x) fun _ => True) :
    Lifts
      (match R'.sortOf? q with
        | some .objectProperty => do R'.objectRestriction inner' n (← R'.objectProperty q)
        | some .dataProperty => do R'.dataRestriction innerData' n (← named q)
        | _ => failure)
      (match R.sortOf? q with
        | some .objectProperty => do R.objectRestriction inner n (← R.objectProperty q)
        | some .dataProperty => do R.dataRestriction innerData n (← named q)
        | _ => failure)
      (ClassExpr.Sorted R) := by
  intro c hc hK
  split at hc
  case h_1 =>
    obtain ⟨e, he, hrestriction⟩ := hc.bind
    have hsort := (hrestriction.of_sound (sorted_objectRestriction hsorted)).1 R hK
    have hread := (h.lifts_objectProperty (K := fun _ => True)).answers he trivial
    have hq := hread.of_sound sorted_objectProperty
    rw [hq, hsort]
    exact (h.lifts_objectProperty.then fun _ _ => h.lifts_objectRestriction hn hinner) c hc hK
  case h_2 =>
    obtain ⟨p, hp, hrestriction⟩ := hc.bind
    have hsort := (hrestriction.of_sound (sorted_dataRestriction hsound)).1 R hK
    cases hp.named
    rw [hsort]
    exact (lifts_same.then fun _ _ => h.lifts_dataRestriction hn hdata) c hc hK
  case h_3 => exact absurd hc not_answers_failure

/-- A class expression that is read at a node of the rest is read there in the source, if those
inside of it are and its properties are of a sort. -/
theorem lifts_classExprAt (h : R.Prunes R')
    (hinner : ∀ x, Lifts (inner' x) (inner x) (ClassExpr.Sorted R))
    (hdata : ∀ x, Lifts (innerData' x) (innerData x) fun _ => True)
    (hsorted : ∀ x, Sound R'.encoding (inner' x) (ClassExpr.Sorted R'))
    (hsound : ∀ x, Sound R'.encoding (innerData' x) fun _ => True) :
    Lifts (R'.classExprAt inner' innerData' n) (R.classExprAt inner innerData n)
      (ClassExpr.Sorted R) := by
  by_cases hn : R'.HasPart n
  · have hoperands : ∀ p, (∀ o, Triple.isPart ⟨n, p, o⟩ = true) →
        Lifts (R'.operandsOf inner' n p) (R.operandsOf inner n p) (ClassExpr.AllSorted R) :=
      fun p hp => (h.lifts_operandsOf hp hinner).mono fun _ => ClassExpr.allSorted_iff.1
    unfold classExprAt
    rw [h.hasProperty (fun _ => rfl) hn, h.hasProperty (fun _ => rfl) hn,
      h.hasProperty (fun _ => rfl) hn, h.hasProperty (fun _ => rfl) hn]
    refine lifts_ite (fun _ => ?_) fun _ => lifts_noteType.then fun _ _ => ?_
    · exact lifts_noteType.then fun _ _ => (h.lifts_required fun _ => rfl).then fun q _ =>
        h.lifts_restriction hn hinner hdata hsorted hsound
    · refine lifts_ite (fun _ => ?_) fun _ => lifts_ite (fun _ => ?_) fun _ => lifts_ite
        (fun _ => ?_) fun _ => ?_
      · exact (hoperands _ fun _ => rfl).map fun _ hc => hc
      · exact (hoperands _ fun _ => rfl).map fun _ hc => hc
      · exact (h.lifts_required fun _ => rfl).then fun x _ => (hinner x).map fun _ hc => hc
      · exact (h.lifts_operandsOf (fun _ => rfl) fun _ => lifts_same (K := fun _ => True)).map
          fun _ _ _ _ => trivial
  · exact lifts_of_fails (fails_classExprAt hn)

end Classes

/-- A class expression that is read in the rest, inside of others, is read in the source if its
properties are of a sort there. -/
theorem lifts_classExprIn (h : R.Prunes R') (within : List Node) (x : Term) :
    Lifts (R'.classExprIn within x) (R.classExprIn within x) (ClassExpr.Sorted R) := by
  induction within, x using Source.classExprIn.induct R' with
  | case1 within c =>
    rw [Source.classExprIn, Source.classExprIn]
    exact lifts_pure
  | case2 within b hnew _ ih =>
    rw [Source.classExprIn, Source.classExprIn, dif_pos hnew, dif_pos (hnew.imp_left h.describes)]
    exact h.lifts_classExprAt ih (h.lifts_dataRangeIn _) (sorted_classExprIn _)
      fun x => (sound_dataRangeIn _ x).mono fun _ _ => trivial
  | case3 within b hold =>
    rw [Source.classExprIn, dif_neg hold]
    exact lifts_failure
  | case4 within l =>
    rw [Source.classExprIn]
    exact lifts_failure

/-- A class expression that is read in the rest is read in the source if its properties are of a
sort there. -/
theorem lifts_classExpr (h : R.Prunes R') :
    Lifts (R'.classExpr x) (R.classExpr x) (ClassExpr.Sorted R) := h.lifts_classExprIn [] x

/-! ## Axioms -/

/-- An assertion that is read in the rest is read in the source if its property is of a sort
there. -/
theorem lifts_assertion :
    Lifts (R'.assertion s p o) (R.assertion s p o) (Axiom.Decided R) := by
  intro ax hax hK acc
  rcases hax.ite with ⟨-, hax⟩ | ⟨-, hax⟩
  · exact absurd hax not_answers_failure
  rcases hax.ite with ⟨-, hax⟩ | ⟨-, hax⟩
  · obtain rfl := hax.eq_of_pure
    obtain ⟨hs, hp⟩ := hK
    refine ⟨acc, ?_⟩
    rw [assertion, hs, if_neg Bool.false_ne_true, if_pos hp]
    rfl
  rcases hax.ite with ⟨-, hax⟩ | ⟨-, hax⟩
  · obtain rfl := hax.eq_of_pure
    obtain ⟨hs, hp, hann⟩ := hK
    refine ⟨acc, ?_⟩
    rw [assertion, hs, if_neg Bool.false_ne_true, hp, if_neg Bool.false_ne_true, if_pos hann]
    rfl
  · exact absurd hax not_answers_failure

/-- A type that makes an axiom in the rest makes the same one in the source, if the sort it depends
on is settled there. -/
theorem entityTyping?_of_decided {i : Iri} {ax : Axiom} (hax : R'.entityTyping? i c = some ax)
    (hK : ax.Decided R) : R.entityTyping? i c = some ax := by
  unfold entityTyping? at hax ⊢
  split at hax
  case h_7 =>
    split at hax
    case isTrue =>
      cases hax
      exact if_pos (hK rfl)
    case isFalse =>
      split at hax
      case isTrue =>
        cases hax
        obtain ⟨hobject, hdata⟩ := hK
        show (if R.isA .objectProperty (.iri i : Node) = true then _ else _) = _
        rw [hobject, if_neg Bool.false_ne_true, if_pos hdata]
      case isFalse => cases hax
  case h_14 => cases hax
  all_goals exact hax

/-- Only what a functional property is depends on other triples. -/
theorem entityTyping?_eq_none {i : Iri} (hc : c ≠ .owl .FunctionalProperty)
    (h : R'.entityTyping? i c = none) : R.entityTyping? i c = none := by
  unfold entityTyping? at h ⊢
  split at h
  case h_7 => exact absurd rfl hc
  case h_14 => rfl
  all_goals cases h

/-- A negative assertion that is read in the rest is read in the source. -/
theorem lifts_negativeAssertion (h : R.Prunes R') {K : Axiom → Prop} :
    Lifts (R'.negativeAssertion root) (R.negativeAssertion root) K := by
  refine (h.lifts_required fun _ => rfl).then fun a ha => (h.lifts_required fun _ => rfl).then
    fun _ _ => lifts_same.then fun _ _ => lifts_same.then fun _ _ => ?_
  have hroot : R'.HasPart root := hasPart_of_object? (fun _ => rfl) (object?_of_answers ha)
  rw [h.hasProperty (fun _ => rfl) hroot]
  refine lifts_ite (fun _ => ?_) fun _ => ?_
  · exact (h.lifts_required fun _ => rfl).then fun _ _ => lifts_same.map fun _ hK => hK
  · exact (h.lifts_required fun _ => rfl).then fun _ _ => lifts_same.map fun _ hK => hK

/-- The first of some disjoint properties has the sort in the source that it has in the rest. -/
theorem head?_of_decided {sort : PropertySort} {ps : List Iri}
    (hK : Axiom.Decided R (.disjointProperties sort ps))
    (hhead : R.SortsHead R' (.disjointProperties sort ps))
    (hrest : (ps.map fun p => Term.node (.iri p)).head?.bind R'.sortOf? = some sort.category) :
    (ps.map fun p => Term.node (.iri p)).head?.bind R.sortOf? = some sort.category := by
  have hfirst : ps.findSome? (fun p => R.sortOf? (.node (.iri p))) = some sort.category := hK.1
  cases ps with
  | nil => cases hfirst
  | cons p ps =>
    rw [List.findSome?_cons] at hfirst
    show R.sortOf? (.node (.iri p)) = _
    cases hp : R.sortOf? (.node (.iri p)) with
    | none => exact absurd hp (hhead sort p ps rfl hrest)
    | some k =>
      rw [hp] at hfirst
      exact hfirst

/-- Names that are read one by one are those that the terms are. -/
theorem eq_map_of_answers {xs : List Term} {ps : List Iri} (h : Answers (xs.mapM named) ps) :
    xs = ps.map fun p => Term.node (.iri p) :=
  eq_map_of_forall₂ (h.of_sound (sound_mapM (fun _ => sound_named (S := ∅)) xs))

/-- Names are read from terms alone. -/
theorem lifts_named_mapM {xs : List Term} {K : List Iri → Prop} :
    Lifts (xs.mapM named) (xs.mapM named) K :=
  (lifts_mapM fun _ _ => lifts_same (K := fun _ => True)).mono fun _ _ _ _ => trivial

/-- The members of a group of properties are of the sort that the whole source takes the first one
for. -/
theorem lifts_disjointProperties {items : List Term} :
    Lifts
      (match items.head?.bind R'.sortOf? with
        | some .objectProperty => do return .disjointProperties .object (← items.mapM named)
        | some .dataProperty => do return .disjointProperties .data (← items.mapM named)
        | _ => failure)
      (match items.head?.bind R.sortOf? with
        | some .objectProperty => do return .disjointProperties .object (← items.mapM named)
        | some .dataProperty => do return .disjointProperties .data (← items.mapM named)
        | _ => failure)
      fun ax => ax.Decided R ∧ R.SortsHead R' ax := by
  intro ax hax hK
  have hsource : ∀ sort : PropertySort, items.head?.bind R'.sortOf? = some sort.category →
      Answers (items.mapM named >>= fun ps => pure (Axiom.disjointProperties sort ps)) ax →
      items.head?.bind R.sortOf? = some sort.category := by
    intro sort hrest hread
    obtain ⟨ps, hps, rfl⟩ := hread.map
    obtain rfl := eq_map_of_answers hps
    exact head?_of_decided hK.1 hK.2 hrest
  split at hax
  case h_1 hrest =>
    rw [hsource .object hrest hax]
    exact (lifts_named_mapM.map (L := fun _ => True) fun _ h => h) _ hax trivial
  case h_2 hrest =>
    rw [hsource .data hrest hax]
    exact (lifts_named_mapM.map (L := fun _ => True) fun _ h => h) _ hax trivial
  case h_3 => exact absurd hax not_answers_failure

/-- A group that is read in the rest is read in the source, if the sort of its properties is settled
there. -/
theorem lifts_group (h : R.Prunes R') :
    Lifts (R'.group root c) (R.group root c) fun ax => ax.Decided R ∧ R.SortsHead R' ax := by
  by_cases hroot : R'.HasPart root
  · unfold group
    rw [h.hasProperty (fun _ => rfl) hroot]
    refine lifts_ite_then (h.lifts_required fun _ => rfl) (h.lifts_required fun _ => rfl)
      fun head => h.lifts_list.then fun items _ => ?_
    split
    case h_1 => exact (lifts_mapM fun _ _ => h.lifts_classExpr).map fun _ hK => hK.1
    case h_2 =>
      exact (lifts_mapM fun _ _ => lifts_same (K := fun _ => True)).map fun _ _ _ _ => trivial
    case h_3 => exact lifts_disjointProperties
  · exact lifts_of_fails (fails_group hroot)

/-- A typing that is read in the rest is read in the source, if the sorts it depends on are settled
there. -/
theorem lifts_typing (h : R.Prunes R') :
    Lifts (R'.typing s o) (R.typing s o) fun r => r.1.Decided R ∧ R.SortsHead R' r.1 := by
  unfold typing
  split
  case h_1 => exact lifts_failure
  case h_2 b =>
    have hclass : Lifts
        (do return (Axiom.classAssertion (← R'.classExpr (.node (.blank b))) s, false))
        (do return (Axiom.classAssertion (← R.classExpr (.node (.blank b))) s, false))
        fun r => r.1.Decided R ∧ R.SortsHead R' r.1 := h.lifts_classExpr.map fun _ hK => hK.1.2
    intro r hr hK
    rcases hr.ite with ⟨-, hr⟩ | ⟨-, hr⟩
    · exact absurd hr not_answers_failure
    · obtain ⟨c, -, hanswer⟩ := hr.bind
      obtain rfl := hanswer.eq_of_pure
      have hs : R.isStructural s = false := hK.1.1
      rw [hs]
      exact hclass _ hr hK
  case h_3 c =>
    split
    case h_1 => exact h.lifts_negativeAssertion.map fun _ hK => hK
    case h_2 => exact h.lifts_group.map fun _ hK => hK
    case h_3 => exact h.lifts_group.map fun _ hK => hK
    case h_4 => exact h.lifts_group.map fun _ hK => hK
    case h_5 =>
      intro r hr hK acc
      split at hr
      case h_1 ax hax =>
        obtain rfl := hr.eq_of_pure
        obtain ⟨i, hi, hax⟩ := Option.bind_eq_some_iff.1 hax
        rw [hi, Option.bind_some, entityTyping?_of_decided hax hK.1]
        exact ⟨acc, rfl⟩
      case h_2 hnone =>
        rcases hr.ite with ⟨hguard, hr⟩ | ⟨-, hr⟩
        · obtain rfl := hr.eq_of_pure
          have hs : R.isStructural s = false := hK.1.1
          rw [Bool.and_eq_true] at hguard
          have hc : c ≠ .owl .FunctionalProperty := by
            rintro rfl
            exact absurd hguard.1 (by decide)
          have hnone' : (s.iri?.bind fun i => R.entityTyping? i c) = none := by
            rw [Option.bind_eq_none_iff] at hnone ⊢
            exact fun i hi => entityTyping?_eq_none hc (hnone i hi)
          rw [hnone', hs, hguard.1]
          exact ⟨acc, rfl⟩
        · exact absurd hr not_answers_failure

/-! ### Axioms about two terms -/

section Pairs

variable {g : Iri → Iri → Axiom} {y : Term} {ax : Axiom} {K : Axiom → Prop}

/-- An axiom about two names is read from two terms that are the names. -/
theorem exists_of_pair (h : Answers (do return g (← named x) (← named y)) ax) :
    ∃ p q, x = .node (.iri p) ∧ y = .node (.iri q) ∧ ax = g p q := by
  obtain ⟨p, hp, hrest⟩ := h.bind
  obtain ⟨q, hq, rfl⟩ := hrest.map
  exact ⟨p, q, hp.named, hq.named, rfl⟩

/-- Two names are read from terms alone. -/
theorem lifts_pair :
    Lifts (do return g (← named x) (← named y)) (do return g (← named x) (← named y)) K :=
  lifts_same.then fun _ _ => lifts_same.map fun _ hK => hK

end Pairs

/-- A property below another that is read in the rest is read in the source, if their sort is
settled there. -/
theorem lifts_subProperty (h : R.Prunes R') :
    Lifts (R'.subProperty s o) (R.subProperty s o) (Axiom.Decided R) := by
  have hsort : ∀ {x e}, Answers (R'.objectProperty x) e → R.sortOf? x = R.sortOfExpr? e :=
    fun he => ((h.lifts_objectProperty (K := fun _ => True)).answers he trivial).of_sound
      sorted_objectProperty
  intro ax hax hK
  unfold subProperty at hax ⊢
  split at hax
  case h_1 =>
    obtain ⟨e, he, hrest⟩ := hax.bind
    obtain ⟨f, hf, rfl⟩ := hrest.map
    have heither : R.sortOfEither? s o = some .objectProperty := by
      rw [sortOfEither?, hsort he, hsort hf]
      exact hK
    rw [heither]
    exact (h.lifts_objectProperty.then fun _ _ => h.lifts_objectProperty.map fun _ hK => hK)
      _ hax hK
  case h_2 =>
    obtain ⟨p, q, hs, rfl, rfl⟩ := exists_of_pair hax
    cases hs
    rw [show R.sortOfEither? (.node (.iri p)) (.node (.iri q)) = _ from hK]
    exact lifts_pair _ hax hK
  case h_3 =>
    obtain ⟨p, q, hs, rfl, rfl⟩ := exists_of_pair hax
    cases hs
    rw [show R.sortOfEither? (.node (.iri p)) (.node (.iri q)) = _ from hK]
    exact lifts_pair _ hax hK
  case h_4 => exact absurd hax not_answers_failure

/-- Two properties that are equivalent or disjoint are read with the sort that the whole source
takes them for. -/
theorem lifts_sortedPair {g : PropertySort → List Iri → Axiom}
    (hg : ∀ sort ps, (g sort ps).Decided R →
      ps.findSome? (fun p => R.sortOf? (.node (.iri p))) = some sort.category) :
    Lifts (do return g (← R'.pairSort s o) [← named s, ← named o])
      (do return g (← R.pairSort s o) [← named s, ← named o]) (Axiom.Decided R) := by
  intro ax hax hK
  obtain ⟨sort, -, hrest⟩ := hax.bind
  obtain ⟨p, q, hs, rfl, rfl⟩ := exists_of_pair hrest
  cases hs
  have hsort : R.pairSort (.iri p) (.node (.iri q)) = pure sort := by
    rw [pairSort, sortOfEither?_eq_findSome?, hg sort _ hK]
    cases sort <;> rfl
  rw [hsort, pure_bind]
  exact lifts_pair (K := fun _ => True) _ hrest trivial

/-- A name and a class expression that are read in the rest are read in the source, if the axiom
settles the sorts of the expression. -/
theorem lifts_namedClass (h : R.Prunes R') {g : Iri → ClassExpr → Axiom}
    (hg : ∀ p c, (g p c).Decided R → c.Sorted R) :
    Lifts (do return g (← named s) (← R'.classExpr o)) (do return g (← named s) (← R.classExpr o))
      (Axiom.Decided R) :=
  lifts_same.then fun p _ => h.lifts_classExpr.map (hg p)

/-- A name and a data range that are read in the rest are read in the source. -/
theorem lifts_namedRange (h : R.Prunes R') {g : Iri → DataRange → Axiom} {K : Axiom → Prop} :
    Lifts (do return g (← named s) (← R'.dataRange o)) (do return g (← named s) (← R.dataRange o))
      K :=
  lifts_same.then fun _ _ => h.lifts_dataRange.map fun _ _ => trivial

/-- A domain that is read in the rest is read in the source, if the sorts it depends on are settled
there. -/
theorem lifts_domain (h : R.Prunes R') :
    Lifts (R'.domain s o) (R.domain s o) (Axiom.Decided R) := by
  intro ax hax hK
  unfold domain at hax ⊢
  split at hax
  case h_1 =>
    obtain ⟨p, hp, hrest⟩ := hax.bind
    obtain ⟨c, -, rfl⟩ := hrest.map
    rw [hp.named, show R.sortOf? (.node (.iri p)) = _ from hK.1, ← hp.named]
    refine h.lifts_namedClass (fun _ _ hK => ?_) _ hax hK
    exact hK.2
  case h_2 =>
    obtain ⟨p, hp, hrest⟩ := hax.bind
    obtain ⟨c, -, rfl⟩ := hrest.map
    rw [hp.named, show R.sortOf? (.node (.iri p)) = _ from hK.1, ← hp.named]
    refine h.lifts_namedClass (fun _ _ hK => ?_) _ hax hK
    exact hK.2
  case h_3 =>
    obtain ⟨p, q, hs, rfl, rfl⟩ := exists_of_pair hax
    rw [hs, show R.sortOf? (.node (.iri p)) = _ from hK, ← hs]
    exact lifts_pair _ hax hK
  case h_4 => exact absurd hax not_answers_failure

/-- A range that is read in the rest is read in the source, if the sorts it depends on are settled
there. -/
theorem lifts_range (h : R.Prunes R') :
    Lifts (R'.range s o) (R.range s o) (Axiom.Decided R) := by
  intro ax hax hK
  unfold range at hax ⊢
  split at hax
  case h_1 =>
    obtain ⟨p, hp, hrest⟩ := hax.bind
    obtain ⟨c, -, rfl⟩ := hrest.map
    rw [hp.named, show R.sortOf? (.node (.iri p)) = _ from hK.1, ← hp.named]
    refine h.lifts_namedClass (fun _ _ hK => ?_) _ hax hK
    exact hK.2
  case h_2 =>
    obtain ⟨p, hp, hrest⟩ := hax.bind
    obtain ⟨d, -, rfl⟩ := hrest.map
    rw [hp.named, show R.sortOf? (.node (.iri p)) = _ from hK, ← hp.named]
    exact h.lifts_namedRange _ hax hK
  case h_3 =>
    obtain ⟨p, q, hs, rfl, rfl⟩ := exists_of_pair hax
    rw [hs, show R.sortOf? (.node (.iri p)) = _ from hK, ← hs]
    exact lifts_pair _ hax hK
  case h_4 => exact absurd hax not_answers_failure

/-- Two class expressions that are read in the rest are read in the source, if the axiom settles the
sorts of both. -/
theorem lifts_twoClasses (h : R.Prunes R') {g : ClassExpr → ClassExpr → Axiom}
    (hg : ∀ c d, (g c d).Decided R → c.Sorted R ∧ d.Sorted R) :
    Lifts (do return g (← R'.classExpr x) (← R'.classExpr o))
      (do return g (← R.classExpr x) (← R.classExpr o)) (Axiom.Decided R) := by
  refine h.lifts_classExpr.bind (fun c ax hax hK => ?_) fun c _ =>
    h.lifts_classExpr.map fun d hK => (hg c d hK).2
  obtain ⟨d, -, rfl⟩ := hax.map
  exact (hg c d hK).1

/-- An equivalence that is read in the rest is read in the source, if the sorts it depends on are
settled there. -/
theorem lifts_equivalence (h : R.Prunes R') :
    Lifts (R'.equivalence s o) (R.equivalence s o) (Axiom.Decided R) := by
  intro ax hax hK
  rcases hax.ite with ⟨-, hax⟩ | ⟨-, hax⟩
  · obtain ⟨p, hp, hrest⟩ := hax.bind
    obtain ⟨d, -, rfl⟩ := hrest.map
    cases hp.named
    have hdatatype : ((Node.iri p).isNamed && R.isA .datatype (.node (.iri p)) &&
        !R.isA .owlClass (.node (.iri p))) = true := hK
    rw [equivalence, if_pos hdatatype]
    exact h.lifts_namedRange _ hax hK
  · obtain ⟨c, hc, hrest⟩ := hax.bind
    obtain ⟨d, -, rfl⟩ := hrest.map
    have hclass : (s.isNamed && R.isA .datatype s && !R.isA .owlClass s) ≠ true := by
      cases s with
      | blank b => exact Bool.false_ne_true
      | iri i =>
        rw [classExpr, classExprIn] at hc
        exact Bool.eq_false_iff.1 (hK.2 i [d] (by rw [hc.eq_of_pure]))
    rw [equivalence, if_neg hclass]
    refine h.lifts_twoClasses (fun c d hK => ?_) _ hax hK
    exact ⟨hK.1 c (by simp), hK.1 d (by simp)⟩

/-- A list of properties falls into the same two parts if those that were read are of the sorts
that the whole source takes them for. -/
theorem isA_eq_of_key {items : List Term} {ops dps : List Iri}
    (hops : items.filter (fun x => R'.isA .objectProperty x) = ops.map fun p => .node (.iri p))
    (hdps : items.filter (not ∘ fun x => R'.isA .objectProperty x) =
      dps.map fun p => .node (.iri p))
    (hobject : ∀ p ∈ ops, R.isA .objectProperty (.node (.iri p)) = true)
    (hdata : ∀ p ∈ dps, R.isA .objectProperty (.node (.iri p)) = false) :
    ∀ x ∈ items, R.isA .objectProperty x = R'.isA .objectProperty x := by
  intro x hx
  cases hsort : R'.isA .objectProperty x with
  | true =>
    have hmem := hops ▸ List.mem_filter.2 ⟨hx, hsort⟩
    obtain ⟨p, hp, rfl⟩ := List.mem_map.1 hmem
    exact hobject p hp
  | false =>
    have hmem := hdps ▸ List.mem_filter.2 ⟨hx, by simp [hsort]⟩
    obtain ⟨p, hp, rfl⟩ := List.mem_map.1 hmem
    exact hdata p hp

/-- A key that is read in the rest is read in the source, if the sorts of its properties are settled
there. -/
theorem lifts_key (h : R.Prunes R') :
    Lifts (R'.key s o) (R.key s o) (Axiom.Decided R) := by
  unfold key
  refine h.lifts_list.then fun items _ => ?_
  rw [List.partition_eq_filter_filter, List.partition_eq_filter_filter]
  intro ax hax hK
  rcases hax.ite with ⟨-, hax⟩ | ⟨-, hax⟩
  · exact absurd hax not_answers_failure
  obtain ⟨c, -, hrest⟩ := hax.bind
  obtain ⟨ops, hops, hrest⟩ := hrest.bind
  obtain ⟨dps, hdps, rfl⟩ := hrest.map
  have hdps := eq_map_of_answers hdps
  have hsame := isA_eq_of_key (eq_map_of_answers hops) hdps hK.2.1 fun p hp => (hK.2.2 p hp).1
  have hobjects : items.filter (fun x => R.isA .objectProperty x) =
      items.filter fun x => R'.isA .objectProperty x := List.filter_congr hsame
  have hothers : items.filter (not ∘ fun x => R.isA .objectProperty x) =
      items.filter (not ∘ fun x => R'.isA .objectProperty x) :=
    List.filter_congr fun x hx => congrArg not (hsame x hx)
  have hall : (items.filter (not ∘ fun x => R'.isA .objectProperty x)).all
      (fun x => R.isA .dataProperty x) = true := by
    rw [hdps, List.all_eq_true]
    intro x hx
    obtain ⟨p, hp, rfl⟩ := List.mem_map.1 hx
    exact (hK.2.2 p hp).2
  rw [hobjects, hothers]
  dsimp only
  rw [hall, Bool.not_true, if_neg Bool.false_ne_true]
  refine h.lifts_classExpr.bind (fun c ax hax hK => ?_) (fun _ _ => lifts_named_mapM.then
    fun _ _ => lifts_named_mapM.map fun _ h => h) _ hax hK
  obtain ⟨_, -, hrest⟩ := hax.bind
  obtain ⟨_, -, rfl⟩ := hrest.map
  exact hK.1

/-- **Pruning.** What is read from a triple of the rest was read from it in the whole source, if
this decides as the axiom has it. -/
theorem lifts_statement (h : R.Prunes R') :
    Lifts (R'.statement t) (R.statement t) fun r => r.1.Decided R ∧ R.SortsHead R' r.1 := by
  have hplain : ∀ {read read' : Reading Axiom}, Lifts read' read (Axiom.Decided R) →
      Lifts (statement.plain read') (statement.plain read)
        fun r => r.1.Decided R ∧ R.SortsHead R' r.1 := fun h => h.map fun _ hK => hK.1
  unfold statement
  dsimp only
  rw [h.hasType_ontology]
  refine lifts_ite (fun _ => lifts_failure) fun _ => ?_
  split
  case h_1 => exact h.lifts_typing
  case h_2 => exact hplain (h.lifts_twoClasses fun _ _ hK => hK)
  case h_3 => exact hplain h.lifts_equivalence
  case h_4 =>
    refine hplain (h.lifts_twoClasses fun c d hK => ?_)
    exact ⟨hK c (by simp), hK d (by simp)⟩
  case h_5 =>
    exact hplain (lifts_same.then fun _ _ => h.lifts_list.then fun _ _ =>
      (lifts_mapM fun _ _ => h.lifts_classExpr).map fun _ hK => hK)
  case h_6 => exact hplain h.lifts_subProperty
  case h_7 =>
    refine hplain (h.lifts_list.then fun _ _ => ?_)
    exact (lifts_mapM fun _ _ => h.lifts_objectProperty (K := fun _ => True)).bind
      (fun _ _ _ _ _ _ => trivial) fun _ _ => lifts_same.map fun _ hK => hK
  case h_8 => exact hplain (lifts_sortedPair fun _ _ hK => hK)
  case h_9 => exact hplain (lifts_sortedPair fun _ _ hK => hK.1)
  case h_10 => exact hplain h.lifts_domain
  case h_11 => exact hplain h.lifts_range
  case h_12 => exact hplain (lifts_pair)
  case h_13 => exact hplain (lifts_same.map fun _ hK => hK)
  case h_14 => exact hplain (lifts_same.map fun _ hK => hK)
  case h_15 => exact hplain h.lifts_key
  case h_16 => exact lifts_ite (fun _ => hplain lifts_assertion) fun _ => lifts_failure

end Prunes

end Source

end Ontograph
