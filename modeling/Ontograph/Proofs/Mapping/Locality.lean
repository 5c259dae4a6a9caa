import Ontograph.Proofs.Graph.Chains
import Ontograph.Proofs.Mapping.Grounding

/-!
# Reading is local

What is read from a main triple is decided by the triples of the blank nodes that the triple leads
down to, by the lists on the way, and by the categories of the terms that are met.  Two sources
*agree on* some terms if all of this is the same in both for these terms, and the blank nodes among
them lead to such terms only (`Source.AgreesOn`).  Readers that begin with such terms are then the
same steps of reading, one by one, and in the end so is the reading of a main triple between such
terms (`Source.AgreesOn.statement`).

A step of reading may go on from the terms that an earlier step answers, so it is said along with
the equality of two steps what they answer (`Reading.Same`).
-/

namespace Ontograph

/-! ## Steps that are the same -/

namespace Reading

variable {α β γ : Type} {m m' n n' : Reading α} {f f' : α → Reading β} {a : α} {K L : α → Prop}
  {K' : β → Prop}

/-- The steps are the same, and what they answer meets a condition. -/
structure Same (m m' : Reading α) (K : α → Prop) : Prop where
  eq : m = m'
  answers : ∀ acc a out, m.run acc = some (a, out) → K a

/-- Steps that are equal are the same, whatever they answer. -/
theorem same_of_eq (h : m = m') : Same m m' fun _ => True := ⟨h, fun _ _ _ _ => trivial⟩

/-- A weaker condition on the answers is met too. -/
theorem Same.mono (h : Same m m' K) (hKL : ∀ a, K a → L a) : Same m m' L :=
  ⟨h.eq, fun acc a out hrun => hKL a (h.answers acc a out hrun)⟩

/-- An answer that meets the condition is the same in both. -/
theorem same_pure (h : K a) : Same (pure a) (pure a) K := by
  refine ⟨rfl, fun acc b out hrun => ?_⟩
  cases hrun
  exact h

/-- Failing is the same in both. -/
theorem same_failure : Same (failure : Reading α) failure K := ⟨rfl, fun _ _ _ hrun => nomatch hrun⟩

/-- A look-up that finds the same answers what it finds. -/
theorem same_lift {o : Option α} : Same (liftM o : Reading α) (liftM o) fun a => o = some a := by
  cases o with
  | none => exact same_failure
  | some a => exact same_pure rfl

/-- Gathering triples is the same in both. -/
theorem same_gather {ts : List Triple} :
    Same (Source.gather ts) (Source.gather ts) fun _ => True := same_of_eq rfl

/-- The second of two steps only has to be the same after what the first one answers. -/
theorem Same.bind (hm : Same m m' K) (hf : ∀ a, K a → Same (f a) (f' a) K') :
    Same (m >>= f) (m' >>= f') K' := by
  obtain ⟨rfl, hanswers⟩ := hm
  constructor
  · refine StateT.ext fun acc => ?_
    rw [StateT.run_bind, StateT.run_bind]
    refine Option.bind_congr fun r hr => ?_
    rw [(hf r.1 (hanswers acc r.1 r.2 hr)).eq]
  · intro acc b out hrun
    rw [StateT.run_bind] at hrun
    obtain ⟨⟨a, mid⟩, hfirst, hsecond⟩ := Option.bind_eq_some_iff.1 hrun
    exact (hf a (hanswers acc a mid hfirst)).answers mid b out hsecond

/-- A last step that only computes. -/
theorem Same.map {g : α → β} (hm : Same m m' K) :
    Same (m >>= fun a => pure (g a)) (m' >>= fun a => pure (g a)) fun _ => True :=
  hm.bind fun _ _ => same_pure trivial

/-- A choice that is made alike. -/
theorem same_ite {b b' : Bool} (hb : b = b') (h : b = true → Same m m' K)
    (h' : ¬ b = true → Same n n' K) :
    Same (if b = true then m else n) (if b' = true then m' else n') K := by
  subst hb
  split
  case isTrue hc => exact h hc
  case isFalse hc => exact h' hc

/-- A choice that is made alike between two steps before the same one. -/
theorem same_ite_bind {b b' : Bool} (hb : b = b') (h : Same m m' K) (h' : Same n n' K)
    (hf : ∀ a, K a → Same (f a) (f' a) K') :
    Same (if b = true then m >>= f else n >>= f) (if b' = true then m' >>= f' else n' >>= f') K' :=
  same_ite hb (fun _ => h.bind hf) fun _ => h'.bind hf

/-- Operands that are read one by one. -/
theorem same_mapM {read read' : γ → Reading α} {xs : List γ}
    (h : ∀ x ∈ xs, Same (read x) (read' x) fun _ => True) :
    Same (xs.mapM read) (xs.mapM read') fun _ => True := by
  induction xs with
  | nil => exact same_of_eq rfl
  | cons x xs ih =>
    rw [List.mapM_cons, List.mapM_cons]
    exact (h x List.mem_cons_self).bind fun _ _ =>
      (ih fun y hy => h y (List.mem_cons_of_mem _ hy)).map

end Reading

/-! ## Look-ups from a node -/

namespace TripleSet

variable {S : TripleSet} {n : Node} {p c : Iri}

/-- The object of a property is looked up among the triples of its node. -/
theorem object?_eq_outgoing : S.object? n p =
    ((S.outgoing n).find? fun t => t.predicate == p).map Triple.object := by
  rw [object?, outgoing, List.find?_filter]
  simp only [Bool.and_comm, Bool.decide_and, Bool.decide_eq_true]

/-- Whether a node has a property shows in the triples of the node. -/
theorem hasProperty_eq_outgoing :
    S.hasProperty n p = (S.outgoing n).any fun t => t.predicate == p := by
  rw [hasProperty, outgoing, List.any_filter]
  simp only [Bool.and_comm]

/-- Whether a node has a type shows in the triples of the node. -/
theorem hasType_eq_outgoing : S.hasType n c =
    (S.outgoing n).any fun t => t.predicate == .rdf .type && t.object == c := by
  rw [hasType, outgoing, List.any_filter]
  simp only [Bool.and_comm, Bool.and_left_comm]

/-- Whether a node is described shows in the triples of the node. -/
theorem describes_eq_outgoing : S.describes n = (S.outgoing n).any fun _ => true := by
  rw [describes, outgoing, List.any_filter]
  simp only [Bool.and_true]

end TripleSet

open Reading

namespace Source

/-! ## Sources that agree on some terms -/

/-- The sources read the same lists.  The terms are of the same categories in both.  Those of them
that are blank nodes have the same triples, in one order, and these lead to such terms again, as a
list of them has such terms for items.  The facets of a restriction have no names. -/
structure AgreesOn (R R' : Source) (K : Term → Prop) : Prop where
  list : ∀ x, R.list x = R'.list x
  isA : ∀ x, K x → ∀ c, R.isA c x = R'.isA c x
  outgoing : ∀ b : Blank, K (.node b) → R.triples.outgoing b = R'.triples.outgoing b
  objects : ∀ (b : Blank) p o, K (.node b) → ⟨b, p, o⟩ ∈ R.triples → K o
  items : ∀ x xs, K x → R.triples.readList R.settings.listLimit x = .ok xs → ∀ y ∈ xs, K y
  facets : ∀ (b : Blank) x xs, K (.node b) → ⟨b, .owl .withRestrictions, x⟩ ∈ R.triples →
    R.triples.readList R.settings.listLimit x = .ok xs → ∀ y ∈ xs, y.isNamed = false

namespace AgreesOn

variable {R R' : Source} {K : Term → Prop} {b : Blank} {s : Node} {p c : Iri} {x o : Term}
  (h : R.AgreesOn R' K)

include h

/-! ### Expressions -/

/-- A blank node they agree on has the same properties in both. -/
theorem hasProperty (hb : K (.node b)) :
    R.triples.hasProperty b p = R'.triples.hasProperty b p := by
  rw [TripleSet.hasProperty_eq_outgoing, TripleSet.hasProperty_eq_outgoing, h.outgoing b hb]

/-- A blank node they agree on has the same types in both. -/
theorem hasType (hb : K (.node b)) : R.triples.hasType b c = R'.triples.hasType b c := by
  rw [TripleSet.hasType_eq_outgoing, TripleSet.hasType_eq_outgoing, h.outgoing b hb]

/-- A blank node they agree on is described in both or in none. -/
theorem describes (hb : K (.node b)) : R.triples.describes b = R'.triples.describes b := by
  rw [TripleSet.describes_eq_outgoing, TripleSet.describes_eq_outgoing, h.outgoing b hb]

/-- A node leads to the term that is looked up for it. -/
theorem required (hb : K (.node b)) :
    Same (R.required b p) (R'.required b p) fun o => ⟨b, p, o⟩ ∈ R.triples ∧ K o := by
  have hlook : R.triples.object? b p = R'.triples.object? b p := by
    rw [TripleSet.object?_eq_outgoing, TripleSet.object?_eq_outgoing, h.outgoing b hb]
  unfold Source.required
  rw [← hlook]
  refine same_lift.bind fun o ho => same_gather.bind fun _ _ => same_pure ?_
  have hmem := TripleSet.mem_of_object? ho
  exact ⟨hmem, h.objects b p o hb hmem⟩

/-- The type of a blank node they agree on is read alike. -/
theorem noteType (hb : K (.node b)) :
    Same (R.noteType b c) (R'.noteType b c) fun _ => True :=
  same_ite (h.hasType hb) (fun _ => same_gather) fun _ => same_pure trivial

/-- The items of a list that is read. -/
theorem sameList : Same (R.list x) (R'.list x) fun xs =>
    R.triples.readList R.settings.listLimit x = .ok xs := by
  refine ⟨h.list x, (?_ : Same (R.list x) (R.list x) _).answers⟩
  refine same_lift.bind fun xs hxs => same_gather.bind fun _ _ => same_pure ?_
  exact TripleSet.toOption_readList_eq_some_iff.1 hxs

/-- A term they agree on is of the same sort in both. -/
theorem sortOf? (hx : K x) : R.sortOf? x = R'.sortOf? x := by
  obtain (i | b) | l := x
  · simp only [Source.sortOf?, h.isA _ hx]
  · simp only [Source.sortOf?, h.hasProperty hx]
  · simp only [Source.sortOf?, h.isA _ hx]

/-- An object property expression at a term they agree on is read alike. -/
theorem objectProperty (hx : K x) :
    Same (R.objectProperty x) (R'.objectProperty x) fun _ => True := by
  obtain (i | b) | l := x
  · exact same_pure trivial
  · exact (h.required hx).bind fun _ _ => same_lift.map
  · exact same_failure

/-- A facet that has no name is described by the triples of its blank node. -/
theorem facet (hx : K x) (hnamed : x.isNamed = false) :
    Same (R.facet x) (R'.facet x) fun _ => True := by
  obtain (i | b) | l := x
  · cases hnamed
  · refine same_lift.bind fun n hn => ?_
    obtain rfl : Node.blank b = n := Option.some.inj hn
    rw [h.outgoing b hx]
    exact same_of_eq rfl
  · exact same_failure

/-- The operands of a blank node they agree on are read alike, if each one is. -/
theorem operandsOf {α : Type} {inner inner' : Term → Reading α} (hb : K (.node b))
    (hinner : ∀ x, K x → Same (inner x) (inner' x) fun _ => True) :
    Same (R.operandsOf inner b p) (R'.operandsOf inner' b p) fun _ => True :=
  (h.required hb).bind fun _ ho => h.sameList.bind fun _ hxs =>
    same_mapM fun y hy => hinner y (h.items _ _ ho.2 hxs y hy)

/-- The facets of a restriction are read as operands are, though a named one could not be. -/
theorem facetsOf (hb : K (.node b)) :
    Same (R.operandsOf R.facet b (.owl .withRestrictions))
      (R'.operandsOf R'.facet b (.owl .withRestrictions)) fun _ => True :=
  (h.required hb).bind fun _ ho => h.sameList.bind fun _ hxs =>
    same_mapM fun y hy => h.facet (h.items _ _ ho.2 hxs y hy) (h.facets _ _ _ hb ho.1 hxs y hy)

/-- What is said of a data range at a blank node they agree on is read alike. -/
theorem dataRangeAt {inner inner' : Term → Reading DataRange} (hb : K (.node b))
    (hinner : ∀ x, K x → Same (inner x) (inner' x) fun _ => True) :
    Same (R.dataRangeAt inner b) (R'.dataRangeAt inner' b) fun _ => True := by
  refine (h.noteType hb).bind fun _ _ => ?_
  refine same_ite (h.hasProperty hb) (fun _ => ?_) fun _ => same_ite (h.hasProperty hb)
    (fun _ => ?_) fun _ => same_ite (h.hasProperty hb) (fun _ => ?_) fun _ =>
    same_ite (h.hasProperty hb) (fun _ => ?_) fun _ => ?_
  · exact (h.operandsOf hb hinner).map
  · exact (h.operandsOf hb hinner).map
  · exact (h.required hb).bind fun o ho => (hinner o ho.2).map
  · exact (h.operandsOf hb fun _ _ => same_of_eq rfl).map
  · exact (h.required hb).bind fun _ _ => same_lift.bind fun _ _ => (h.facetsOf hb).map

/-- A data range at a term they agree on is read alike, inside of whatever nodes. -/
theorem dataRangeIn (within : List Node) (hx : K x) :
    Same (R.dataRangeIn within x) (R'.dataRangeIn within x) fun _ => True := by
  induction within, x using Source.dataRangeIn.induct R with
  | case1 within d =>
    rw [Source.dataRangeIn, Source.dataRangeIn]
    exact same_pure trivial
  | case2 within b hnew _ ih =>
    rw [Source.dataRangeIn, Source.dataRangeIn, dif_pos hnew, dif_pos (h.describes hx ▸ hnew)]
    exact h.dataRangeAt hx ih
  | case3 within b hold =>
    rw [Source.dataRangeIn, Source.dataRangeIn, dif_neg hold, dif_neg (h.describes hx ▸ hold)]
    exact same_failure
  | case4 within l =>
    rw [Source.dataRangeIn, Source.dataRangeIn]
    exact same_failure

/-- A data range at a term they agree on is read alike. -/
theorem dataRange (hx : K x) : Same (R.dataRange x) (R'.dataRange x) fun _ => True :=
  h.dataRangeIn [] hx

/-- A qualified restriction is read on from its filler. -/
theorem bounded (hb : K (.node b)) :
    Same (R.bounded b p) (R'.bounded b p) fun r => ∀ x, r.2.2 = some x → K x := by
  have hgo : ∀ bs, Same (bounded.go R b p bs) (bounded.go R' b p bs)
      fun r => ∀ x, r.2.2 = some x → K x := by
    intro bs
    induction bs with
    | nil => exact same_failure
    | cons bound bs ih =>
      refine same_ite (h.hasProperty hb) (fun _ => ?_) fun _ => same_ite (h.hasProperty hb)
        (fun _ => ?_) fun _ => ih
      · exact (h.required hb).bind fun _ _ => same_lift.bind fun _ _ =>
          same_pure fun _ hx => nomatch hx
      · refine (h.required hb).bind fun _ _ => (h.required hb).bind fun filler hfiller =>
          same_lift.bind fun _ _ => same_pure ?_
        rintro x ⟨⟩
        exact hfiller.2
  exact hgo Bound.all

/-- A restriction on an object property at a blank node they agree on is read alike. -/
theorem objectRestriction {inner inner' : Term → Reading ClassExpr} {e : ObjectPropertyExpr}
    (hb : K (.node b)) (hinner : ∀ x, K x → Same (inner x) (inner' x) fun _ => True) :
    Same (R.objectRestriction inner b e) (R'.objectRestriction inner' b e) fun _ => True := by
  refine same_ite (h.hasProperty hb) (fun _ => ?_) fun _ => same_ite (h.hasProperty hb)
    (fun _ => ?_) fun _ => same_ite (h.hasProperty hb) (fun _ => ?_) fun _ =>
    same_ite (h.hasProperty hb) (fun _ => ?_) fun _ => ?_
  · exact (h.required hb).bind fun o ho => (hinner o ho.2).map
  · exact (h.required hb).bind fun o ho => (hinner o ho.2).map
  · exact (h.required hb).bind fun _ _ => same_lift.map
  · exact (h.required hb).map
  · refine (h.bounded hb).bind fun r hr => ?_
    obtain ⟨_, _, _ | filler⟩ := r
    · exact same_pure trivial
    · exact (hinner filler (hr filler rfl)).map

/-- A restriction on a data property at a blank node they agree on is read alike. -/
theorem dataRestriction {inner inner' : Term → Reading DataRange} (hb : K (.node b))
    (hinner : ∀ x, K x → Same (inner x) (inner' x) fun _ => True) :
    Same (R.dataRestriction inner b p) (R'.dataRestriction inner' b p) fun _ => True := by
  refine same_ite (h.hasProperty hb) (fun _ => ?_) fun _ => same_ite (h.hasProperty hb)
    (fun _ => ?_) fun _ => same_ite (h.hasProperty hb) (fun _ => ?_) fun _ => ?_
  · exact (h.required hb).bind fun o ho => (hinner o ho.2).map
  · exact (h.required hb).bind fun o ho => (hinner o ho.2).map
  · exact (h.required hb).bind fun _ _ => same_lift.map
  · refine (h.bounded hb).bind fun r hr => ?_
    obtain ⟨_, _, _ | filler⟩ := r
    · exact same_pure trivial
    · exact (hinner filler (hr filler rfl)).map

/-- What is said of a class at a blank node they agree on is read alike. -/
theorem classExprAt {inner inner' : Term → Reading ClassExpr}
    {innerData innerData' : Term → Reading DataRange} (hb : K (.node b))
    (hinner : ∀ x, K x → Same (inner x) (inner' x) fun _ => True)
    (hdata : ∀ x, K x → Same (innerData x) (innerData' x) fun _ => True) :
    Same (R.classExprAt inner innerData b) (R'.classExprAt inner' innerData' b)
      fun _ => True := by
  refine same_ite (h.hasProperty hb) (fun _ => ?_) fun _ => (h.noteType hb).bind fun _ _ => ?_
  · refine (h.noteType hb).bind fun _ _ => (h.required hb).bind fun q hq => ?_
    rw [h.sortOf? hq.2]
    split
    case h_1 => exact (h.objectProperty hq.2).bind fun _ _ => h.objectRestriction hb hinner
    case h_2 => exact same_lift.bind fun _ _ => h.dataRestriction hb hdata
    case h_3 => exact same_failure
  · refine same_ite (h.hasProperty hb) (fun _ => ?_) fun _ => same_ite (h.hasProperty hb)
      (fun _ => ?_) fun _ => same_ite (h.hasProperty hb) (fun _ => ?_) fun _ => ?_
    · exact (h.operandsOf hb hinner).map
    · exact (h.operandsOf hb hinner).map
    · exact (h.required hb).bind fun o ho => (hinner o ho.2).map
    · exact (h.operandsOf hb fun _ _ => same_of_eq rfl).map

/-- A class expression at a term they agree on is read alike, inside of whatever nodes. -/
theorem classExprIn (within : List Node) (hx : K x) :
    Same (R.classExprIn within x) (R'.classExprIn within x) fun _ => True := by
  induction within, x using Source.classExprIn.induct R with
  | case1 within c =>
    rw [Source.classExprIn, Source.classExprIn]
    exact same_pure trivial
  | case2 within b hnew _ ih =>
    rw [Source.classExprIn, Source.classExprIn, dif_pos hnew, dif_pos (h.describes hx ▸ hnew)]
    exact h.classExprAt hx ih fun x hx => h.dataRangeIn _ hx
  | case3 within b hold =>
    rw [Source.classExprIn, Source.classExprIn, dif_neg hold, dif_neg (h.describes hx ▸ hold)]
    exact same_failure
  | case4 within l =>
    rw [Source.classExprIn, Source.classExprIn]
    exact same_failure

/-- A class expression at a term they agree on is read alike. -/
theorem classExpr (hx : K x) : Same (R.classExpr x) (R'.classExpr x) fun _ => True :=
  h.classExprIn [] hx

/-! ### Axioms -/

/-- A subject they agree on belongs to the structure in both or in none. -/
theorem isStructural (hs : K s)
    (hheader : R.triples.hasType s (.owl .Ontology) = R'.triples.hasType s (.owl .Ontology)) :
    R.isStructural s = R'.isStructural s := by
  cases s with
  | iri i => simp only [Source.isStructural, hheader, Node.isBlank, Bool.false_and]
  | blank b => simp only [Source.isStructural, h.hasType hs, h.hasProperty hs]

/-- An assertion about a subject they agree on is read alike. -/
theorem assertion (hs : K s) (hp : K (.node (.iri p)))
    (hheader : R.triples.hasType s (.owl .Ontology) = R'.triples.hasType s (.owl .Ontology)) :
    Same (R.assertion s p o) (R'.assertion s p o) fun _ => True :=
  same_ite (h.isStructural hs hheader) (fun _ => same_failure) fun _ =>
    same_ite (h.isA _ hp _) (fun _ => same_pure trivial) fun _ =>
    same_ite (h.isA _ hp _) (fun _ => same_pure trivial) fun _ => same_failure

/-- A typing of an IRI they agree on is read alike. -/
theorem entityTyping? (hs : K (.node (.iri p))) : R.entityTyping? p c = R'.entityTyping? p c := by
  simp only [Source.entityTyping?, h.isA _ hs]

/-- A negative assertion at a blank node they agree on is read alike. -/
theorem negativeAssertion (hb : K (.node b)) :
    Same (R.negativeAssertion b) (R'.negativeAssertion b) fun _ => True := by
  refine (h.required hb).bind fun _ _ => (h.required hb).bind fun _ _ => same_lift.bind fun _ _ =>
    same_lift.bind fun _ _ => same_ite (h.hasProperty hb) (fun _ => ?_) fun _ => ?_
  · exact (h.required hb).bind fun _ _ => same_lift.map
  · exact (h.required hb).bind fun _ _ => same_lift.map

/-- A group at a blank node they agree on is read alike. -/
theorem group (hb : K (.node b)) : Same (R.group b c) (R'.group b c) fun _ => True := by
  have hmembers : ((c == .owl .AllDifferent) && !R.triples.hasProperty b (.owl .members)) =
      ((c == .owl .AllDifferent) && !R'.triples.hasProperty b (.owl .members)) := by
    rw [h.hasProperty hb]
  refine same_ite_bind hmembers ((h.required hb).mono fun _ ho => ho.2)
    ((h.required hb).mono fun _ ho => ho.2) fun head hhead => ?_
  refine h.sameList.bind fun members hread => ?_
  have hall := h.items _ _ hhead hread
  have hsort : members.head?.bind R.sortOf? = members.head?.bind R'.sortOf? := by
    refine Option.bind_congr fun y hy => h.sortOf? (hall y (List.mem_of_mem_head? hy))
  split
  case h_1 => exact (same_mapM fun y hy => h.classExpr (hall y hy)).map
  case h_2 => exact (same_mapM fun _ _ => same_of_eq rfl).map
  case h_3 =>
    rw [hsort]
    exact same_of_eq rfl

/-- A typing between terms they agree on is read alike. -/
theorem typing (hs : K s) (ho : K o)
    (hheader : R.triples.hasType s (.owl .Ontology) = R'.triples.hasType s (.owl .Ontology))
    (hroot : (Triple.mk s (.rdf .type) o).IsRoot → s.isBlank = true) :
    Same (R.typing s o) (R'.typing s o) fun _ => True := by
  have hblank : ∀ c ∈ rootTypes, o = .node (.iri c) → ∃ b : Blank, s = b := by
    rintro c hc rfl
    cases s with
    | iri i => cases hroot ⟨c, hc, rfl⟩
    | blank b => exact ⟨b, rfl⟩
  unfold Source.typing
  split
  case h_1 => exact same_failure
  case h_2 b' =>
    exact same_ite (h.isStructural hs hheader) (fun _ => same_failure) fun _ =>
      (h.classExpr ho).map
  case h_3 c =>
    split
    case h_1 =>
      obtain ⟨b, rfl⟩ := hblank _ (by decide) rfl
      exact (h.negativeAssertion hs).map
    case h_2 =>
      obtain ⟨b, rfl⟩ := hblank _ (by decide) rfl
      exact (h.group hs).map
    case h_3 =>
      obtain ⟨b, rfl⟩ := hblank _ (by decide) rfl
      exact (h.group hs).map
    case h_4 =>
      obtain ⟨b, rfl⟩ := hblank _ (by decide) rfl
      exact (h.group hs).map
    case h_5 =>
      have htyping : (s.iri?.bind fun i => R.entityTyping? i c) =
          s.iri?.bind fun i => R'.entityTyping? i c := by
        cases s with
        | iri i => exact h.entityTyping? hs
        | blank b => rfl
      rw [htyping, h.isStructural hs hheader]
      exact same_of_eq rfl

/-- Two terms they agree on have one sort in both. -/
theorem sortOfEither? (hx : K x) (ho : K o) : R.sortOfEither? x o = R'.sortOfEither? x o := by
  rw [Source.sortOfEither?, Source.sortOfEither?, h.sortOf? hx, h.sortOf? ho]

/-- A property below another, at terms they agree on, is read alike. -/
theorem subProperty (hs : K s) (ho : K o) :
    Same (R.subProperty s o) (R'.subProperty s o) fun _ => True := by
  unfold Source.subProperty
  rw [h.sortOfEither? hs ho]
  split
  case h_1 => exact (h.objectProperty hs).bind fun _ _ => (h.objectProperty ho).map
  case h_2 => exact same_of_eq rfl
  case h_3 => exact same_of_eq rfl
  case h_4 => exact same_failure

/-- The sort of two properties they agree on is found alike. -/
theorem pairSort (hs : K s) (ho : K o) :
    Same (R.pairSort s o) (R'.pairSort s o) fun _ => True := by
  refine same_of_eq ?_
  rw [Source.pairSort, Source.pairSort, h.sortOfEither? hs ho]

/-- A domain between terms they agree on is read alike. -/
theorem domain (hs : K s) (ho : K o) : Same (R.domain s o) (R'.domain s o) fun _ => True := by
  unfold Source.domain
  rw [h.sortOf? hs]
  split
  case h_1 => exact same_lift.bind fun _ _ => (h.classExpr ho).map
  case h_2 => exact same_lift.bind fun _ _ => (h.classExpr ho).map
  case h_3 => exact same_of_eq rfl
  case h_4 => exact same_failure

/-- A range between terms they agree on is read alike. -/
theorem range (hs : K s) (ho : K o) : Same (R.range s o) (R'.range s o) fun _ => True := by
  unfold Source.range
  rw [h.sortOf? hs]
  split
  case h_1 => exact same_lift.bind fun _ _ => (h.classExpr ho).map
  case h_2 => exact same_lift.bind fun _ _ => (h.dataRange ho).map
  case h_3 => exact same_of_eq rfl
  case h_4 => exact same_failure

/-- An equivalence between terms they agree on is read alike. -/
theorem equivalence (hs : K s) (ho : K o) :
    Same (R.equivalence s o) (R'.equivalence s o) fun _ => True := by
  have hdatatype : (s.isNamed && R.isA .datatype s && !R.isA .owlClass s) =
      (s.isNamed && R'.isA .datatype s && !R'.isA .owlClass s) := by
    rw [h.isA _ hs, h.isA _ hs]
  refine same_ite hdatatype (fun _ => ?_) fun _ => ?_
  · exact same_lift.bind fun _ _ => (h.dataRange ho).map
  · exact (h.classExpr hs).bind fun _ _ => (h.classExpr ho).map

/-- A key between terms they agree on is read alike. -/
theorem key (hs : K s) (ho : K o) : Same (R.key s o) (R'.key s o) fun _ => True := by
  unfold Source.key
  refine h.sameList.bind fun properties hread => ?_
  have hall := h.items _ _ ho hread
  have hobjects : properties.filter (fun y => R.isA .objectProperty y) =
      properties.filter fun y => R'.isA .objectProperty y :=
    List.filter_congr fun y hy => h.isA y (hall y hy) _
  have hothers : properties.filter (not ∘ fun y => R.isA .objectProperty y) =
      properties.filter (not ∘ fun y => R'.isA .objectProperty y) :=
    List.filter_congr fun y hy => congrArg not (h.isA y (hall y hy) _)
  rw [List.partition_eq_filter_filter, List.partition_eq_filter_filter, hobjects, hothers]
  have hdata : ∀ ys : List Term, ys ⊆ properties →
      (!ys.all fun y => R.isA .dataProperty y) = !ys.all fun y => R'.isA .dataProperty y := by
    intro ys hys
    rw [Bool.eq_iff_iff, Bool.not_eq_true', Bool.not_eq_true', List.all_eq_false,
      List.all_eq_false]
    exact exists_congr fun y => and_congr_right fun hy => by rw [h.isA y (hall y (hys hy))]
  refine same_ite (hdata _ fun y hy => List.mem_of_mem_filter hy) (fun _ => same_failure)
    fun _ => ?_
  exact (h.classExpr hs).bind fun _ _ => same_of_eq rfl

end AgreesOn

/-- A main triple that may be read from some terms in both sources: it is between such terms, with
such a predicate.  Its subject is a header in both or in none, and if it is the root of an axiom it
is a blank node. -/
structure Begins (R R' : Source) (K : Term → Prop) (t : Triple) : Prop where
  subject : K t.subject
  predicate : K (.node (.iri t.predicate))
  object : K t.object
  header : R.triples.hasType t.subject (.owl .Ontology) =
    R'.triples.hasType t.subject (.owl .Ontology)
  root : t.IsRoot → t.subject.isBlank = true

/-- The same axiom is read from the triple in both sources, and the same triples are gathered. -/
theorem AgreesOn.statement {R R' : Source} {K : Term → Prop} {t : Triple} (h : R.AgreesOn R' K)
    (ht : Begins R R' K t) : R.statement t = R'.statement t := by
  obtain ⟨s, p, o⟩ := t
  obtain ⟨hs, hp, ho, hheader, hroot⟩ := ht
  have hplain : ∀ {read read' : Reading Axiom}, Same read read' (fun _ => True) →
      Same (statement.plain read) (statement.plain read') fun _ => True := fun h => h.map
  suffices hsame : Same (R.statement ⟨s, p, o⟩) (R'.statement ⟨s, p, o⟩) fun _ => True from hsame.eq
  refine same_ite hheader (fun _ => same_failure) fun _ => ?_
  dsimp only
  split
  case h_1 => exact h.typing hs ho hheader hroot
  case h_2 => exact hplain ((h.classExpr hs).bind fun _ _ => (h.classExpr ho).map)
  case h_3 => exact hplain (h.equivalence hs ho)
  case h_4 => exact hplain ((h.classExpr hs).bind fun _ _ => (h.classExpr ho).map)
  case h_5 =>
    exact hplain (same_lift.bind fun _ _ => h.sameList.bind fun _ hxs =>
      (same_mapM fun y hy => h.classExpr (h.items _ _ ho hxs y hy)).map)
  case h_6 => exact hplain (h.subProperty hs ho)
  case h_7 =>
    exact hplain (h.sameList.bind fun _ hxs =>
      (same_mapM fun y hy => h.objectProperty (h.items _ _ ho hxs y hy)).bind fun _ _ =>
        same_of_eq rfl)
  case h_8 => exact hplain ((h.pairSort hs ho).bind fun _ _ => same_of_eq rfl)
  case h_9 => exact hplain ((h.pairSort hs ho).bind fun _ _ => same_of_eq rfl)
  case h_10 => exact hplain (h.domain hs ho)
  case h_11 => exact hplain (h.range hs ho)
  case h_12 => exact hplain (same_of_eq rfl)
  case h_13 => exact hplain (same_of_eq rfl)
  case h_14 => exact hplain (same_of_eq rfl)
  case h_15 => exact hplain (h.key hs ho)
  case h_16 p =>
    exact same_ite rfl (fun _ => hplain (h.assertion hs hp hheader)) fun _ => same_failure

/-! ### Remarks -/

section Remarks

variable {R R' : Source} {t : Triple} {n : Node} {e : AnnotatedAxiom × Footprint}

/-- The remarks at a node with the same triples in both are noted alike. -/
theorem noted_congr (hout : R.triples.outgoing n = R'.triples.outgoing n) {ax : Axiom}
    {ts : List Triple} : R.noted t ax ts n = R'.noted t ax ts n := by
  simp only [noted, remarkTriples, hout]

/-- The reification at a node with the same triples in both is the same. -/
theorem reification_congr (hout : R.triples.outgoing n = R'.triples.outgoing n) :
    R.reification n t = R'.reification n t := by
  simp only [reification, TripleSet.hasType_eq_outgoing, hout]

/-- A node with the same triples in both stands for a triple in both or in none. -/
theorem mem_reifiers_congr (hout : R.triples.outgoing n = R'.triples.outgoing n) :
    n ∈ R.reifiers t ↔ n ∈ R'.reifiers t := by
  have hmem : ∀ p o, ⟨n, p, o⟩ ∈ R.triples ↔ ⟨n, p, o⟩ ∈ R'.triples := by
    intro p o
    have hiff : ⟨n, p, o⟩ ∈ R.triples.outgoing n ↔ ⟨n, p, o⟩ ∈ R'.triples.outgoing n := by rw [hout]
    rwa [TripleSet.mem_outgoing, TripleSet.mem_outgoing, and_iff_left rfl, and_iff_left rfl] at hiff
  simp only [mem_reifiers, hmem]

/-- What is read from a triple is read from it in another source as well that holds it, reads the
same axiom from it, and has the same triples about its subject, if that is a root, and about each
node that stands for it in one of the sources. -/
theorem ReadAt.transfer (h : R.ReadAt t e) (hmem : t ∈ R'.triples)
    (hstatement : R.statement t = R'.statement t)
    (hroot : t.IsRoot → R.triples.outgoing t.subject = R'.triples.outgoing t.subject)
    (hnodes : ∀ n, n ∈ R.reifiers t ∨ n ∈ R'.reifiers t →
      R.triples.outgoing n = R'.triples.outgoing n) : R'.ReadAt t e := by
  cases h with
  | rooted _ hrun =>
    have hout := hroot (isRoot_of_rooted ⟨_, _, hrun⟩)
    rw [hstatement] at hrun
    rw [noted_congr hout]
    exact .rooted hmem hrun
  | bare _ hrun hnone =>
    rw [hstatement] at hrun
    refine .bare hmem hrun (List.eq_nil_iff_forall_not_mem.2 fun n hn => ?_)
    rw [← mem_reifiers_congr (hnodes n (Or.inr hn)), hnone] at hn
    cases hn
  | reified _ hrun hn =>
    have hout := hnodes _ (Or.inl hn)
    rw [hstatement] at hrun
    rw [noted_congr hout, reification_congr hout]
    exact .reified hmem hrun ((mem_reifiers_congr hout).1 hn)

/-- The same axioms are read from the triple in both sources, with the same footprints. -/
theorem AgreesOn.mem_axiomsAt_iff {K : Term → Prop} (h : R.AgreesOn R' K) (ht : Begins R R' K t)
    (hmem : t ∈ R.triples ↔ t ∈ R'.triples)
    (hnodes : ∀ n, n ∈ R.reifiers t ∨ n ∈ R'.reifiers t →
      R.triples.outgoing n = R'.triples.outgoing n) :
    e ∈ R.axiomsAt t ↔ e ∈ R'.axiomsAt t := by
  have hstatement := h.statement ht
  have hroot : t.IsRoot → R.triples.outgoing t.subject = R'.triples.outgoing t.subject := by
    intro hisRoot
    obtain ⟨⟨i⟩ | ⟨b⟩, p, o⟩ := t
    · cases ht.root hisRoot
    · exact h.outgoing b ht.subject
  rw [Source.mem_axiomsAt_iff, Source.mem_axiomsAt_iff]
  constructor
  · exact fun he => he.transfer (hmem.1 he.mem) hstatement hroot hnodes
  · exact fun he => he.transfer (hmem.2 he.mem) hstatement.symm (fun ht => (hroot ht).symm)
      fun n hn => (hnodes n hn.symm).symm

end Remarks

end Source

end Ontograph
