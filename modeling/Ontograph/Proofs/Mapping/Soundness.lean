import Mathlib.Data.List.Forall2
import Ontograph.Proofs.Graph.Cells
import Ontograph.Proofs.Mapping.Mute

/-!
# What is read is said

A step of reading is *sound* for a set of triples if it gathers triples of the set only, and if
what it answers is as promised (`Reading.Sound`).  A step that is put together from sound ones is
sound, so each reader of the mapping is followed by what its answers promise.

Two results come out of this.  Every triple of a footprint is a triple of the source
(`Source.triples_of_mem_scan`).  And where an axiom that is read relates things that have names,
there are triples that say so (`Source.stated_of_mem_scan`, `Axiom.Stated`).
-/

namespace Ontograph

namespace Reading

variable {α β γ : Type} {S : TripleSet} {m m' : Reading α} {f : α → Reading β} {a : α}
  {P Q : α → Prop} {P' : β → Prop} {ts : List Triple}

/-- The step gathers triples of the set, and its answers have the property. -/
def Sound (S : TripleSet) (m : Reading α) (P : α → Prop) : Prop :=
  ∀ acc a out, m.run acc = some (a, out) → P a ∧ ∀ t ∈ out, t ∈ acc ∨ t ∈ S

/-- A promise may be weakened. -/
theorem Sound.mono (h : Sound S m P) (hPQ : ∀ a, P a → Q a) : Sound S m Q :=
  fun acc a out hrun => (h acc a out hrun).imp_left (hPQ a)

/-- What two promises say, both keep. -/
theorem Sound.and (h : Sound S m P) (h' : Sound S m Q) : Sound S m fun a => P a ∧ Q a :=
  fun acc a out hrun => ⟨⟨(h acc a out hrun).1, (h' acc a out hrun).1⟩, (h acc a out hrun).2⟩

/-- An answer alone keeps a promise that holds of it. -/
theorem sound_pure (h : P a) : Sound S (pure a) P := by
  intro acc b out hrun
  cases hrun
  exact ⟨h, fun _ => Or.inl⟩

/-- A failure keeps every promise. -/
theorem sound_failure : Sound S (failure : Reading α) P := fun _ _ _ hrun => nomatch hrun

/-- The second of two steps may rely on what the first one promises. -/
theorem Sound.bind (hm : Sound S m P) (hf : ∀ a, P a → Sound S (f a) P') :
    Sound S (m >>= f) P' := by
  intro acc b out hrun
  rw [StateT.run_bind] at hrun
  obtain ⟨⟨a, mid⟩, hfirst, hsecond⟩ := Option.bind_eq_some_iff.1 hrun
  obtain ⟨ha, hmid⟩ := hm acc a mid hfirst
  obtain ⟨hb, hout⟩ := hf a ha mid b out hsecond
  exact ⟨hb, fun t ht => (hout t ht).elim (hmid t) Or.inr⟩

/-- A last step that only computes. -/
theorem Sound.map {g : α → β} (hm : Sound S m P) (hg : ∀ a, P a → P' (g a)) :
    Sound S (m >>= fun a => pure (g a)) P' :=
  hm.bind fun a ha => sound_pure (hg a ha)

/-- A test keeps a promise that both branches keep. -/
theorem sound_ite {c : Prop} [Decidable c] (h : c → Sound S m P) (h' : ¬ c → Sound S m' P) :
    Sound S (if c then m else m') P := by
  split
  case isTrue hc => exact h hc
  case isFalse hc => exact h' hc

/-- A choice between two steps before the same one. -/
theorem sound_ite_bind {c : Prop} [Decidable c] (h : c → Sound S m P) (h' : ¬ c → Sound S m' P)
    (hf : ∀ a, P a → Sound S (f a) P') : Sound S (if c then m >>= f else m' >>= f) P' :=
  sound_ite (fun hc => (h hc).bind hf) fun hc => (h' hc).bind hf

/-- A look-up answers what it finds. -/
theorem sound_lift {o : Option α} : Sound S (liftM o : Reading α) fun a => o = some a := by
  cases o with
  | none => exact sound_failure
  | some a => exact sound_pure rfl

/-- Triples of the set may be gathered. -/
theorem sound_gather (h : ∀ t ∈ ts, t ∈ S) : Sound S (Source.gather ts) fun _ => True := by
  intro acc u out hrun
  cases hrun
  exact ⟨trivial, fun t ht => (List.mem_append.1 ht).imp_right (h t)⟩

/-- Operands that are read one by one keep their promises one by one. -/
theorem sound_mapM {read : γ → Reading α} {P : γ → α → Prop} (h : ∀ x, Sound S (read x) (P x))
    (xs : List γ) : Sound S (xs.mapM read) fun as => List.Forall₂ P xs as := by
  induction xs with
  | nil => exact sound_pure .nil
  | cons x xs ih =>
    rw [List.mapM_cons]
    exact (h x).bind fun a ha => ih.map fun as has => .cons ha has

end Reading

open Reading

/-! ## Parts of axioms -/

/-- The triples of a list are triples of the set that say what is first and what is the rest. -/
theorem TripleSet.mem_of_mem_cellTriples {S : TripleSet} {limit : Nat} {visited : List Node}
    {x : Term} {t : Triple} (h : t ∈ S.cellTriples limit visited x) :
    t ∈ S ∧ (t.predicate = .rdf .first ∨ t.predicate = .rdf .rest) := by
  induction visited, x using TripleSet.cellTriples.induct S limit with
  | case1 visited l =>
    rw [cellTriples] at h
    cases h
  | case2 visited c hstop =>
    rw [cellTriples_node, if_pos hstop] at h
    cases h
  | case3 visited c hgo hrest =>
    rw [cellTriples_node, if_neg hgo, hrest, List.append_nil] at h
    obtain ⟨hmem, hp, -⟩ := mem_statements.1 h
    exact ⟨hmem, Or.inl hp⟩
  | case4 visited c hgo u us hrest ht _ ih =>
    rw [cellTriples_node, if_neg hgo, hrest, List.mem_append, List.mem_append] at h
    rcases h with h | h | h
    · obtain ⟨hmem, hp, -⟩ := mem_statements.1 h
      exact ⟨hmem, Or.inl hp⟩
    · rw [← hrest] at h
      obtain ⟨hmem, hp, -⟩ := mem_statements.1 h
      exact ⟨hmem, Or.inr hp⟩
    · exact ih h

namespace Source

variable {R : Source} {n s : Node} {p c : Iri} {x o : Term}

/-- The triples of the source that are of a kind that is gathered. -/
def encoding (R : Source) : TripleSet :=
  ⟨R.triples.toList.filter Triple.isGathered, R.triples.nodup.filter _⟩

/-- The encoding has the triples of the source that are of a kind that is gathered. -/
theorem mem_encoding {t : Triple} : t ∈ R.encoding ↔ t ∈ R.triples ∧ t.isGathered = true :=
  List.mem_filter

/-- A triple of the source with a describing predicate is in the encoding. -/
theorem mem_encoding_of_mem_describingPredicates {t : Triple} (ht : t ∈ R.triples)
    (hp : t.predicate ∈ describingPredicates) : t ∈ R.encoding := by
  refine mem_encoding.2 ⟨ht, ?_⟩
  rw [Triple.isGathered, List.contains_iff_mem.2 hp]
  rfl

/-- The object that a step requires is the one that is looked up, and its triple is in the
encoding. -/
theorem sound_required (hp : p ∈ describingPredicates) :
    Sound R.encoding (R.required n p) fun o => R.triples.object? n p = some o := by
  refine sound_lift.bind fun o ho => Sound.bind (P := fun _ => True) ?_ fun _ _ => sound_pure ho
  refine sound_gather fun t ht => ?_
  obtain rfl := List.mem_singleton.1 ht
  exact mem_encoding_of_mem_describingPredicates (TripleSet.mem_of_object? ho) hp

/-- Noting an encoding type gathers from the encoding. -/
theorem sound_noteType (hc : c ∈ encodingTypes) :
    Sound R.encoding (R.noteType n c) fun _ => True := by
  refine sound_ite (fun h => sound_gather fun t ht => ?_) fun _ => sound_pure trivial
  obtain rfl := List.mem_singleton.1 ht
  refine mem_encoding.2 ⟨TripleSet.hasType_iff.1 h, ?_⟩
  simpa [Triple.isGathered] using Or.inr hc

/-- The items of a list are those that the list reader finds, and its cells are in the encoding. -/
theorem sound_list : Sound R.encoding (R.list x) fun items =>
    R.triples.readList R.settings.listLimit x = .ok items := by
  refine sound_lift.bind fun items hitems =>
    (sound_gather fun t ht => ?_).map fun _ _ => ?_
  · obtain ⟨hmem, hp⟩ := TripleSet.mem_of_mem_cellTriples ht
    refine mem_encoding_of_mem_describingPredicates hmem ?_
    rcases hp with hp | hp <;> rw [hp] <;> decide
  cases hread : R.triples.readList R.settings.listLimit x with
  | error e =>
    rw [hread] at hitems
    cases hitems
  | ok items' =>
    rw [hread] at hitems
    cases hitems
    rfl

/-- A name is read from the term that is the name. -/
theorem sound_named {S : TripleSet} : Sound S (named x) fun i => x = .node (.iri i) := by
  refine sound_lift.mono fun i hi => ?_
  obtain (_ | _) | _ := x
  · cases hi
    rfl
  · cases hi
  · cases hi

/-- An individual is read from the term that is the node. -/
theorem sound_individual {S : TripleSet} : Sound S (individual x) fun n => x = .node n := by
  refine sound_lift.mono fun n hn => ?_
  cases x with
  | node m =>
    cases hn
    rfl
  | literal l => cases hn

/-- A literal is read from the term that is the literal. -/
theorem sound_literal {S : TripleSet} : Sound S (literal x) fun l => x = .literal l := by
  refine sound_lift.mono fun l hl => ?_
  cases x with
  | node n => cases hl
  | literal l' =>
    cases hl
    rfl

/-- A named object property is read from its name, and an inverse from triples of the encoding. -/
theorem sound_objectProperty : Sound R.encoding (R.objectProperty x) fun e =>
    ∀ p, e = .named p → x = .node (.iri p) := by
  obtain (i | b) | l := x
  · refine sound_pure ?_
    rintro p ⟨⟩
    rfl
  · refine (sound_required (by decide)).bind fun base _ => sound_named.map fun _ _ => ?_
    rintro p ⟨⟩
  · exact sound_failure

/-- A facet is read from triples of the encoding. -/
theorem sound_facet : Sound R.encoding (R.facet x) fun _ => True := by
  refine sound_individual.bind fun n _ => ?_
  split
  case h_1 t hout =>
    refine sound_literal.bind fun value hvalue =>
      (sound_gather fun u hu => ?_).map fun _ _ => trivial
    have hmem : u ∈ R.triples.outgoing n := hout ▸ hu
    obtain rfl := List.mem_singleton.1 hu
    refine mem_encoding.2 ⟨(TripleSet.mem_outgoing.1 hmem).1, ?_⟩
    simp [Triple.isGathered, hvalue, Term.isLiteral]
  case h_2 => exact sound_failure

variable {α : Type} {inner : Term → Reading α}

/-- Operands are read from triples of the encoding, if each of them is. -/
theorem sound_operandsOf (hp : p ∈ describingPredicates)
    (h : ∀ x, Sound R.encoding (inner x) fun _ => True) :
    Sound R.encoding (R.operandsOf inner n p) fun _ => True :=
  (sound_required hp).bind fun _ _ => sound_list.bind fun _ _ =>
    (sound_mapM h _).mono fun _ _ => trivial

/-- A bound is read from triples of the encoding. -/
theorem sound_bounded (hp : p ∈ describingPredicates) :
    Sound R.encoding (R.bounded n p) fun _ => True := by
  have hplain : ∀ b : Bound, b.plain ∈ describingPredicates := fun b => by cases b <;> decide
  have hqualified : ∀ b : Bound, b.qualified ∈ describingPredicates :=
    fun b => by cases b <;> decide
  have hcardinality : ∀ x, Sound R.encoding (cardinality x) fun _ => True :=
    fun _ => sound_lift.mono fun _ _ => trivial
  have hgo : ∀ bs, Sound R.encoding (bounded.go R n p bs) fun _ => True := by
    intro bs
    induction bs with
    | nil => exact sound_failure
    | cons b bs ih =>
      refine sound_ite (fun _ => ?_) fun _ => sound_ite (fun _ => ?_) fun _ => ih
      · exact (sound_required (hplain b)).bind fun o _ => (hcardinality o).map fun _ _ => trivial
      · exact (sound_required (hqualified b)).bind fun o _ => (sound_required hp).bind fun _ _ =>
          (hcardinality o).map fun _ _ => trivial
  exact hgo _

/-! ### Data ranges -/

/-- What a blank node says is no named data range. -/
theorem sound_dataRangeAt {inner : Term → Reading DataRange}
    (h : ∀ x, Sound R.encoding (inner x) fun _ => True) :
    Sound R.encoding (R.dataRangeAt inner n) fun d => ∀ i, d ≠ .named i := by
  have hfacet : ∀ x, Sound R.encoding (R.facet x) fun _ => True := fun _ => sound_facet
  have hliteral : ∀ x, Sound R.encoding (literal x) fun _ => True :=
    fun _ => sound_literal.mono fun _ _ => trivial
  refine (sound_noteType (by decide)).bind fun _ _ => ?_
  refine sound_ite (fun _ => ?_) fun _ => sound_ite (fun _ => ?_) fun _ => sound_ite (fun _ => ?_)
    fun _ => sound_ite (fun _ => ?_) fun _ => ?_
  · exact (sound_operandsOf (by decide) h).map fun _ _ _ hd => DataRange.noConfusion hd
  · exact (sound_operandsOf (by decide) h).map fun _ _ _ hd => DataRange.noConfusion hd
  · exact (sound_required (by decide)).bind fun o _ =>
      (h o).map fun _ _ _ hd => DataRange.noConfusion hd
  · exact (sound_operandsOf (by decide) hliteral).map fun _ _ _ hd => DataRange.noConfusion hd
  · exact (sound_required (by decide)).bind fun _ _ => sound_named.bind fun _ _ =>
      (sound_operandsOf (by decide) hfacet).map fun _ _ _ hd => DataRange.noConfusion hd

/-- A data range is read, inside of others, from triples of the encoding, a named one from its
name. -/
theorem sound_dataRangeIn (within : List Node) (x : Term) :
    Sound R.encoding (R.dataRangeIn within x) fun d => ∀ i, d = .named i → x = .node (.iri i) := by
  induction within, x using Source.dataRangeIn.induct R with
  | case1 within d =>
    rw [Source.dataRangeIn]
    refine sound_pure ?_
    rintro i ⟨⟩
    rfl
  | case2 within b hnew _ ih =>
    rw [Source.dataRangeIn, dif_pos hnew]
    refine (sound_dataRangeAt fun x => (ih x).mono fun _ _ => trivial).mono fun d hd i hi => ?_
    exact absurd hi (hd i)
  | case3 within b hold =>
    rw [Source.dataRangeIn, dif_neg hold]
    exact sound_failure
  | case4 within l =>
    rw [Source.dataRangeIn]
    exact sound_failure

/-- A data range is read from triples of the encoding, a named one from its name. -/
theorem sound_dataRange :
    Sound R.encoding (R.dataRange x) fun d => ∀ i, d = .named i → x = .node (.iri i) :=
  sound_dataRangeIn [] x

/-! ### Class expressions -/

/-- A restriction on an object property is no named class, and is read from triples of the
encoding. -/
theorem sound_objectRestriction {inner : Term → Reading ClassExpr} {e : ObjectPropertyExpr}
    (h : ∀ x, Sound R.encoding (inner x) fun _ => True) :
    Sound R.encoding (R.objectRestriction inner n e) fun c => ∀ i, c ≠ .named i := by
  refine sound_ite (fun _ => ?_) fun _ => sound_ite (fun _ => ?_) fun _ => sound_ite (fun _ => ?_)
    fun _ => sound_ite (fun _ => ?_) fun _ => ?_
  · exact (sound_required (by decide)).bind fun o _ =>
      (h o).map fun _ _ _ hc => ClassExpr.noConfusion hc
  · exact (sound_required (by decide)).bind fun o _ =>
      (h o).map fun _ _ _ hc => ClassExpr.noConfusion hc
  · exact (sound_required (by decide)).bind fun _ _ =>
      sound_individual.map fun _ _ _ hc => ClassExpr.noConfusion hc
  · exact (sound_required (by decide)).map fun _ _ _ hc => ClassExpr.noConfusion hc
  · refine (sound_bounded (by decide)).bind fun r _ => ?_
    obtain ⟨_, _, _ | filler⟩ := r
    · exact sound_pure fun _ hc => ClassExpr.noConfusion hc
    · exact (h filler).map fun _ _ _ hc => ClassExpr.noConfusion hc

/-- A restriction on a data property is no named class, and is read from triples of the encoding. -/
theorem sound_dataRestriction {inner : Term → Reading DataRange}
    (h : ∀ x, Sound R.encoding (inner x) fun _ => True) :
    Sound R.encoding (R.dataRestriction inner n p) fun c => ∀ i, c ≠ .named i := by
  refine sound_ite (fun _ => ?_) fun _ => sound_ite (fun _ => ?_) fun _ => sound_ite (fun _ => ?_)
    fun _ => ?_
  · exact (sound_required (by decide)).bind fun o _ =>
      (h o).map fun _ _ _ hc => ClassExpr.noConfusion hc
  · exact (sound_required (by decide)).bind fun o _ =>
      (h o).map fun _ _ _ hc => ClassExpr.noConfusion hc
  · exact (sound_required (by decide)).bind fun _ _ =>
      sound_literal.map fun _ _ _ hc => ClassExpr.noConfusion hc
  · refine (sound_bounded (by decide)).bind fun r _ => ?_
    obtain ⟨_, _, _ | filler⟩ := r
    · exact sound_pure fun _ hc => ClassExpr.noConfusion hc
    · exact (h filler).map fun _ _ _ hc => ClassExpr.noConfusion hc

/-- What a blank node says is no named class. -/
theorem sound_classExprAt {inner : Term → Reading ClassExpr} {innerData : Term → Reading DataRange}
    (h : ∀ x, Sound R.encoding (inner x) fun _ => True)
    (hdata : ∀ x, Sound R.encoding (innerData x) fun _ => True) :
    Sound R.encoding (R.classExprAt inner innerData n) fun c => ∀ i, c ≠ .named i := by
  have hindividual : ∀ x, Sound R.encoding (individual x) fun _ => True :=
    fun _ => sound_individual.mono fun _ _ => trivial
  refine sound_ite (fun _ => ?_) fun _ => (sound_noteType (by decide)).bind fun _ _ => ?_
  · refine (sound_noteType (by decide)).bind fun _ _ =>
      (sound_required (by decide)).bind fun q _ => ?_
    split
    case h_1 => exact sound_objectProperty.bind fun _ _ => sound_objectRestriction h
    case h_2 => exact sound_named.bind fun _ _ => sound_dataRestriction hdata
    case h_3 => exact sound_failure
  · refine sound_ite (fun _ => ?_) fun _ => sound_ite (fun _ => ?_) fun _ => sound_ite
      (fun _ => ?_) fun _ => ?_
    · exact (sound_operandsOf (by decide) h).map fun _ _ _ hc => ClassExpr.noConfusion hc
    · exact (sound_operandsOf (by decide) h).map fun _ _ _ hc => ClassExpr.noConfusion hc
    · exact (sound_required (by decide)).bind fun o _ =>
      (h o).map fun _ _ _ hc => ClassExpr.noConfusion hc
    · exact (sound_operandsOf (by decide) hindividual).map fun _ _ _ hc => ClassExpr.noConfusion hc

/-- A class expression is read, inside of others, from triples of the encoding, a named class from
its name. -/
theorem sound_classExprIn (within : List Node) (x : Term) :
    Sound R.encoding (R.classExprIn within x) fun c => ∀ i, c = .named i → x = .node (.iri i) := by
  induction within, x using Source.classExprIn.induct R with
  | case1 within c =>
    rw [Source.classExprIn]
    refine sound_pure ?_
    rintro i ⟨⟩
    rfl
  | case2 within b hnew _ ih =>
    rw [Source.classExprIn, dif_pos hnew]
    refine (sound_classExprAt (fun x => (ih x).mono fun _ _ => trivial) fun x =>
      (sound_dataRangeIn _ x).mono fun _ _ => trivial).mono fun c hc i hi => ?_
    exact absurd hi (hc i)
  | case3 within b hold =>
    rw [Source.classExprIn, dif_neg hold]
    exact sound_failure
  | case4 within l =>
    rw [Source.classExprIn]
    exact sound_failure

/-- A class expression is read from triples of the encoding, a named class from its name. -/
theorem sound_classExpr :
    Sound R.encoding (R.classExpr x) fun c => ∀ i, c = .named i → x = .node (.iri i) :=
  sound_classExprIn [] x

/-! ## Axioms -/

/-- A predicate relates two nodes, one way or the other. -/
def Linked (R : Source) (p : Iri) (x y : Node) : Prop :=
  ⟨x, p, .node y⟩ ∈ R.triples ∨ ⟨y, p, .node x⟩ ∈ R.triples

/-- Two nodes are among the members of one group of a type. -/
def Grouped (R : Source) (c : Iri) (x y : Node) : Prop :=
  ∃ root p head items, .typing root c ∈ R.triples ∧
    (p = .owl .members ∨ c = .owl .AllDifferent ∧ p = .owl .distinctMembers) ∧
    R.triples.object? root p = some head ∧
    R.triples.readList R.settings.listLimit head = .ok items ∧
    .node x ∈ items ∧ .node y ∈ items

/-- A node has a list for a predicate, with the given items. -/
def HasList (R : Source) (n : Node) (p : Iri) (items : List Term) : Prop :=
  ∃ head, ⟨n, p, head⟩ ∈ R.triples ∧
    R.triples.readList R.settings.listLimit head = .ok items

end Source

/-- The triples say what the axiom says about things that have names. -/
def Axiom.Stated (R : Source) : Axiom → Prop
  | .declaration e => .typing e.iri e.kind.declaration ∈ R.triples
  | .subClassOf c d => ∀ a b, c = .named a → d = .named b →
    ⟨a, .rdfs .subClassOf, .node (.iri b)⟩ ∈ R.triples
  | .equivalentClasses cs => ∀ a b : Iri, .named a ∈ cs → .named b ∈ cs → a ≠ b →
    R.Linked (.owl .equivalentClass) a b
  | .disjointClasses cs => ∀ a b : Iri, .named a ∈ cs → .named b ∈ cs → a ≠ b →
    R.Linked (.owl .disjointWith) a b ∨ R.Grouped (.owl .AllDisjointClasses) a b
  | .disjointUnion c parts => ∃ items, R.HasList c (.owl .disjointUnionOf) items ∧
    ∀ a, .named a ∈ parts → .node (.iri a) ∈ items
  | .subObjectPropertyOf e f => ∀ p q, e = .named p → f = .named q →
    ⟨p, .rdfs .subPropertyOf, .node (.iri q)⟩ ∈ R.triples
  | .subPropertyChainOf chain q => ∀ ps : List Iri, chain = ps.map .named →
    R.HasList q (.owl .propertyChainAxiom) (ps.map fun p => .node (.iri p))
  | .subDataPropertyOf p q | .subAnnotationPropertyOf p q =>
    ⟨p, .rdfs .subPropertyOf, .node (.iri q)⟩ ∈ R.triples
  | .equivalentProperties _ ps => ∀ p q, p ∈ ps → q ∈ ps → p ≠ q →
    R.Linked (.owl .equivalentProperty) p q
  | .disjointProperties _ ps => ∀ p q, p ∈ ps → q ∈ ps → p ≠ q →
    R.Linked (.owl .propertyDisjointWith) p q ∨ R.Grouped (.owl .AllDisjointProperties) p q
  | .propertyDomain _ p c => ∀ a, c = .named a → ⟨p, .rdfs .domain, .node (.iri a)⟩ ∈ R.triples
  | .objectPropertyRange p c => ∀ a, c = .named a → ⟨p, .rdfs .range, .node (.iri a)⟩ ∈ R.triples
  | .dataPropertyRange p d => ∀ a, d = .named a → ⟨p, .rdfs .range, .node (.iri a)⟩ ∈ R.triples
  | .inverseObjectProperties p q => ⟨p, .owl .inverseOf, .node (.iri q)⟩ ∈ R.triples
  | .objectCharacteristic c p => .typing p c.type ∈ R.triples
  | .functionalDataProperty p => .typing p (.owl .FunctionalProperty) ∈ R.triples
  | .datatypeDefinition d e => ∀ a, e = .named a →
    ⟨d, .owl .equivalentClass, .node (.iri a)⟩ ∈ R.triples
  | .classAssertion c a => ∀ i, c = .named i →
    .typing a i ∈ R.triples ∧ i ≠ .owl .NamedIndividual
  | .propertyAssertion p a o | .annotationAssertion p a o => ⟨a, p, o⟩ ∈ R.triples
  | .negativePropertyAssertion p a o => ∃ root,
    ⟨root, .owl .sourceIndividual, .node a⟩ ∈ R.triples ∧
    ⟨root, .owl .assertionProperty, .node (.iri p)⟩ ∈ R.triples ∧
    (⟨root, .owl .targetIndividual, o⟩ ∈ R.triples ∨ ⟨root, .owl .targetValue, o⟩ ∈ R.triples)
  | .sameIndividual as => ∀ a b, a ∈ as → b ∈ as → a ≠ b → R.Linked (.owl .sameAs) a b
  | .differentIndividuals as => ∀ a b, a ∈ as → b ∈ as → a ≠ b →
    R.Linked (.owl .differentFrom) a b ∨ R.Grouped (.owl .AllDifferent) a b
  | .hasKey c ops dps => ∃ items, (∀ a, c = .named a → R.HasList a (.owl .hasKey) items) ∧
    ∀ p, p ∈ ops ∨ p ∈ dps → .node (.iri p) ∈ items
  | .annotationPropertyDomain p a => ⟨p, .rdfs .domain, .node (.iri a)⟩ ∈ R.triples
  | .annotationPropertyRange p a => ⟨p, .rdfs .range, .node (.iri a)⟩ ∈ R.triples

namespace Source

variable {R : Source} {n s root : Node} {p c : Iri} {x o : Term} {t : Triple}

/-- Of two different nodes of a pair one is the subject and the other one the object. -/
theorem linked_of_pair {m x y : Node} (h : ⟨n, p, .node m⟩ ∈ R.triples) (hx : x ∈ [n, m])
    (hy : y ∈ [n, m]) (hne : x ≠ y) : R.Linked p x y := by
  simp only [List.mem_cons, List.not_mem_nil, or_false] at hx hy
  rcases hx with rfl | rfl <;> rcases hy with rfl | rfl
  · exact absurd rfl hne
  · exact Or.inl h
  · exact Or.inr h
  · exact absurd rfl hne

/-- A triple between two properties that are read from its terms links them. -/
theorem linked_of_properties {q q' a b : Iri} (h : ⟨s, p, o⟩ ∈ R.triples)
    (hs : Term.node s = .node (.iri q)) (ho : o = .node (.iri q')) (ha : a ∈ [q, q'])
    (hb : b ∈ [q, q']) (hne : a ≠ b) : R.Linked p a b := by
  cases hs
  subst ho
  exact linked_of_pair h (List.mem_map_of_mem (f := Node.iri) ha) (List.mem_map_of_mem hb)
    fun heq => hne (Node.iri.inj heq)

/-- A triple between two class expressions that are read from its terms links them, if they have
names. -/
theorem linked_of_classes {d e : ClassExpr} {a b : Iri} (h : ⟨s, p, o⟩ ∈ R.triples)
    (hd : ∀ i, d = .named i → Term.node s = .node (.iri i))
    (he : ∀ i, e = .named i → o = .node (.iri i)) (ha : .named a ∈ [d, e])
    (hb : .named b ∈ [d, e]) (hne : a ≠ b) : R.Linked p a b := by
  simp only [List.mem_cons, List.not_mem_nil, or_false] at ha hb
  rcases ha with rfl | rfl <;> rcases hb with hb | hb
  · exact absurd (ClassExpr.named.inj hb).symm hne
  · subst hb
    cases hd a rfl
    cases he b rfl
    exact Or.inl h
  · subst hb
    cases hd b rfl
    cases he a rfl
    exact Or.inr h
  · exact absurd (ClassExpr.named.inj hb).symm hne

/-- What is read from the items of a list is read from one of them. -/
theorem exists_of_forall₂ {α β : Type} {P : α → β → Prop} {xs : List α} {ys : List β} {y : β}
    (h : List.Forall₂ P xs ys) (hy : y ∈ ys) : ∃ x ∈ xs, P x y := by
  induction h with
  | nil => cases hy
  | cons hxy _ ih =>
    rcases List.mem_cons.1 hy with rfl | hy
    · exact ⟨_, List.mem_cons_self, hxy⟩
    · obtain ⟨x, hx, h⟩ := ih hy
      exact ⟨x, List.mem_cons_of_mem _ hx, h⟩

/-- Names that are read from the items of a list are items of it. -/
theorem mem_of_forall₂_named {xs : List Term} {cs : List ClassExpr} {a : Iri}
    (h : List.Forall₂ (fun x c => ∀ i, c = .named i → x = .node (.iri i)) xs cs)
    (ha : .named a ∈ cs) : .node (.iri a) ∈ xs := by
  obtain ⟨x, hx, hname⟩ := exists_of_forall₂ h ha
  rwa [hname a rfl] at hx

/-- A list that matches the images of another, item by item, is the list of images. -/
theorem eq_map_of_forall₂ {α β : Type} {f : β → α} {xs : List α} {ys : List β}
    (h : List.Forall₂ (fun x y => x = f y) xs ys) : xs = ys.map f := by
  induction h with
  | nil => rfl
  | cons hxy _ ih => rw [hxy, ih, List.map_cons]

/-- The source states the assertion that is read from a triple. -/
theorem sound_assertion (ht : ⟨s, p, o⟩ ∈ R.triples) :
    Sound R.encoding (R.assertion s p o) (Axiom.Stated R) :=
  sound_ite (fun _ => sound_failure) fun _ => sound_ite (fun _ => sound_pure ht) fun _ =>
    sound_ite (fun _ => sound_pure ht) fun _ => sound_failure

/-- What a type says about an entity. -/
theorem stated_of_entityTyping? {i : Iri} {ax : Axiom} (ht : .typing i c ∈ R.triples)
    (h : R.entityTyping? i c = some ax) : ax.Stated R := by
  unfold entityTyping? at h
  split at h
  case h_7 =>
    split at h
    case isTrue =>
      cases h
      exact ht
    case isFalse =>
      split at h
      case isTrue =>
        cases h
        exact ht
      case isFalse => cases h
  case h_14 => cases h
  all_goals
    cases h
    exact ht

/-- The source states the negative assertion that is read at a node. -/
theorem sound_negativeAssertion :
    Sound R.encoding (R.negativeAssertion root) (Axiom.Stated R) := by
  refine (sound_required (by decide)).bind fun source hsource =>
    (sound_required (by decide)).bind fun property hproperty => sound_individual.bind fun a ha =>
      sound_named.bind fun p hp => ?_
  subst ha hp
  have hsource := TripleSet.mem_of_object? hsource
  have hproperty := TripleSet.mem_of_object? hproperty
  refine sound_ite (fun _ => ?_) fun _ => ?_
  · refine (sound_required (by decide)).bind fun target htarget =>
      sound_individual.map fun b hb => ?_
    subst hb
    exact ⟨root, hsource, hproperty, Or.inl (TripleSet.mem_of_object? htarget)⟩
  · refine (sound_required (by decide)).bind fun target htarget => sound_literal.map fun l hl => ?_
    subst hl
    exact ⟨root, hsource, hproperty, Or.inr (TripleSet.mem_of_object? htarget)⟩

/-- The members of a group are the items of its list. -/
theorem sound_group (hroot : .typing root c ∈ R.triples)
    (hc : c ∈ [Iri.owl .AllDisjointClasses, .owl .AllDisjointProperties, .owl .AllDifferent]) :
    Sound R.encoding (R.group root c) (Axiom.Stated R) := by
  refine sound_ite_bind
    (P := fun head => ∃ p,
      (p = .owl .members ∨ c = .owl .AllDifferent ∧ p = .owl .distinctMembers) ∧
      R.triples.object? root p = some head)
    (fun h => (sound_required (by decide)).mono fun head ho => ⟨_, Or.inr ⟨?_, rfl⟩, ho⟩)
    (fun _ => (sound_required (by decide)).mono fun head ho => ⟨_, Or.inl rfl, ho⟩)
    fun head ⟨p, hp, ho⟩ => sound_list.bind fun items hitems => ?_
  · rw [Bool.and_eq_true, beq_iff_eq] at h
    exact h.1
  have hgrouped : ∀ x y : Node, .node x ∈ items → .node y ∈ items → R.Grouped c x y :=
    fun x y hx hy => ⟨root, p, head, items, hroot, hp, ho, hitems, hx, hy⟩
  have hproperties : ∀ sort, c = .owl .AllDisjointProperties → Sound R.encoding
      (items.mapM named >>= fun ps => pure (Axiom.disjointProperties sort ps))
      (Axiom.Stated R) := by
    rintro sort rfl
    refine (sound_mapM (fun _ => sound_named) items).map fun ps hps p q hp hq _ => Or.inr ?_
    obtain rfl := eq_map_of_forall₂ hps
    exact hgrouped p q (List.mem_map_of_mem hp) (List.mem_map_of_mem hq)
  split
  case h_1 =>
    refine (sound_mapM (fun _ => sound_classExpr) items).map fun cs hcs a b ha hb _ => Or.inr ?_
    exact hgrouped a b (mem_of_forall₂_named hcs ha) (mem_of_forall₂_named hcs hb)
  case h_2 =>
    refine (sound_mapM (fun _ => sound_individual) items).map fun as has a b ha hb _ => Or.inr ?_
    obtain rfl := eq_map_of_forall₂ has
    exact hgrouped a b (List.mem_map_of_mem ha) (List.mem_map_of_mem hb)
  case h_3 hclasses hdifferent =>
    have hc' : c = .owl .AllDisjointProperties := by
      simp only [List.mem_cons, List.not_mem_nil, or_false] at hc
      rcases hc with rfl | rfl | rfl
      · exact absurd rfl hclasses
      · rfl
      · exact absurd rfl hdifferent
    split
    case h_1 => exact hproperties .object hc'
    case h_2 => exact hproperties .data hc'
    case h_3 => exact sound_failure

/-- The source states the axiom that is read from a typing. -/
theorem sound_typing (ht : ⟨s, .rdf .type, o⟩ ∈ R.triples) :
    Sound R.encoding (R.typing s o) fun r => r.1.Stated R := by
  unfold typing
  split
  case h_1 => exact sound_failure
  case h_2 b =>
    refine sound_ite (fun _ => sound_failure) fun _ => sound_classExpr.map fun c hc i hi => ?_
    cases hc i hi
  case h_3 c =>
    split
    case h_1 => exact sound_negativeAssertion.map fun _ h => h
    case h_2 => exact (sound_group ht (by simp)).map fun _ h => h
    case h_3 => exact (sound_group ht (by simp)).map fun _ h => h
    case h_4 => exact (sound_group ht (by simp)).map fun _ h => h
    case h_5 =>
      split
      case h_1 ax hax =>
        obtain ⟨i, hi, hax⟩ := Option.bind_eq_some_iff.1 hax
        refine sound_pure ?_
        cases s with
        | iri j =>
          cases hi
          exact stated_of_entityTyping? ht hax
        | blank b => cases hi
      case h_2 =>
        refine sound_ite (fun h => sound_pure ?_) fun _ => sound_failure
        rintro i ⟨⟩
        refine ⟨ht, ?_⟩
        rintro rfl
        exact absurd (Bool.and_eq_true_iff.1 h).1 (by decide)

/-- The source states the axiom that is read from a property below another. -/
theorem sound_subProperty (ht : ⟨s, .rdfs .subPropertyOf, o⟩ ∈ R.triples) :
    Sound R.encoding (R.subProperty s o) (Axiom.Stated R) := by
  unfold subProperty
  split
  case h_1 =>
    refine sound_objectProperty.bind fun e he => sound_objectProperty.map fun f hf p q hp hq => ?_
    cases he p hp
    cases hf q hq
    exact ht
  case h_2 =>
    refine sound_named.bind fun p hp => sound_named.map fun q hq => ?_
    cases hp
    cases hq
    exact ht
  case h_3 =>
    refine sound_named.bind fun p hp => sound_named.map fun q hq => ?_
    cases hp
    cases hq
    exact ht
  case h_4 => exact sound_failure

/-- Finding the sort of two properties gathers from the encoding. -/
theorem sound_pairSort : Sound R.encoding (R.pairSort s o) fun _ => True := by
  unfold pairSort
  split
  case h_1 => exact sound_pure trivial
  case h_2 => exact sound_pure trivial
  case h_3 => exact sound_failure

/-- The source states the axiom that is read from a domain. -/
theorem sound_domain (ht : ⟨s, .rdfs .domain, o⟩ ∈ R.triples) :
    Sound R.encoding (R.domain s o) (Axiom.Stated R) := by
  have hclass : ∀ sort, Sound R.encoding (named s >>= fun p => R.classExpr o >>= fun c =>
      pure (Axiom.propertyDomain sort p c)) (Axiom.Stated R) := by
    refine fun sort => sound_named.bind fun p hp => sound_classExpr.map fun c hc a ha => ?_
    cases hp
    cases hc a ha
    exact ht
  unfold domain
  split
  case h_1 => exact hclass .object
  case h_2 => exact hclass .data
  case h_3 =>
    refine sound_named.bind fun p hp => sound_named.map fun a ha => ?_
    cases hp
    cases ha
    exact ht
  case h_4 => exact sound_failure

/-- The source states the axiom that is read from a range. -/
theorem sound_range (ht : ⟨s, .rdfs .range, o⟩ ∈ R.triples) :
    Sound R.encoding (R.range s o) (Axiom.Stated R) := by
  unfold range
  split
  case h_1 =>
    refine sound_named.bind fun p hp => sound_classExpr.map fun c hc a ha => ?_
    cases hp
    cases hc a ha
    exact ht
  case h_2 =>
    refine sound_named.bind fun p hp => sound_dataRange.map fun d hd a ha => ?_
    cases hp
    cases hd a ha
    exact ht
  case h_3 =>
    refine sound_named.bind fun p hp => sound_named.map fun a ha => ?_
    cases hp
    cases ha
    exact ht
  case h_4 => exact sound_failure

/-- The source states the axiom that is read from an equivalence. -/
theorem sound_equivalence (ht : ⟨s, .owl .equivalentClass, o⟩ ∈ R.triples) :
    Sound R.encoding (R.equivalence s o) (Axiom.Stated R) := by
  refine sound_ite (fun _ => ?_) fun _ => ?_
  · refine sound_named.bind fun d hd => sound_dataRange.map fun e he a ha => ?_
    cases hd
    cases he a ha
    exact ht
  · refine sound_classExpr.bind fun c hc => sound_classExpr.map fun d hd a b ha hb hne => ?_
    exact linked_of_classes ht hc hd ha hb hne

/-- The source states the axiom that is read from a key. -/
theorem sound_key (ht : ⟨s, .owl .hasKey, o⟩ ∈ R.triples) :
    Sound R.encoding (R.key s o) (Axiom.Stated R) := by
  unfold key
  refine sound_list.bind fun items hitems => ?_
  rw [List.partition_eq_filter_filter]
  refine sound_ite (fun _ => sound_failure) fun _ => sound_classExpr.bind fun c hc =>
    (sound_mapM (fun _ => sound_named) _).bind fun ops hops =>
      (sound_mapM (fun _ => sound_named) _).map fun dps hdps => ?_
  refine ⟨items, fun a ha => ?_, fun p hp => ?_⟩
  · cases hc a ha
    exact ⟨o, ht, hitems⟩
  · have hops := eq_map_of_forall₂ hops
    have hdps := eq_map_of_forall₂ hdps
    rcases hp with hp | hp
    · exact List.mem_of_mem_filter (hops ▸ List.mem_map_of_mem hp)
    · exact List.mem_of_mem_filter (hdps ▸ List.mem_map_of_mem hp)

/-- The axiom of a triple is stated in the source of the triple. -/
theorem sound_statement (ht : t ∈ R.triples) :
    Sound R.encoding (R.statement t) fun r => r.1.Stated R := by
  obtain ⟨s, p, o⟩ := t
  have hplain : ∀ {read : Reading Axiom}, Sound R.encoding read (Axiom.Stated R) →
      Sound R.encoding (statement.plain read) fun r => r.1.Stated R := fun h => h.map fun _ h => h
  refine sound_ite (fun _ => sound_failure) fun _ => ?_
  dsimp only at ht ⊢
  split
  case h_1 => exact sound_typing ht
  case h_2 =>
    refine hplain (sound_classExpr.bind fun c hc => sound_classExpr.map fun d hd a b ha hb => ?_)
    cases hc a ha
    cases hd b hb
    exact ht
  case h_3 => exact hplain (sound_equivalence ht)
  case h_4 =>
    refine hplain (sound_classExpr.bind fun c hc => sound_classExpr.map
      fun d hd a b ha hb hne => Or.inl ?_)
    exact linked_of_classes ht hc hd ha hb hne
  case h_5 =>
    refine hplain (sound_named.bind fun c hc => sound_list.bind fun items hitems =>
      (sound_mapM (fun _ => sound_classExpr) items).map fun parts hparts => ?_)
    cases hc
    exact ⟨items, ⟨o, ht, hitems⟩, fun a ha => mem_of_forall₂_named hparts ha⟩
  case h_6 => exact hplain (sound_subProperty ht)
  case h_7 =>
    refine hplain (sound_list.bind fun items hitems =>
      (sound_mapM (fun _ => sound_objectProperty) items).bind fun chain hchain =>
        sound_named.map fun q hq ps hps => ?_)
    cases hq
    subst hps
    have hitems' := eq_map_of_forall₂
      ((List.forall₂_map_right_iff.1 hchain).imp fun x p hx => hx p rfl)
    exact ⟨o, ht, hitems' ▸ hitems⟩
  case h_8 =>
    refine hplain (sound_pairSort.bind fun sort _ => sound_named.bind fun q hq =>
      sound_named.map fun q' hq' a b ha hb hne => ?_)
    exact linked_of_properties ht hq hq' ha hb hne
  case h_9 =>
    refine hplain (sound_pairSort.bind fun sort _ => sound_named.bind fun q hq =>
      sound_named.map fun q' hq' a b ha hb hne => Or.inl ?_)
    exact linked_of_properties ht hq hq' ha hb hne
  case h_10 => exact hplain (sound_domain ht)
  case h_11 => exact hplain (sound_range ht)
  case h_12 =>
    refine hplain (sound_named.bind fun q hq => sound_named.map fun q' hq' => ?_)
    cases hq
    cases hq'
    exact ht
  case h_13 =>
    refine hplain (sound_individual.map fun m hm a b ha hb hne => ?_)
    cases hm
    exact linked_of_pair ht ha hb hne
  case h_14 =>
    refine hplain (sound_individual.map fun m hm a b ha hb hne => Or.inl ?_)
    cases hm
    exact linked_of_pair ht ha hb hne
  case h_15 => exact hplain (sound_key ht)
  case h_16 =>
    exact sound_ite (fun _ => hplain (sound_assertion ht)) fun _ => sound_failure

/-! ## Whole sources -/

variable {a : AnnotatedAxiom} {f : Footprint} {m : Triple}

/-- The triples of a node's remarks are triples of the source. -/
theorem mem_of_mem_remarkTriples (h : t ∈ R.remarkTriples n) : t ∈ R.triples :=
  (TripleSet.mem_outgoing.1 (List.mem_of_mem_filter h)).1

/-- What makes a node stand for a triple is there, if the node does. -/
theorem mem_of_mem_reification (hn : n ∈ R.reifiers m) (h : t ∈ R.reification n m) :
    t ∈ R.triples := by
  obtain ⟨hsource, hrest⟩ := List.mem_filter.1 hn
  rw [Bool.and_eq_true, decide_eq_true_iff, decide_eq_true_iff] at hrest
  rcases List.mem_append.1 h with h | h
  · simp only [List.mem_cons, List.not_mem_nil, or_false] at h
    rcases h with rfl | rfl | rfl
    · exact TripleSet.mem_subjects.1 hsource
    · exact hrest.1
    · exact hrest.2
  · split at h
    case isTrue htype =>
      obtain rfl := List.mem_singleton.1 h
      exact TripleSet.hasType_iff.1 htype
    case isFalse => cases h

/-- A triple of a footprint is the main one, or it was gathered, or makes a remark, or it makes a
node with the remarks of the axiom stand for the main one. -/
theorem cases_of_mem_triples (h : (a, f) ∈ R.scan) (ht : t ∈ f.triples) :
    t = f.main ∨ t ∈ R.encoding ∨ (∃ n, t ∈ R.remarkTriples n) ∨
      ∃ n ∈ R.reifiers f.main, t ∈ R.reification n f.main ∧
        a.remarks = Remark.canonical (remarksOf (R.remarkTriples n)) := by
  have hgathered : ∀ {r ts}, f.main ∈ R.triples → (R.statement f.main).run [] = some (r, ts) →
      ∀ t ∈ ts, t ∈ R.encoding := by
    intro r ts hm hrun t ht
    exact ((sound_statement hm [] r ts hrun).2 t ht).resolve_left List.not_mem_nil
  have hread := mem_axiomsAt_iff.1 (mem_scan_iff.1 h)
  generalize hmain : f.main = main at hread hgathered
  cases hread with
  | rooted hm hrun =>
    refine (Footprint.mem_triples_of.1 ht).imp_right fun ht => ?_
    exact (List.mem_append.1 ht).imp (hgathered hm hrun t) fun ht => Or.inl ⟨_, ht⟩
  | bare hm hrun =>
    exact (Footprint.mem_triples_of.1 ht).imp_right fun ht => Or.inl (hgathered hm hrun t ht)
  | @reified ax ts n hm hrun hn =>
    refine (Footprint.mem_triples_of.1 ht).imp_right fun ht => ?_
    rw [List.mem_append, List.mem_append, or_assoc] at ht
    refine ht.imp (hgathered hm hrun t) fun ht => ?_
    exact ht.elim (fun ht => Or.inr ⟨n, hn, ht, rfl⟩) fun ht => Or.inl ⟨n, ht⟩

/-- **Footprints.** An axiom is read from triples of the source. -/
theorem triples_of_mem_scan (h : (a, f) ∈ R.scan) (ht : t ∈ f.triples) : t ∈ R.triples := by
  rcases cases_of_mem_triples h ht with rfl | ht | ⟨n, ht⟩ | ⟨n, hn, ht, -⟩
  · exact (mem_axiomsAt_iff.1 (mem_scan_iff.1 h)).mem
  · exact (mem_encoding.1 ht).1
  · exact mem_of_mem_remarkTriples ht
  · exact mem_of_mem_reification hn ht

/-- **Names.** Triples of the source say what an axiom that is read says about things with names. -/
theorem stated_of_mem_scan (h : (a, f) ∈ R.scan) : a.base.Stated R := by
  obtain ⟨_, _, hrun⟩ := exists_run_of_mem_scan h
  exact (sound_statement (mem_axiomsAt_iff.1 (mem_scan_iff.1 h)).mem [] _ _ hrun).1

end Source

end Ontograph
