import Ontograph.Proofs.Mapping.Expressions

/-!
# Writing and reading class expressions

A class expression that was written reads back from its node (`Source.recovers_classExpr`).  The
restrictions share their node: its type, its property and one or two triples more, which are what
the reader tells the restrictions apart by.
-/

namespace Ontograph

open Reading Drafting

namespace Source

variable {R : Source} {n x : Node} {e : ObjectPropertyExpr} {p : Iri} {c : ClassExpr}
  {ts us own : List Triple} {within : List Node}

/-! ## Steps of reading at a node -/

/-- A class expression is read from a described blank node that it is not inside of. -/
theorem yields_classExprIn {t : Triple} (ht : t ∈ R.triples) (hn : t.subject.isBlank = true)
    (hwithin : t.subject ∉ within)
    (h : Yields (R.classExprAt (fun y => R.classExprIn (t.subject :: within) y)
      (R.dataRangeIn (t.subject :: within)) t.subject) c ts) :
    Yields (R.classExprIn within (.node t.subject)) c ts := by
  obtain ⟨n, p, o⟩ := t
  cases n with
  | iri i => cases hn
  | blank b =>
    rw [classExprIn, dif_pos ⟨TripleSet.describes_iff.2 ⟨_, ht, rfl⟩, hwithin⟩]
    exact h

/-- The triples that every restriction has. -/
def restrictionTriples (n x : Node) : List Triple :=
  [.typing n (.owl .Restriction), ⟨n, .owl .onProperty, .node x⟩]

/-- A restriction is read as its property is classified: on an object property or on a data
property. -/
theorem yields_restriction {inner : Term → Reading ClassExpr} {innerData : Term → Reading DataRange}
    (htells : R.triples.Tells n (restrictionTriples n x ++ own))
    (hown : ∀ t ∈ own, t.predicate ≠ .owl .onProperty)
    (h : Yields (match R.sortOf? (.node x) with
      | some .objectProperty => do R.objectRestriction inner n (← R.objectProperty (.node x))
      | some .dataProperty => do R.dataRestriction innerData n (← named (.node x))
      | _ => failure) c ts) :
    Yields (R.classExprAt inner innerData n) c (restrictionTriples n x ++ ts) := by
  have hproperty : Triple.mk n (.owl .onProperty) (.node x) ∈ restrictionTriples n x ++ own := by
    simp [restrictionTriples]
  have hobject := htells.object?_eq (by decide) hproperty (by
    intro o ho
    simp only [restrictionTriples, List.mem_append, List.mem_cons, List.not_mem_nil] at ho
    rcases ho with (ho | ho | ho) | ho
    · simp at ho
    · simpa using ho
    · exact ho.elim
    · exact absurd rfl (hown _ ho))
  unfold classExprAt
  rw [if_pos (htells.hasProperty hproperty)]
  refine (yields_noteType (htells.mem _ (by simp [restrictionTriples]))).bind ?_
  exact (yields_required hobject).bind h

/-- A restriction on an object property. -/
theorem yields_objectRestriction {inner : Term → Reading ClassExpr}
    {innerData : Term → Reading DataRange}
    (htells : R.triples.Tells n (restrictionTriples n x ++ own))
    (hown : ∀ t ∈ own, t.predicate ≠ .owl .onProperty)
    (hsort : R.sortOf? (.node x) = some .objectProperty)
    (hproperty : Yields (R.objectProperty (.node x)) e us)
    (h : Yields (R.objectRestriction inner n e) c ts) :
    Yields (R.classExprAt inner innerData n) c (restrictionTriples n x ++ (us ++ ts)) := by
  refine yields_restriction htells hown ?_
  rw [hsort]
  exact hproperty.bind h

/-- A restriction on a data property. -/
theorem yields_dataRestriction {inner : Term → Reading ClassExpr}
    {innerData : Term → Reading DataRange}
    (htells : R.triples.Tells n (restrictionTriples n (.iri p) ++ own))
    (hown : ∀ t ∈ own, t.predicate ≠ .owl .onProperty) (hsort : R.KnowsDataProperty p)
    (h : Yields (R.dataRestriction innerData n p) c ts) :
    Yields (R.classExprAt inner innerData n) c (restrictionTriples n (.iri p) ++ ts) := by
  refine yields_restriction htells hown ?_
  rw [hsort.sortOf?]
  exact yields_named.bind_nil h

/-- A restriction has no predicate that it was not given. -/
theorem not_hasProperty_of_tells {q : Iri}
    (htells : R.triples.Tells n (restrictionTriples n x ++ own)) (hq : q ∈ encodingPredicates)
    (hne : q ≠ .owl .onProperty) (hown : ∀ t ∈ own, t.predicate ≠ q) :
    ¬ R.triples.hasProperty n q = true := by
  obtain ⟨htype, hrel, -⟩ := encodingPredicates_are_own q hq
  refine htells.not_hasProperty hrel fun t ht => ?_
  rcases List.mem_append.1 ht with ht | ht
  · simp only [restrictionTriples, List.mem_cons, List.not_mem_nil, or_false] at ht
    rcases ht with rfl | rfl
    · exact htype.symm
    · exact hne.symm
  · exact hown t ht

/-- What a restriction has for a predicate of its own. -/
theorem object?_of_tells {q : Iri} {o : Term}
    (htells : R.triples.Tells n (restrictionTriples n x ++ own)) (hq : q ∈ encodingPredicates)
    (hne : q ≠ .owl .onProperty) (ho : ⟨n, q, o⟩ ∈ own)
    (huniq : ∀ o', ⟨n, q, o'⟩ ∈ own → o' = o) : R.triples.object? n q = some o := by
  obtain ⟨htype, hrel, -⟩ := encodingPredicates_are_own q hq
  refine htells.object?_eq hrel (List.mem_append_right _ ho) fun o' ho' => ?_
  rcases List.mem_append.1 ho' with ho' | ho'
  · simp [restrictionTriples, htype, hne] at ho'
  · exact huniq o' ho'

/-- The number of a cardinality, as it is written. -/
abbrev numeral (k : UInt32) : Term := .literal (.ofNat k.toNat)

/-- Different bounds have different predicates. -/
theorem plain_ne_of_ne {b b' : Bound} (h : b' ≠ b) :
    b.plain ≠ b'.plain ∧ b.plain ≠ b'.qualified := by
  cases b <;> cases b' <;> first | exact absurd rfl h | decide

/-- The qualified predicate of a bound is no predicate of another bound. -/
theorem qualified_ne_of_ne {b b' : Bound} (h : b' ≠ b) :
    b.qualified ≠ b'.plain ∧ b.qualified ≠ b'.qualified := by
  cases b <;> cases b' <;> first | exact absurd rfl h | decide

/-- The first bound that the node has is the one it was given. -/
theorem bounded_eq_of_tells {b : Bound} {f : Iri}
    (htells : R.triples.Tells n (restrictionTriples n x ++ own))
    (hown : ∀ t ∈ own, ∀ b' : Bound, b' ≠ b → t.predicate ≠ b'.plain ∧ t.predicate ≠ b'.qualified) :
    ∃ bs, R.bounded n f = bounded.go R n f (b :: bs) := by
  have hskip : ∀ (b' : Bound) (bs : List Bound), b' ≠ b →
      bounded.go R n f (b' :: bs) = bounded.go R n f bs := by
    intro b' bs hb
    rw [bounded.go,
      if_neg (not_hasProperty_of_tells htells (by cases b' <;> decide) (by cases b' <;> decide)
        fun t ht => (hown t ht b' hb).1),
      if_neg (not_hasProperty_of_tells htells (by cases b' <;> decide) (by cases b' <;> decide)
        fun t ht => (hown t ht b' hb).2)]
  unfold bounded Bound.all
  cases b with
  | min => exact ⟨_, rfl⟩
  | max => exact ⟨_, hskip .min _ (by decide)⟩
  | exact => exact ⟨_, (hskip .min _ (by decide)).trans (hskip .max _ (by decide))⟩

/-- A cardinality without filler. -/
theorem yields_bounded {b : Bound} {k : UInt32} {f : Iri}
    (htells : R.triples.Tells n (restrictionTriples n x ++ [⟨n, b.plain, numeral k⟩])) :
    Yields (R.bounded n f) (b, k, none) [⟨n, b.plain, numeral k⟩] := by
  have hobject := object?_of_tells htells (q := b.plain) (o := numeral k) (by cases b <;> decide)
    (by cases b <;> decide) (by simp) (by simp)
  obtain ⟨bs, hbounded⟩ := bounded_eq_of_tells (b := b) (f := f) htells (by
    intro t ht b' hb
    obtain rfl := List.mem_singleton.1 ht
    exact plain_ne_of_ne hb)
  rw [hbounded, bounded.go,
    if_pos (htells.hasProperty (p := b.plain) (o := numeral k) (by simp))]
  exact (yields_required hobject).bind_last
    ((yields_cardinality k).map (g := fun k => (b, k, none)))

/-- A cardinality with a filler. -/
theorem yields_bounded_qualified {b : Bound} {k : UInt32} {f : Iri} {o : Term}
    (hf : f = .owl .onClass ∨ f = .owl .onDataRange)
    (htells : R.triples.Tells n
      (restrictionTriples n x ++ [⟨n, b.qualified, numeral k⟩, ⟨n, f, o⟩])) :
    Yields (R.bounded n f) (b, k, some o) [⟨n, b.qualified, numeral k⟩, ⟨n, f, o⟩] := by
  have hplain : ∀ b' : Bound, f ≠ b'.plain ∧ f ≠ b'.qualified := by
    intro b'
    rcases hf with rfl | rfl <;> cases b' <;> decide
  have hobject := object?_of_tells htells (q := b.qualified) (o := numeral k)
    (by cases b <;> decide) (by cases b <;> decide) (by simp)
    (by simp [Ne.symm (hplain b).2])
  have hfiller := object?_of_tells htells (q := f) (o := o)
    (by rcases hf with rfl | rfl <;> decide) (by rcases hf with rfl | rfl <;> decide) (by simp)
    (by simp [(hplain b).2])
  obtain ⟨bs, hbounded⟩ := bounded_eq_of_tells (b := b) (f := f) htells (by
    intro t ht b' hb
    simp only [List.mem_cons, List.not_mem_nil, or_false] at ht
    rcases ht with rfl | rfl
    · exact qualified_ne_of_ne hb
    · exact hplain b')
  rw [hbounded, bounded.go,
    if_neg (not_hasProperty_of_tells htells (q := b.plain) (by cases b <;> decide)
      (by cases b <;> decide) (by
        intro t ht
        simp only [List.mem_cons, List.not_mem_nil, or_false] at ht
        rcases ht with rfl | rfl
        · cases b <;> simp [Bound.plain, Bound.qualified]
        · exact (hplain b).1)),
    if_pos (htells.hasProperty (p := b.qualified) (o := numeral k) (by simp))]
  exact (yields_required hobject).bind ((yields_required hfiller).bind_last
    ((yields_cardinality k).map (g := fun k => (b, k, some o))))

/-- The predicates of the restrictions that are no cardinalities. -/
def valuePredicates : List Iri :=
  [.owl .someValuesFrom, .owl .allValuesFrom, .owl .hasValue, .owl .hasSelf]

/-- A restriction without a value predicate of its own has none. -/
theorem not_hasProperty_value (htells : R.triples.Tells n (restrictionTriples n x ++ own))
    (hown : ∀ t ∈ own, t.predicate ∉ valuePredicates) :
    ∀ q ∈ valuePredicates, ¬ R.triples.hasProperty n q = true := by
  intro q hq
  have hall : ∀ q ∈ valuePredicates, q ∈ encodingPredicates ∧ q ≠ .owl .onProperty := by decide
  refine not_hasProperty_of_tells htells (hall q hq).1 (hall q hq).2 ?_
  rintro t ht rfl
  exact hown t ht hq

/-! ## Restrictions on object properties -/

section

variable {inner : Term → Reading ClassExpr} {o : Term}

/-- A quantifier and its filler are read as a quantified object property. -/
theorem yields_objectValues {q : Quantifier}
    (htells : R.triples.Tells n (restrictionTriples n x ++ [⟨n, q.predicate, o⟩]))
    (h : Yields (inner o) c ts) :
    Yields (R.objectRestriction inner n e) (.objectValues q e c)
      ([⟨n, q.predicate, o⟩] ++ ts) := by
  have hobject := object?_of_tells htells (q := q.predicate) (o := o) (by cases q <;> decide)
    (by cases q <;> decide) (by simp) (by simp)
  have hvalue : Yields (do
      return ClassExpr.objectValues q e (← inner (← R.required n q.predicate)))
      (.objectValues q e c) ([⟨n, q.predicate, o⟩] ++ ts) :=
    (yields_required hobject).bind h.map
  unfold objectRestriction
  cases q with
  | some =>
    rw [if_pos (htells.hasProperty (o := o) (by simp [Quantifier.predicate]))]
    exact hvalue
  | all =>
    rw [if_neg (not_hasProperty_of_tells htells (by decide) (by decide)
        (by simp [Quantifier.predicate])),
      if_pos (htells.hasProperty (o := o) (by simp [Quantifier.predicate]))]
    exact hvalue

/-- An individual value is read as a restriction to it. -/
theorem yields_objectHasValue {value : Node}
    (htells : R.triples.Tells n (restrictionTriples n x ++ [⟨n, .owl .hasValue, .node value⟩])) :
    Yields (R.objectRestriction inner n e) (.objectHasValue e value)
      [⟨n, .owl .hasValue, .node value⟩] := by
  have hobject := object?_of_tells htells (by decide) (by decide) List.mem_cons_self (by simp)
  unfold objectRestriction
  rw [if_neg (not_hasProperty_of_tells htells (by decide) (by decide) (by simp)),
    if_neg (not_hasProperty_of_tells htells (by decide) (by decide) (by simp)),
    if_pos (htells.hasProperty (o := .node value) (by simp))]
  exact (yields_required hobject).bind_last yields_individual.map

/-- The mark of reflexivity is read as a restriction to what is linked to itself. -/
theorem yields_objectHasSelf
    (htells : R.triples.Tells n (restrictionTriples n x ++ [⟨n, .owl .hasSelf, o⟩])) :
    Yields (R.objectRestriction inner n e) (.objectHasSelf e) [⟨n, .owl .hasSelf, o⟩] := by
  have hobject := object?_of_tells htells (by decide) (by decide) List.mem_cons_self (by simp)
  unfold objectRestriction
  rw [if_neg (not_hasProperty_of_tells htells (by decide) (by decide) (by simp)),
    if_neg (not_hasProperty_of_tells htells (by decide) (by decide) (by simp)),
    if_neg (not_hasProperty_of_tells htells (by decide) (by decide) (by simp)),
    if_pos (htells.hasProperty (o := o) (by simp))]
  exact (yields_required hobject).bind_last yields_pure

/-- A bound without filler is read as a cardinality of an object property. -/
theorem yields_objectCardinality {b : Bound} {k : UInt32}
    (htells : R.triples.Tells n (restrictionTriples n x ++ [⟨n, b.plain, numeral k⟩])) :
    Yields (R.objectRestriction inner n e) (.objectCardinality b k e)
      [⟨n, b.plain, numeral k⟩] := by
  have hbounded := yields_bounded (f := .owl .onClass) htells
  have hno := not_hasProperty_value htells (by cases b <;> simp [Bound.plain, valuePredicates])
  unfold objectRestriction
  rw [if_neg (hno _ (by decide)), if_neg (hno _ (by decide)), if_neg (hno _ (by decide)),
    if_neg (hno _ (by decide))]
  exact hbounded.bind_last yields_pure

/-- A bound with a filler is read as a qualified cardinality of an object property. -/
theorem yields_objectQualified {b : Bound} {k : UInt32}
    (htells : R.triples.Tells n
      (restrictionTriples n x ++ [⟨n, b.qualified, numeral k⟩, ⟨n, .owl .onClass, o⟩]))
    (h : Yields (inner o) c ts) :
    Yields (R.objectRestriction inner n e) (.objectQualified b k e c)
      ([⟨n, b.qualified, numeral k⟩, ⟨n, .owl .onClass, o⟩] ++ ts) := by
  have hbounded := yields_bounded_qualified (Or.inl rfl) htells
  have hno := not_hasProperty_value htells
    (by cases b <;> simp [Bound.qualified, valuePredicates])
  unfold objectRestriction
  rw [if_neg (hno _ (by decide)), if_neg (hno _ (by decide)), if_neg (hno _ (by decide)),
    if_neg (hno _ (by decide))]
  exact hbounded.bind h.map

end

/-! ## Restrictions on data properties -/

section

variable {inner : Term → Reading DataRange} {o : Term} {d : DataRange}

/-- A quantifier and its filler are read as a quantified data property. -/
theorem yields_dataValues {q : Quantifier}
    (htells : R.triples.Tells n (restrictionTriples n x ++ [⟨n, q.predicate, o⟩]))
    (h : Yields (inner o) d ts) :
    Yields (R.dataRestriction inner n p) (.dataValues q p d) ([⟨n, q.predicate, o⟩] ++ ts) := by
  have hobject := object?_of_tells htells (q := q.predicate) (o := o) (by cases q <;> decide)
    (by cases q <;> decide) (by simp) (by simp)
  have hvalue : Yields (do
      return ClassExpr.dataValues q p (← inner (← R.required n q.predicate)))
      (.dataValues q p d) ([⟨n, q.predicate, o⟩] ++ ts) :=
    (yields_required hobject).bind h.map
  unfold dataRestriction
  cases q with
  | some =>
    rw [if_pos (htells.hasProperty (o := o) (by simp [Quantifier.predicate]))]
    exact hvalue
  | all =>
    rw [if_neg (not_hasProperty_of_tells htells (by decide) (by decide)
        (by simp [Quantifier.predicate])),
      if_pos (htells.hasProperty (o := o) (by simp [Quantifier.predicate]))]
    exact hvalue

/-- A literal value is read as a restriction to it. -/
theorem yields_dataHasValue {value : Literal}
    (htells : R.triples.Tells n (restrictionTriples n x ++ [⟨n, .owl .hasValue, .literal value⟩])) :
    Yields (R.dataRestriction inner n p) (.dataHasValue p value)
      [⟨n, .owl .hasValue, .literal value⟩] := by
  have hobject := object?_of_tells htells (by decide) (by decide) List.mem_cons_self (by simp)
  unfold dataRestriction
  rw [if_neg (not_hasProperty_of_tells htells (by decide) (by decide) (by simp)),
    if_neg (not_hasProperty_of_tells htells (by decide) (by decide) (by simp)),
    if_pos (htells.hasProperty (o := .literal value) (by simp))]
  exact (yields_required hobject).bind_last yields_literal.map

/-- A bound without filler is read as a cardinality of a data property. -/
theorem yields_dataCardinality {b : Bound} {k : UInt32}
    (htells : R.triples.Tells n (restrictionTriples n x ++ [⟨n, b.plain, numeral k⟩])) :
    Yields (R.dataRestriction inner n p) (.dataCardinality b k p) [⟨n, b.plain, numeral k⟩] := by
  have hbounded := yields_bounded (f := .owl .onDataRange) htells
  have hno := not_hasProperty_value htells (by cases b <;> simp [Bound.plain, valuePredicates])
  unfold dataRestriction
  rw [if_neg (hno _ (by decide)), if_neg (hno _ (by decide)), if_neg (hno _ (by decide))]
  exact hbounded.bind_last yields_pure

/-- A bound with a filler is read as a qualified cardinality of a data property. -/
theorem yields_dataQualified {b : Bound} {k : UInt32}
    (htells : R.triples.Tells n
      (restrictionTriples n x ++ [⟨n, b.qualified, numeral k⟩, ⟨n, .owl .onDataRange, o⟩]))
    (h : Yields (inner o) d ts) :
    Yields (R.dataRestriction inner n p) (.dataQualified b k p d)
      ([⟨n, b.qualified, numeral k⟩, ⟨n, .owl .onDataRange, o⟩] ++ ts) := by
  have hbounded := yields_bounded_qualified (Or.inr rfl) htells
  have hno := not_hasProperty_value htells
    (by cases b <;> simp [Bound.qualified, valuePredicates])
  unfold dataRestriction
  rw [if_neg (hno _ (by decide)), if_neg (hno _ (by decide)), if_neg (hno _ (by decide))]
  exact hbounded.bind h.map

end

/-! ## Writing restrictions -/

/-- From one draft to another the class expression is written: its node is the class it names or a
new blank node, and it reads back from there in a source that can read it. -/
def WritesAs (c : ClassExpr) (d d' : Draft) (n : Node) (readable : Source → Prop) : Prop :=
  ∃ ts, d.Grows d' ts ∧
    ((∃ i, c = .named i ∧ n = .iri i) ∨ d.supply.Makes d'.supply n) ∧
    Recovers d.supply d'.supply (some n) ts readable
      (fun R within => R.classExprIn within (.node n)) c

/-- What reads back in some sources reads back in fewer. -/
theorem WritesAs.anti {d d' : Draft} {readable readable' : Source → Prop}
    (h : WritesAs c d d' n readable) (hfits : ∀ R, readable' R → readable R) :
    WritesAs c d d' n readable' := by
  obtain ⟨ts, hgrows, hnode, hread⟩ := h
  exact ⟨ts, hgrows, hnode, fun R hnil hR => hread R hnil (hfits R hR)⟩

/-- The node of a restriction is the next one, with the triples that every restriction has. -/
theorem encodeRestriction_eq_ok_iff {d d' : Draft} : encodeRestriction x d = .ok (n, d') ↔
    d.supply.head = n ∧ ⟨d.supply.tail, d.triples ++ restrictionTriples d.supply.head x⟩ = d' := by
  have h : encodeRestriction x d = .ok (d.supply.head,
      ⟨d.supply.tail, d.triples ++ [.typing d.supply.head (.owl .Restriction)] ++
        [⟨d.supply.head, .owl .onProperty, .node x⟩]⟩) := rfl
  rw [h, Except.ok.injEq, Prod.mk.injEq, List.append_assoc]
  rfl

/-- A restriction with one triple more is written in this order. -/
theorem encodeRestriction_emit_eq_ok_iff {d d' : Draft} {q : Iri} {o : Term} :
    (do
      let node ← encodeRestriction x
      emit node q o
      return node : Drafting Node) d = .ok (n, d') ↔
    d.supply.head = n ∧ ⟨d.supply.tail,
      d.triples ++ (restrictionTriples d.supply.head x ++ [⟨d.supply.head, q, o⟩])⟩ = d' := by
  simp only [bind_eq_ok_iff, encodeRestriction_eq_ok_iff, emit_eq_ok_iff, pure_eq_ok_iff]
  constructor
  · rintro ⟨_, _, ⟨rfl, rfl⟩, _, _, rfl, rfl, rfl⟩
    exact ⟨rfl, by rw [List.append_assoc]⟩
  · rintro ⟨rfl, rfl⟩
    exact ⟨_, _, ⟨rfl, rfl⟩, (), _, rfl, rfl, by rw [List.append_assoc]⟩

/-- A restriction with two triples more is written in this order. -/
theorem encodeRestriction_emit_emit_eq_ok_iff {d d' : Draft} {q r : Iri} {o v : Term} :
    (do
      let node ← encodeRestriction x
      emit node q o
      emit node r v
      return node : Drafting Node) d = .ok (n, d') ↔
    d.supply.head = n ∧ ⟨d.supply.tail, d.triples ++
      (restrictionTriples d.supply.head x ++ [⟨d.supply.head, q, o⟩, ⟨d.supply.head, r, v⟩])⟩ =
        d' := by
  simp only [bind_eq_ok_iff, encodeRestriction_eq_ok_iff, emit_eq_ok_iff, pure_eq_ok_iff]
  constructor
  · rintro ⟨_, _, ⟨rfl, rfl⟩, _, _, rfl, _, _, rfl, rfl, rfl⟩
    exact ⟨rfl, by simp⟩
  · rintro ⟨rfl, rfl⟩
    exact ⟨_, _, ⟨rfl, rfl⟩, (), _, rfl, (), _, rfl, rfl, by simp⟩

/-- The node of a restriction, written after its filler and its property, reads back if the reader
finds the restriction at the node. -/
theorem recovers_restriction {d d₁ d₂ : Draft} {filler prop : List Triple}
    {readable : Source → Prop} (hfiller : d.Grows d₁ filler) (hprop : d₁.Grows d₂ prop)
    (hown : ∀ t ∈ own, t.subject = d₂.supply.head ∧ t.predicate ∈ encodingPredicates)
    (hread : ∀ R : Source, R.triples.NilEnds → readable R →
      R.triples.Holds d.supply d₁.supply none filler →
      R.triples.Holds d₁.supply d₂.supply none prop →
      R.triples.Tells d₂.supply.head (restrictionTriples d₂.supply.head x ++ own) →
      (∀ within : List Node, (∀ n ∈ within, ¬ d.supply.Makes d₁.supply n) →
        Yields (R.classExprAt (fun y => R.classExprIn within y) (R.dataRangeIn within)
          d₂.supply.head) c (restrictionTriples d₂.supply.head x ++ (prop ++ (own ++ filler)))) ∧
      (∀ t ∈ filler, R.Mute t) ∧ ∀ t ∈ prop, R.Mute t) :
    WritesAs c d ⟨d₂.supply.tail, d₂.triples ++ (restrictionTriples d₂.supply.head x ++ own)⟩
      d₂.supply.head readable := by
  have hall : ∀ t ∈ restrictionTriples d₂.supply.head x ++ own, t.subject = d₂.supply.head := by
    intro t ht
    rcases List.mem_append.1 ht with ht | ht
    · simp only [restrictionTriples, List.mem_cons, List.not_mem_nil, or_false] at ht
      rcases ht with rfl | rfl <;> rfl
    · exact (hown t ht).1
  have hreifies : ∀ t ∈ restrictionTriples d₂.supply.head x ++ own, t.reifies = false := by
    intro t ht
    rcases List.mem_append.1 ht with ht | ht
    · simp only [restrictionTriples, List.mem_cons, List.not_mem_nil, or_false] at ht
      rcases ht with rfl | rfl <;> simp [Triple.reifies]
    · simp [Triple.reifies, (encodingPredicates_are_own _ (hown t ht).2).2.2]
  have hearly := hfiller.append hprop
  refine ⟨_, hearly.node hall hreifies,
    Or.inr (Supply.makes_head_tail.mono hearly.toPrecedes .refl),
    fun R hnil hfits hR => ?_⟩
  obtain ⟨hparts, htells⟩ := hR.node hearly.toCovers hall
  obtain ⟨hyields, hmute, hmute'⟩ := hread R hnil hfits
    (hparts.left hfiller.toCovers hprop.toCovers) (hparts.right hfiller.toCovers (by simp)) htells
  refine ⟨fun within hwithin => ?_, fun t ht => ?_⟩
  · obtain ⟨hnew, hwithin'⟩ := Supply.head_notMem hearly.toPrecedes .refl hwithin
    have htype : Triple.typing d₂.supply.head (.owl .Restriction) ∈ R.triples :=
      htells.mem _ (by simp [restrictionTriples])
    refine yields_classExprIn htype rfl hnew (Yields.congr _ (hyields _ ?_) ?_)
    · intro m hm hmade
      exact hwithin' m hm (hmade.mono .refl hprop.toPrecedes)
    · intro t
      simp only [List.mem_append]
      tauto
  · rcases List.mem_append.1 ht with ht | ht
    · exact (List.mem_append.1 ht).elim (hmute t) (hmute' t)
    · rcases List.mem_append.1 ht with ht | ht
      · simp only [restrictionTriples, List.mem_cons, List.not_mem_nil, or_false] at ht
        rcases ht with rfl | rfl
        · exact mute_typing rfl (by decide)
        · exact mute_of_mem_encodingPredicates (by simp [encodingPredicates])
      · exact mute_of_mem_encodingPredicates (hown t ht).2

/-- A restriction on an object property that was written reads back. -/
theorem recovers_objectRestriction {d d₁ d₂ : Draft} {filler : List Triple}
    (readable : Source → Prop) (hfiller : d.Grows d₁ filler)
    (hproperty : e.encode d₁ = .ok (x, d₂))
    (hown : ∀ t ∈ own, t.subject = d₂.supply.head ∧ t.predicate ∈ encodingPredicates ∧
      t.predicate ≠ .owl .onProperty)
    (hread : ∀ R : Source, R.triples.NilEnds → readable R →
      R.triples.Holds d.supply d₁.supply none filler →
      R.triples.Tells d₂.supply.head (restrictionTriples d₂.supply.head x ++ own) →
      (∀ within : List Node, (∀ n ∈ within, ¬ d.supply.Makes d₁.supply n) →
        Yields (R.objectRestriction (fun y => R.classExprIn within y) d₂.supply.head e) c
          (own ++ filler)) ∧ ∀ t ∈ filler, R.Mute t) :
    WritesAs c d ⟨d₂.supply.tail, d₂.triples ++ (restrictionTriples d₂.supply.head x ++ own)⟩
      d₂.supply.head (fun R => R.KnowsObjectProperty e.base ∧ readable R) := by
  obtain ⟨prop, hprop, -, hreadProp, hsort⟩ := recovers_objectProperty hproperty
  refine recovers_restriction hfiller hprop (fun t ht => ⟨(hown t ht).1, (hown t ht).2.1⟩) ?_
  intro R hnil hfits hR hR' htells
  obtain ⟨hyields, hmute⟩ := hread R hnil hfits.2 hR htells
  obtain ⟨hyields', hmute'⟩ := hreadProp none R hnil trivial hR'
  refine ⟨fun within hwithin => ?_, hmute, hmute'⟩
  exact yields_objectRestriction htells (fun t ht => (hown t ht).2.2)
    (hsort R hR'.except hfits.1) (hyields' [] (by simp)) (hyields within hwithin)

/-- A restriction on a data property that was written reads back. -/
theorem recovers_dataRestriction {d d₁ : Draft} {filler : List Triple}
    (readable : Source → Prop) (hfiller : d.Grows d₁ filler)
    (hown : ∀ t ∈ own, t.subject = d₁.supply.head ∧ t.predicate ∈ encodingPredicates ∧
      t.predicate ≠ .owl .onProperty)
    (hread : ∀ R : Source, R.triples.NilEnds → readable R →
      R.triples.Holds d.supply d₁.supply none filler →
      R.triples.Tells d₁.supply.head (restrictionTriples d₁.supply.head (.iri p) ++ own) →
      (∀ within : List Node, (∀ n ∈ within, ¬ d.supply.Makes d₁.supply n) →
        Yields (R.dataRestriction (R.dataRangeIn within) d₁.supply.head p) c (own ++ filler)) ∧
      ∀ t ∈ filler, R.Mute t) :
    WritesAs c d ⟨d₁.supply.tail,
        d₁.triples ++ (restrictionTriples d₁.supply.head (.iri p) ++ own)⟩
      d₁.supply.head (fun R => R.KnowsDataProperty p ∧ readable R) := by
  refine recovers_restriction hfiller (.refl _)
    (fun t ht => ⟨(hown t ht).1, (hown t ht).2.1⟩) ?_
  intro R hnil hfits hR _ htells
  obtain ⟨hyields, hmute⟩ := hread R hnil hfits.2 hR htells
  refine ⟨fun within hwithin => ?_, hmute, by simp⟩
  exact yields_dataRestriction htells (fun t ht => (hown t ht).2.2) hfits.1
    (hyields within hwithin)

/-! ## Class expressions -/

section ClassExprAt

variable {inner : Term → Reading ClassExpr} {innerData : Term → Reading DataRange} {list o : Term}

/-- A node with a list of operands is read as an intersection or a union. -/
theorem yields_classExprAt_junction {j : Junction} {cs : List ClassExpr}
    (htells : R.triples.Tells n [.typing n (.owl .Class), ⟨n, j.predicate, list⟩])
    (h : Yields (R.operandsOf inner n j.predicate) cs ts) :
    Yields (R.classExprAt inner innerData n) (.junction j cs)
      ([.typing n (.owl .Class)] ++ ts) := by
  have htype := htells.mem _ List.mem_cons_self
  have hproperty := htells.not_hasProperty (p := .owl .onProperty) (by decide)
    (by cases j <;> simp [Junction.predicate])
  unfold classExprAt
  rw [if_neg hproperty]
  refine (yields_noteType htype).bind ?_
  cases j with
  | intersection =>
    have hyes := htells.hasProperty (p := .owl .intersectionOf) (o := list)
      (by simp [Junction.predicate])
    rw [if_pos hyes]
    exact h.map
  | union =>
    have hyes := htells.hasProperty (p := .owl .unionOf) (o := list)
      (by simp [Junction.predicate])
    have hno := htells.not_hasProperty (p := .owl .intersectionOf) (by decide)
      (by simp [Junction.predicate])
    rw [if_neg hno, if_pos hyes]
    exact h.map

/-- A node with a complement is read as the complement of what that reads as. -/
theorem yields_classExprAt_complement
    (htells : R.triples.Tells n [.typing n (.owl .Class), ⟨n, .owl .complementOf, o⟩])
    (h : Yields (inner o) c ts) :
    Yields (R.classExprAt inner innerData n) (.complement c)
      ([.typing n (.owl .Class)] ++ ([⟨n, .owl .complementOf, o⟩] ++ ts)) := by
  have htype := htells.mem _ List.mem_cons_self
  have hobject := htells.object?_eq (p := .owl .complementOf) (o := o) (by decide) (by simp)
    (by simp)
  have hyes := htells.hasProperty (p := .owl .complementOf) (o := o) (by simp)
  unfold classExprAt
  rw [if_neg (htells.not_hasProperty (by decide) (by simp))]
  refine (yields_noteType htype).bind ?_
  rw [if_neg (htells.not_hasProperty (by decide) (by simp)),
    if_neg (htells.not_hasProperty (by decide) (by simp)), if_pos hyes]
  exact (yields_required hobject).bind h.map

/-- An enumeration is what is left when a node has no operands of another kind. -/
theorem yields_classExprAt_oneOf {members : List Node}
    (htells : R.triples.Tells n [.typing n (.owl .Class), ⟨n, .owl .oneOf, list⟩])
    (h : Yields (R.operandsOf individual n (.owl .oneOf)) members ts) :
    Yields (R.classExprAt inner innerData n) (.oneOf members)
      ([.typing n (.owl .Class)] ++ ts) := by
  have htype := htells.mem _ List.mem_cons_self
  unfold classExprAt
  rw [if_neg (htells.not_hasProperty (by decide) (by simp))]
  refine (yields_noteType htype).bind ?_
  rw [if_neg (htells.not_hasProperty (by decide) (by simp)),
    if_neg (htells.not_hasProperty (by decide) (by simp)),
    if_neg (htells.not_hasProperty (by decide) (by simp))]
  exact h.map

end ClassExprAt

/-! ## The constructors of class expressions -/

/-- However the class expression is written, it reads back from its node. -/
def ClassExprReadsBack (c : ClassExpr) : Prop :=
  ∀ ⦃d d' : Draft⦄ ⦃n : Node⦄, c.encode d = .ok (n, d') → WritesAs c d d' n fun R => c.ReadableIn R

/-- However the class expressions are written one by one, they read back. -/
def ClassExprsReadBack (cs : List ClassExpr) : Prop :=
  ∀ ⦃d d' : Draft⦄ ⦃ns : List Term⦄, ClassExpr.encodeAll cs d = .ok (ns, d') →
    ∃ ts, d.Grows d' ts ∧ ns.length = cs.length ∧
      Recovers d.supply d'.supply none ts (fun R => ClassExpr.AllReadableIn R cs)
        (fun R within => ns.mapM fun x => R.classExprIn within x) cs

section Constructors

variable {cs : List ClassExpr} {b : Bound} {k : UInt32} {q : Quantifier} {range : DataRange}

/-- A class is its own node, and nothing is written for it. -/
theorem recovers_class {i : Iri} : ClassExprReadsBack (.named i) := by
  intro d d' n h
  obtain ⟨rfl, rfl⟩ := pure_eq_ok_iff.1 h
  refine ⟨[], .refl _, Or.inl ⟨i, rfl, rfl⟩, fun R _ _ _ => ⟨fun within _ => ?_, by simp⟩⟩
  show Yields (R.classExprIn within (.node (.iri i))) _ _
  rw [classExprIn]
  exact yields_pure

/-- An intersection or a union reads back if its operands do. -/
theorem recovers_classJunction {j : Junction} (hcs : ClassExprsReadBack cs) :
    ClassExprReadsBack (.junction j cs) := by
  intro d d' n h
  rw [ClassExpr.encode] at h
  obtain ⟨_, _, hleast, h⟩ := bind_eq_ok_iff.1 h
  obtain ⟨-, rfl⟩ := atLeast_eq_ok_iff.1 hleast
  obtain ⟨ns, d₁, hns, h⟩ := bind_eq_ok_iff.1 h
  obtain ⟨early, hearly, hlen, hreads⟩ := hcs hns
  have hp : j.predicate ∈ encodingPredicates := by cases j <;> decide
  obtain ⟨hmade, ts, hgrows, hrec⟩ := recovers_operands hearly hreads (by decide) hp h
    fun R within list ts hblank hnew htells hoperands =>
      yields_classExprIn (htells.mem _ List.mem_cons_self) hblank hnew
        (yields_classExprAt_junction htells hoperands)
  exact ⟨ts, hgrows, Or.inr hmade, fun R hnil hfits => hrec R hnil ⟨hlen ▸ hfits.1, hfits.2⟩⟩

/-- A complement reads back if what it is the complement of does. -/
theorem recovers_classComplement (hc : ClassExprReadsBack c) :
    ClassExprReadsBack (.complement c) := by
  intro d d' n h
  rw [ClassExpr.encode] at h
  obtain ⟨m, d₁, hm, h⟩ := bind_eq_ok_iff.1 h
  obtain ⟨early, hearly, -, hread⟩ := hc hm
  obtain ⟨hmade, ts, hgrows, hrec⟩ := recovers_operand hearly
    (fun R hnil hfits hR => hread R hnil hfits hR.except) (by decide) (by decide) h
    fun R within ts hblank hnew htells hoperand =>
      yields_classExprIn (htells.mem _ List.mem_cons_self) hblank hnew
        (yields_classExprAt_complement htells hoperand)
  exact ⟨ts, hgrows, Or.inr hmade, hrec⟩

/-- An enumeration of individuals reads back. -/
theorem recovers_classOneOf {members : List Node} : ClassExprReadsBack (.oneOf members) := by
  intro d d' n h
  rw [ClassExpr.encode] at h
  obtain ⟨_, _, hleast, h⟩ := bind_eq_ok_iff.1 h
  obtain ⟨-, rfl⟩ := atLeast_eq_ok_iff.1 hleast
  have hmembers : Recovers d.supply d.supply none [] (fun _ => True)
      (fun _ _ => (members.map Term.node).mapM individual) members :=
    fun R _ _ _ => ⟨fun _ _ => yields_mapM_map fun _ => yields_individual, by simp⟩
  obtain ⟨hmade, ts, hgrows, hrec⟩ := recovers_operands (.refl d) hmembers (by decide)
    (by decide) h fun R within list ts hblank hnew htells hoperands =>
      yields_classExprIn (htells.mem _ List.mem_cons_self) hblank hnew
        (yields_classExprAt_oneOf htells hoperands)
  refine ⟨ts, hgrows, Or.inr hmade, fun R hnil hfits => hrec R hnil ⟨?_, trivial⟩⟩
  rw [List.length_map]
  exact hfits

/-- A quantified object property reads back if its filler does. -/
theorem recovers_objectValues (hc : ClassExprReadsBack c) :
    ClassExprReadsBack (.objectValues q e c) := by
  intro d d' n h
  rw [ClassExpr.encode] at h
  obtain ⟨m, d₁, hm, h⟩ := bind_eq_ok_iff.1 h
  obtain ⟨filler, hfiller, -, hread⟩ := hc hm
  obtain ⟨x, d₂, hx, h⟩ := bind_eq_ok_iff.1 h
  obtain ⟨rfl, rfl⟩ := encodeRestriction_emit_eq_ok_iff.1 h
  refine recovers_objectRestriction _ hfiller hx (by cases q <;> simp <;> decide) ?_
  intro R hnil hfits hR htells
  obtain ⟨hyields, hmute⟩ := hread R hnil hfits hR.except
  exact ⟨fun within hwithin => yields_objectValues htells (hyields within hwithin), hmute⟩

/-- A qualified cardinality of an object property reads back if its filler does. -/
theorem recovers_objectQualified (hc : ClassExprReadsBack c) :
    ClassExprReadsBack (.objectQualified b k e c) := by
  intro d d' n h
  rw [ClassExpr.encode] at h
  obtain ⟨m, d₁, hm, h⟩ := bind_eq_ok_iff.1 h
  obtain ⟨filler, hfiller, -, hread⟩ := hc hm
  obtain ⟨x, d₂, hx, h⟩ := bind_eq_ok_iff.1 h
  obtain ⟨rfl, rfl⟩ := encodeRestriction_emit_emit_eq_ok_iff.1 h
  refine recovers_objectRestriction _ hfiller hx (by cases b <;> simp <;> decide) ?_
  intro R hnil hfits hR htells
  obtain ⟨hyields, hmute⟩ := hread R hnil hfits hR.except
  exact ⟨fun within hwithin => yields_objectQualified htells (hyields within hwithin), hmute⟩

/-- A restriction to one value of an object property reads back. -/
theorem recovers_objectHasValue {value : Node} : ClassExprReadsBack (.objectHasValue e value) := by
  intro d d' n h
  rw [ClassExpr.encode] at h
  obtain ⟨x, d₂, hx, h⟩ := bind_eq_ok_iff.1 h
  obtain ⟨rfl, rfl⟩ := encodeRestriction_emit_eq_ok_iff.1 h
  refine .anti (recovers_objectRestriction (fun _ => True) (.refl _) hx (by simp; decide) ?_)
    fun R hfits => ⟨hfits, trivial⟩
  exact fun R _ _ _ htells => ⟨fun within _ => yields_objectHasValue htells, by simp⟩

/-- A restriction to the individuals that an object property links to themselves reads back. -/
theorem recovers_objectHasSelf : ClassExprReadsBack (.objectHasSelf e) := by
  intro d d' n h
  rw [ClassExpr.encode] at h
  obtain ⟨x, d₂, hx, h⟩ := bind_eq_ok_iff.1 h
  obtain ⟨rfl, rfl⟩ := encodeRestriction_emit_eq_ok_iff.1 h
  refine .anti (recovers_objectRestriction (fun _ => True) (.refl _) hx (by simp; decide) ?_)
    fun R hfits => ⟨hfits, trivial⟩
  exact fun R _ _ _ htells => ⟨fun within _ => yields_objectHasSelf htells, by simp⟩

/-- A cardinality of an object property reads back. -/
theorem recovers_objectCardinality : ClassExprReadsBack (.objectCardinality b k e) := by
  intro d d' n h
  rw [ClassExpr.encode] at h
  obtain ⟨x, d₂, hx, h⟩ := bind_eq_ok_iff.1 h
  obtain ⟨rfl, rfl⟩ := encodeRestriction_emit_eq_ok_iff.1 h
  refine .anti (recovers_objectRestriction (fun _ => True) (.refl _) hx
    (by cases b <;> simp <;> decide) ?_) fun R hfits => ⟨hfits, trivial⟩
  exact fun R _ _ _ htells => ⟨fun within _ => yields_objectCardinality htells, by simp⟩

/-- A quantified data property reads back, its filler being a data range. -/
theorem recovers_dataValues : ClassExprReadsBack (.dataValues q p range) := by
  intro d d' n h
  rw [ClassExpr.encode] at h
  obtain ⟨m, d₁, hm, h⟩ := bind_eq_ok_iff.1 h
  obtain ⟨filler, hfiller, hread⟩ := recovers_dataRange range hm
  obtain ⟨rfl, rfl⟩ := encodeRestriction_emit_eq_ok_iff.1 h
  refine recovers_dataRestriction _ hfiller (by cases q <;> simp <;> decide) ?_
  intro R hnil hfits hR htells
  obtain ⟨hyields, hmute⟩ := hread R hnil hfits hR.except
  exact ⟨fun within hwithin => yields_dataValues htells (hyields within hwithin), hmute⟩

/-- A qualified cardinality of a data property reads back, its filler being a data range. -/
theorem recovers_dataQualified : ClassExprReadsBack (.dataQualified b k p range) := by
  intro d d' n h
  rw [ClassExpr.encode] at h
  obtain ⟨m, d₁, hm, h⟩ := bind_eq_ok_iff.1 h
  obtain ⟨filler, hfiller, hread⟩ := recovers_dataRange range hm
  obtain ⟨rfl, rfl⟩ := encodeRestriction_emit_emit_eq_ok_iff.1 h
  refine recovers_dataRestriction _ hfiller (by cases b <;> simp <;> decide) ?_
  intro R hnil hfits hR htells
  obtain ⟨hyields, hmute⟩ := hread R hnil hfits hR.except
  exact ⟨fun within hwithin => yields_dataQualified htells (hyields within hwithin), hmute⟩

/-- A restriction to one value of a data property reads back. -/
theorem recovers_dataHasValue {value : Literal} : ClassExprReadsBack (.dataHasValue p value) := by
  intro d d' n h
  rw [ClassExpr.encode] at h
  obtain ⟨rfl, rfl⟩ := encodeRestriction_emit_eq_ok_iff.1 h
  refine .anti (recovers_dataRestriction (fun _ => True) (.refl d) (by simp; decide) ?_)
    fun R hfits => ⟨hfits, trivial⟩
  exact fun R _ _ _ htells => ⟨fun within _ => yields_dataHasValue htells, by simp⟩

/-- A cardinality of a data property reads back. -/
theorem recovers_dataCardinality : ClassExprReadsBack (.dataCardinality b k p) := by
  intro d d' n h
  rw [ClassExpr.encode] at h
  obtain ⟨rfl, rfl⟩ := encodeRestriction_emit_eq_ok_iff.1 h
  refine .anti (recovers_dataRestriction (fun _ => True) (.refl d)
    (by cases b <;> simp <;> decide) ?_) fun R hfits => ⟨hfits, trivial⟩
  exact fun R _ _ _ htells => ⟨fun within _ => yields_dataCardinality htells, by simp⟩

/-- No class expressions read back from no nodes. -/
theorem recovers_classExprs_nil : ClassExprsReadBack [] := by
  intro d d' ns h
  obtain ⟨rfl, rfl⟩ := pure_eq_ok_iff.1 h
  exact ⟨[], (.refl _), rfl, fun R _ _ _ => ⟨fun _ _ => yields_pure, by simp⟩⟩

/-- Class expressions read back one by one if the first does and the others do. -/
theorem recovers_classExprs_cons (hc : ClassExprReadsBack c) (hcs : ClassExprsReadBack cs) :
    ClassExprsReadBack (c :: cs) := by
  intro d d' ns h
  rw [ClassExpr.encodeAll] at h
  obtain ⟨n, d₁, hn, h⟩ := bind_eq_ok_iff.1 h
  obtain ⟨ns, d₂, hns, h⟩ := bind_eq_ok_iff.1 h
  obtain ⟨rfl, rfl⟩ := pure_eq_ok_iff.1 h
  obtain ⟨ts, hts, -, hread⟩ := hc hn
  obtain ⟨us, hus, hlen, hreads⟩ := hcs hns
  exact ⟨ts ++ us, hts.append hus, by simp [hlen], hread.mapM_cons hts hus hreads⟩

end Constructors

/-! ## All class expressions -/

mutual

/-- A class expression that was written reads back from its node. -/
theorem recovers_classExpr : ∀ c : ClassExpr, ClassExprReadsBack c
  | .named _ => recovers_class
  | .junction _ cs => recovers_classJunction (recovers_classExprs cs)
  | .complement c => recovers_classComplement (recovers_classExpr c)
  | .oneOf _ => recovers_classOneOf
  | .objectValues _ _ c => recovers_objectValues (recovers_classExpr c)
  | .objectHasValue _ _ => recovers_objectHasValue
  | .objectHasSelf _ => recovers_objectHasSelf
  | .objectCardinality _ _ _ => recovers_objectCardinality
  | .objectQualified _ _ _ c => recovers_objectQualified (recovers_classExpr c)
  | .dataValues _ _ _ => recovers_dataValues
  | .dataHasValue _ _ => recovers_dataHasValue
  | .dataCardinality _ _ _ => recovers_dataCardinality
  | .dataQualified _ _ _ _ => recovers_dataQualified

/-- Class expressions that were written one by one read back. -/
theorem recovers_classExprs : ∀ cs : List ClassExpr, ClassExprsReadBack cs
  | [] => recovers_classExprs_nil
  | c :: cs => recovers_classExprs_cons (recovers_classExpr c) (recovers_classExprs cs)

end

end Source

end Ontograph
