import Ontograph.Proofs.Mapping.Soundness

/-!
# What an axiom that is read relies on

Most of an axiom is read off the triples that it is read from.  The rest is decided by other
triples: the sorts of its properties, whether a node is an individual or part of an encoding, and
whether an equivalence defines a datatype.  `Axiom.Decided` lists these decisions for each axiom
without a word about where it is read from, and `Source.decided_of_mem_scan` says that a source has
taken them for every axiom that is read from it.
-/

namespace Ontograph

open Reading

/-- The category of the properties of a sort. -/
def PropertySort.category : PropertySort → Category
  | .object => .objectProperty
  | .data => .dataProperty

/-- The sort of an object property expression: the inverse of a property is an object property. -/
def Source.sortOfExpr? (R : Source) : ObjectPropertyExpr → Option Category
  | .named p => R.sortOf? (.node (.iri p))
  | .inverse _ => some .objectProperty

mutual

/-- The properties in the class expression are of the sorts that it uses them as. -/
def ClassExpr.Sorted (R : Source) : ClassExpr → Prop
  | .named _ | .oneOf _ => True
  | .junction _ operands => AllSorted R operands
  | .complement operand => Sorted R operand
  | .objectValues _ e filler | .objectQualified _ _ e filler =>
    R.sortOfExpr? e = some .objectProperty ∧ Sorted R filler
  | .objectHasValue e _ | .objectHasSelf e | .objectCardinality _ _ e =>
    R.sortOfExpr? e = some .objectProperty
  | .dataValues _ p _ | .dataHasValue p _ | .dataCardinality _ _ p | .dataQualified _ _ p _ =>
    R.sortOf? (.node (.iri p)) = some .dataProperty

/-- The properties in the operands are of the sorts that these use them as. -/
def ClassExpr.AllSorted (R : Source) : List ClassExpr → Prop
  | [] => True
  | c :: cs => Sorted R c ∧ AllSorted R cs

end

/-- Operands are sorted if each of them is. -/
theorem ClassExpr.allSorted_iff {R : Source} {cs : List ClassExpr} :
    AllSorted R cs ↔ ∀ c ∈ cs, Sorted R c := by
  induction cs with
  | nil => simp [AllSorted]
  | cons c cs ih => simp [AllSorted, ih]

/-- What is decided about the class expression comes down to one more decision, given those that the
source has taken. -/
def ClassExpr.SortedBy (R : Source) (decision : Source → Prop) (c : ClassExpr) : Prop :=
  (∀ Q : Source, c.Sorted Q → decision Q) ∧ (decision R → c.Sorted R)

/-- The first of some disjoint properties has a sort, or a triple says that it and one other
property are disjoint. -/
def Source.SortsFirst (R : Source) (ps : List Iri) : Prop :=
  ∃ p ps', ps = p :: ps' ∧ (R.sortOf? (.node (.iri p)) ≠ none ∨
    ∃ q, ps' = [q] ∧ ⟨p, .owl .propertyDisjointWith, .node (.iri q)⟩ ∈ R.triples)

/-- The source decides as the axiom has it.  Of a disjointness or an equivalence of properties only
the first one with a sort counts. -/
def Axiom.Decided (R : Source) : Axiom → Prop
  | .declaration _ | .subPropertyChainOf _ _ | .inverseObjectProperties _ _
  | .negativePropertyAssertion _ _ _ | .sameIndividual _ | .differentIndividuals _ => True
  | .subClassOf c d => c.Sorted R ∧ d.Sorted R
  | .equivalentClasses cs => (∀ c ∈ cs, c.Sorted R) ∧ ∀ i cs', cs = .named i :: cs' →
    (R.isA .datatype (.node (.iri i)) && !R.isA .owlClass (.node (.iri i))) = false
  | .disjointClasses cs | .disjointUnion _ cs => ∀ c ∈ cs, c.Sorted R
  | .subObjectPropertyOf e f =>
    (R.sortOfExpr? e <|> R.sortOfExpr? f) = some .objectProperty
  | .subDataPropertyOf p q =>
    R.sortOfEither? (.node (.iri p)) (.node (.iri q)) = some .dataProperty
  | .subAnnotationPropertyOf p q =>
    R.sortOfEither? (.node (.iri p)) (.node (.iri q)) = some .annotationProperty
  | .equivalentProperties sort ps =>
    ps.findSome? (fun p => R.sortOf? (.node (.iri p))) = some sort.category
  | .disjointProperties sort ps =>
    ps.findSome? (fun p => R.sortOf? (.node (.iri p))) = some sort.category ∧ R.SortsFirst ps
  | .propertyDomain sort p c =>
    R.sortOf? (.node (.iri p)) = some sort.category ∧ c.Sorted R
  | .objectPropertyRange p c =>
    R.sortOf? (.node (.iri p)) = some .objectProperty ∧ c.Sorted R
  | .dataPropertyRange p _ => R.sortOf? (.node (.iri p)) = some .dataProperty
  | .annotationPropertyDomain p _ | .annotationPropertyRange p _ =>
    R.sortOf? (.node (.iri p)) = some .annotationProperty
  | .objectCharacteristic c p =>
    c = .functional → R.isA .objectProperty (.node (.iri p)) = true
  | .functionalDataProperty p =>
    R.isA .objectProperty (.node (.iri p)) = false ∧ R.isA .dataProperty (.node (.iri p)) = true
  | .datatypeDefinition d _ =>
    (R.isA .datatype (.node (.iri d)) && !R.isA .owlClass (.node (.iri d))) = true
  | .classAssertion c a => R.isStructural a = false ∧ c.Sorted R
  | .propertyAssertion p a o => R.isStructural a = false ∧
    R.isA (if o.isLiteral then .dataProperty else .objectProperty) (.node (.iri p)) = true
  | .annotationAssertion p a o => R.isStructural a = false ∧
    R.isA (if o.isLiteral then .dataProperty else .objectProperty) (.node (.iri p)) = false ∧
    R.isA .annotationProperty (.node (.iri p)) = true
  | .hasKey c ops dps => c.Sorted R ∧
    (∀ p ∈ ops, R.isA .objectProperty (.node (.iri p)) = true) ∧
    ∀ p ∈ dps, R.isA .objectProperty (.node (.iri p)) = false ∧
      R.isA .dataProperty (.node (.iri p)) = true

namespace Source

variable {R : Source} {n s root : Node} {p c : Iri} {x o : Term} {t : Triple}

/-! ## Class expressions -/

/-- A term that is read as an object property expression has the sort of the expression. -/
theorem sorted_objectProperty :
    Sound R.encoding (R.objectProperty x) fun e => R.sortOf? x = R.sortOfExpr? e := by
  obtain (i | b) | l := x
  · exact sound_pure rfl
  · refine (sound_required (by decide)).bind fun base hbase => sound_named.map fun i _ => ?_
    have hinverse : R.triples.hasProperty (.blank b) (.owl .inverseOf) = true :=
      TripleSet.hasProperty_iff.2 ⟨base, TripleSet.mem_of_object? hbase⟩
    simp [sortOf?, sortOfExpr?, hinverse]
  · exact sound_failure

/-- Operands that are read are sorted, if each one that is read is. -/
theorem sorted_operandsOf {inner : Term → Reading ClassExpr} (hp : p ∈ describingPredicates)
    (h : ∀ x, Sound R.encoding (inner x) (ClassExpr.Sorted R)) :
    Sound R.encoding (R.operandsOf inner n p) (ClassExpr.AllSorted R) := by
  refine (sound_required hp).bind fun _ _ => sound_list.bind fun _ _ =>
    (sound_mapM h _).mono fun cs hcs => ClassExpr.allSorted_iff.2 fun c hc => ?_
  obtain ⟨_, -, hsorted⟩ := exists_of_forall₂ hcs hc
  exact hsorted

/-- A restriction on an object property is sorted as that property is decided. -/
theorem sorted_objectRestriction {inner : Term → Reading ClassExpr} {e : ObjectPropertyExpr}
    (h : ∀ x, Sound R.encoding (inner x) (ClassExpr.Sorted R)) :
    Sound R.encoding (R.objectRestriction inner n e)
      (ClassExpr.SortedBy R fun Q => Q.sortOfExpr? e = some .objectProperty) := by
  refine sound_ite (fun _ => ?_) fun _ => sound_ite (fun _ => ?_) fun _ => sound_ite (fun _ => ?_)
    fun _ => sound_ite (fun _ => ?_) fun _ => ?_
  · exact (sound_required (by decide)).bind fun o _ => (h o).map fun _ hc =>
      ⟨fun _ hsorted => hsorted.1, fun he => ⟨he, hc⟩⟩
  · exact (sound_required (by decide)).bind fun o _ => (h o).map fun _ hc =>
      ⟨fun _ hsorted => hsorted.1, fun he => ⟨he, hc⟩⟩
  · exact (sound_required (by decide)).bind fun _ _ => sound_individual.map fun _ _ =>
      ⟨fun _ he => he, fun he => he⟩
  · exact (sound_required (by decide)).map fun _ _ => ⟨fun _ he => he, fun he => he⟩
  · refine (sound_bounded (by decide)).bind fun r _ => ?_
    obtain ⟨_, _, _ | filler⟩ := r
    · exact sound_pure ⟨fun _ he => he, fun he => he⟩
    · exact (h filler).map fun _ hc => ⟨fun _ hsorted => hsorted.1, fun he => ⟨he, hc⟩⟩

/-- A restriction on a data property is sorted as that property is decided. -/
theorem sorted_dataRestriction {inner : Term → Reading DataRange}
    (h : ∀ x, Sound R.encoding (inner x) fun _ => True) :
    Sound R.encoding (R.dataRestriction inner n p)
      (ClassExpr.SortedBy R fun Q => Q.sortOf? (.node (.iri p)) = some .dataProperty) := by
  refine sound_ite (fun _ => ?_) fun _ => sound_ite (fun _ => ?_) fun _ => sound_ite (fun _ => ?_)
    fun _ => ?_
  · exact (sound_required (by decide)).bind fun o _ => (h o).map fun _ _ =>
      ⟨fun _ hp => hp, fun hp => hp⟩
  · exact (sound_required (by decide)).bind fun o _ => (h o).map fun _ _ =>
      ⟨fun _ hp => hp, fun hp => hp⟩
  · exact (sound_required (by decide)).bind fun _ _ => sound_literal.map fun _ _ =>
      ⟨fun _ hp => hp, fun hp => hp⟩
  · refine (sound_bounded (by decide)).bind fun r _ => ?_
    obtain ⟨_, _, _ | filler⟩ := r
    · exact sound_pure ⟨fun _ hp => hp, fun hp => hp⟩
    · exact (h filler).map fun _ _ => ⟨fun _ hp => hp, fun hp => hp⟩

/-- What is read at a node is sorted, if what is read inside is. -/
theorem sorted_classExprAt {inner : Term → Reading ClassExpr} {innerData : Term → Reading DataRange}
    (h : ∀ x, Sound R.encoding (inner x) (ClassExpr.Sorted R))
    (hdata : ∀ x, Sound R.encoding (innerData x) fun _ => True) :
    Sound R.encoding (R.classExprAt inner innerData n) (ClassExpr.Sorted R) := by
  refine sound_ite (fun _ => ?_) fun _ => (sound_noteType (by decide)).bind fun _ _ => ?_
  · refine (sound_noteType (by decide)).bind fun _ _ =>
      (sound_required (by decide)).bind fun q _ => ?_
    split
    case h_1 hsort =>
      exact sorted_objectProperty.bind fun e he =>
        (sorted_objectRestriction h).mono fun c hc => hc.2 (he.symm.trans hsort)
    case h_2 hsort =>
      refine sound_named.bind fun p hp => ?_
      subst hp
      exact (sorted_dataRestriction hdata).mono fun c hc => hc.2 hsort
    case h_3 => exact sound_failure
  · refine sound_ite (fun _ => ?_) fun _ => sound_ite (fun _ => ?_) fun _ => sound_ite
      (fun _ => ?_) fun _ => ?_
    · exact (sorted_operandsOf (by decide) h).map fun _ hcs => hcs
    · exact (sorted_operandsOf (by decide) h).map fun _ hcs => hcs
    · exact (sound_required (by decide)).bind fun o _ => (h o).map fun _ hc => hc
    · exact (sound_operandsOf (by decide) fun _ => sound_individual.mono fun _ _ => trivial).map
        fun _ _ => trivial

/-- A class expression that is read, inside of whatever nodes, is sorted. -/
theorem sorted_classExprIn (within : List Node) (x : Term) :
    Sound R.encoding (R.classExprIn within x) (ClassExpr.Sorted R) := by
  induction within, x using Source.classExprIn.induct R with
  | case1 within c =>
    rw [Source.classExprIn]
    exact sound_pure trivial
  | case2 within b hnew _ ih =>
    rw [Source.classExprIn, dif_pos hnew]
    exact sorted_classExprAt ih fun x => (sound_dataRangeIn _ x).mono fun _ _ => trivial
  | case3 within b hold =>
    rw [Source.classExprIn, dif_neg hold]
    exact sound_failure
  | case4 within l =>
    rw [Source.classExprIn]
    exact sound_failure

/-- A class expression that is read is sorted. -/
theorem sorted_classExpr : Sound R.encoding (R.classExpr x) (ClassExpr.Sorted R) :=
  sorted_classExprIn [] x

/-- Class expressions that are read one by one. -/
theorem sorted_mapM {xs : List Term} :
    Sound R.encoding (xs.mapM R.classExpr) fun cs => ∀ c ∈ cs, c.Sorted R := by
  refine (sound_mapM (fun _ => sorted_classExpr) xs).mono fun cs hcs c hc => ?_
  obtain ⟨_, -, hsorted⟩ := exists_of_forall₂ hcs hc
  exact hsorted

/-! ## Axioms -/

/-- An assertion is read as the source decides. -/
theorem decided_assertion : Sound R.encoding (R.assertion s p o) (Axiom.Decided R) := by
  refine sound_ite (fun _ => sound_failure) fun hs => ?_
  rw [Bool.not_eq_true] at hs
  refine sound_ite (fun hp => sound_pure ⟨hs, hp⟩) fun hp => ?_
  rw [Bool.not_eq_true] at hp
  exact sound_ite (fun hann => sound_pure ⟨hs, hp, hann⟩) fun _ => sound_failure

/-- A typing of an entity is read as the source decides. -/
theorem decided_of_entityTyping? {i : Iri} {ax : Axiom} (h : R.entityTyping? i c = some ax) :
    ax.Decided R := by
  unfold entityTyping? at h
  split at h
  case h_7 =>
    split at h
    case isTrue hobject =>
      cases h
      exact fun _ => hobject
    case isFalse hobject =>
      split at h
      case isTrue hdata =>
        cases h
        exact ⟨Bool.eq_false_iff.2 hobject, hdata⟩
      case isFalse => cases h
  case h_14 => cases h
  all_goals
    cases h
    first | exact trivial | exact nofun

/-- A node that groups members is read as the source decides. -/
theorem decided_group : Sound R.encoding (R.group root c) (Axiom.Decided R) := by
  have hproperties : ∀ (sort : PropertySort) (items : List Term),
      items.head?.bind R.sortOf? = some sort.category → Sound R.encoding
        (items.mapM named >>= fun ps => pure (Axiom.disjointProperties sort ps))
        (Axiom.Decided R) := by
    intro sort items hsort
    refine (sound_mapM (fun _ => sound_named) items).map fun ps hps => ?_
    obtain rfl := eq_map_of_forall₂ hps
    cases ps with
    | nil => cases hsort
    | cons p ps =>
      have hp : R.sortOf? (.node (.iri p)) = some sort.category := hsort
      refine ⟨?_, p, ps, rfl, Or.inl (hp ▸ Option.some_ne_none _)⟩
      rw [List.findSome?_cons, hp]
  refine sound_ite_bind (P := fun _ => True)
    (fun _ => (sound_required (by decide)).mono fun _ _ => trivial)
    (fun _ => (sound_required (by decide)).mono fun _ _ => trivial)
    fun head _ => sound_list.bind fun items _ => ?_
  split
  case h_1 => exact sorted_mapM.map fun _ hcs => hcs
  case h_2 => exact (sound_mapM (fun _ => sound_individual) items).map fun _ _ => trivial
  case h_3 =>
    split
    case h_1 hsort => exact hproperties .object items hsort
    case h_2 hsort => exact hproperties .data items hsort
    case h_3 => exact sound_failure

/-- A negative assertion is read as the source decides. -/
theorem decided_negativeAssertion :
    Sound R.encoding (R.negativeAssertion root) (Axiom.Decided R) := by
  refine (sound_required (by decide)).bind fun _ _ => (sound_required (by decide)).bind fun _ _ =>
    sound_individual.bind fun _ _ => sound_named.bind fun _ _ => sound_ite (fun _ => ?_) fun _ => ?_
  · exact (sound_required (by decide)).bind fun _ _ => sound_individual.map fun _ _ => trivial
  · exact (sound_required (by decide)).bind fun _ _ => sound_literal.map fun _ _ => trivial

/-- A typing is read as the source decides. -/
theorem decided_typing : Sound R.encoding (R.typing s o) fun r => r.1.Decided R := by
  unfold typing
  split
  case h_1 => exact sound_failure
  case h_2 b =>
    refine sound_ite (fun _ => sound_failure) fun hs => sorted_classExpr.map fun c hc => ?_
    exact ⟨Bool.eq_false_iff.2 hs, hc⟩
  case h_3 c =>
    split
    case h_1 => exact decided_negativeAssertion.map fun _ h => h
    case h_2 => exact decided_group.map fun _ h => h
    case h_3 => exact decided_group.map fun _ h => h
    case h_4 => exact decided_group.map fun _ h => h
    case h_5 =>
      split
      case h_1 ax hax =>
        obtain ⟨i, -, hax⟩ := Option.bind_eq_some_iff.1 hax
        exact sound_pure (decided_of_entityTyping? hax)
      case h_2 =>
        refine sound_ite (fun h => sound_pure ?_) fun _ => sound_failure
        rw [Bool.and_eq_true, Bool.not_eq_true'] at h
        exact ⟨h.2, trivial⟩

/-- A pair of properties, one below the other, is read as the source decides. -/
theorem decided_subProperty : Sound R.encoding (R.subProperty s o) (Axiom.Decided R) := by
  unfold subProperty
  split
  case h_1 hsort =>
    refine sorted_objectProperty.bind fun e he => sorted_objectProperty.map fun f hf => ?_
    rw [sortOfEither?, he, hf] at hsort
    exact hsort
  case h_2 hsort =>
    refine sound_named.bind fun p hp => sound_named.map fun q hq => ?_
    cases hp
    cases hq
    exact hsort
  case h_3 hsort =>
    refine sound_named.bind fun p hp => sound_named.map fun q hq => ?_
    cases hp
    cases hq
    exact hsort
  case h_4 => exact sound_failure

/-- The sort of a pair of properties is that of the first one with a sort. -/
theorem sortOfEither?_eq_findSome? {q : Iri} :
    R.sortOfEither? (.node (.iri p)) (.node (.iri q)) =
      [p, q].findSome? fun p => R.sortOf? (.node (.iri p)) := by
  unfold sortOfEither?
  cases h : R.sortOf? (.node (.iri p)) <;> cases h' : R.sortOf? (.node (.iri q)) <;> simp [h, h']

/-- The sort of two properties is that of the first one with a sort. -/
theorem decided_pairSort : Sound R.encoding (R.pairSort s o) fun sort =>
    R.sortOfEither? (.node s) o = some sort.category := by
  unfold pairSort
  split
  case h_1 hsort => exact sound_pure hsort
  case h_2 hsort => exact sound_pure hsort
  case h_3 => exact sound_failure

/-- Two properties are read with the sort of the first one that has one. -/
theorem decided_pair {g : PropertySort → List Iri → Axiom}
    (hg : ∀ sort p q, s = .iri p → o = .node (.iri q) →
      [p, q].findSome? (fun p => R.sortOf? (.node (.iri p))) = some sort.category →
      (g sort [p, q]).Decided R) :
    Sound R.encoding (do return g (← R.pairSort s o) [← named s, ← named o])
      (Axiom.Decided R) := by
  refine decided_pairSort.bind fun sort hsort => sound_named.bind fun p hp =>
    sound_named.map fun q hq => ?_
  cases hp
  cases hq
  rw [sortOfEither?_eq_findSome?] at hsort
  exact hg sort p q rfl rfl hsort

/-- A domain is read as the source decides. -/
theorem decided_domain : Sound R.encoding (R.domain s o) (Axiom.Decided R) := by
  unfold domain
  split
  case h_1 hsort =>
    refine sound_named.bind fun p hp => sorted_classExpr.map fun c hc => ?_
    cases hp
    exact ⟨hsort, hc⟩
  case h_2 hsort =>
    refine sound_named.bind fun p hp => sorted_classExpr.map fun c hc => ?_
    cases hp
    exact ⟨hsort, hc⟩
  case h_3 hsort =>
    refine sound_named.bind fun p hp => sound_named.map fun _ _ => ?_
    cases hp
    exact hsort
  case h_4 => exact sound_failure

/-- A range is read as the source decides. -/
theorem decided_range : Sound R.encoding (R.range s o) (Axiom.Decided R) := by
  unfold range
  split
  case h_1 hsort =>
    refine sound_named.bind fun p hp => sorted_classExpr.map fun c hc => ?_
    cases hp
    exact ⟨hsort, hc⟩
  case h_2 hsort =>
    refine sound_named.bind fun p hp => sound_dataRange.map fun _ _ => ?_
    cases hp
    exact hsort
  case h_3 hsort =>
    refine sound_named.bind fun p hp => sound_named.map fun _ _ => ?_
    cases hp
    exact hsort
  case h_4 => exact sound_failure

/-- An equivalence is read as the source decides. -/
theorem decided_equivalence : Sound R.encoding (R.equivalence s o) (Axiom.Decided R) := by
  refine sound_ite (fun h => ?_) fun h => ?_
  · refine sound_named.bind fun d hd => sound_dataRange.map fun _ _ => ?_
    cases hd
    exact h
  · refine (sorted_classExpr.and sound_classExpr).bind fun c hc =>
      sorted_classExpr.map fun d hd => ⟨?_, ?_⟩
    · exact List.forall_mem_cons.2 ⟨hc.1, List.forall_mem_singleton.2 hd⟩
    · rintro i cs ⟨⟩
      cases hc.2 i rfl
      exact Bool.eq_false_iff.2 h

/-- A key is read as the source decides. -/
theorem decided_key : Sound R.encoding (R.key s o) (Axiom.Decided R) := by
  unfold key
  refine sound_list.bind fun items _ => ?_
  rw [List.partition_eq_filter_filter]
  refine sound_ite (fun _ => sound_failure) fun hall => sorted_classExpr.bind fun c hc =>
    (sound_mapM (fun _ => sound_named) _).bind fun ops hops =>
      (sound_mapM (fun _ => sound_named) _).map fun dps hdps => ⟨hc, fun p hp => ?_, fun p hp => ?_⟩
  · have hmem := eq_map_of_forall₂ hops ▸ List.mem_map_of_mem hp
    exact (List.mem_filter.1 hmem).2
  · have hmem := eq_map_of_forall₂ hdps ▸ List.mem_map_of_mem hp
    obtain ⟨hp, hobject⟩ := List.mem_filter.1 hmem
    refine ⟨by simpa using hobject, ?_⟩
    rw [Bool.not_eq_true', Bool.not_eq_false, List.all_eq_true] at hall
    exact hall _ hmem

/-- The source of a triple decides as the axiom of the triple has it. -/
theorem decided_statement (ht : t ∈ R.triples) :
    Sound R.encoding (R.statement t) fun r => r.1.Decided R := by
  obtain ⟨s, p, o⟩ := t
  have hplain : ∀ {read : Reading Axiom}, Sound R.encoding read (Axiom.Decided R) →
      Sound R.encoding (statement.plain read) fun r => r.1.Decided R := fun h => h.map fun _ h => h
  refine sound_ite (fun _ => sound_failure) fun _ => ?_
  dsimp only at ht ⊢
  split
  case h_1 => exact decided_typing
  case h_2 =>
    exact hplain (sorted_classExpr.bind fun c hc => sorted_classExpr.map fun d hd => ⟨hc, hd⟩)
  case h_3 => exact hplain decided_equivalence
  case h_4 =>
    refine hplain (sorted_classExpr.bind fun c hc => sorted_classExpr.map fun d hd => ?_)
    exact List.forall_mem_cons.2 ⟨hc, List.forall_mem_singleton.2 hd⟩
  case h_5 =>
    exact hplain (sound_named.bind fun _ _ => sound_list.bind fun _ _ => sorted_mapM.map
      fun _ hcs => hcs)
  case h_6 => exact hplain decided_subProperty
  case h_7 =>
    exact hplain (sound_list.bind fun items _ => (sound_mapM (fun _ => sound_objectProperty)
      items).bind fun _ _ => sound_named.map fun _ _ => trivial)
  case h_8 => exact hplain (decided_pair fun _ _ _ _ _ h => h)
  case h_9 =>
    refine hplain (decided_pair ?_)
    rintro sort p q rfl rfl hsort
    exact ⟨hsort, p, [q], rfl, Or.inr ⟨q, rfl, ht⟩⟩
  case h_10 => exact hplain decided_domain
  case h_11 => exact hplain decided_range
  case h_12 => exact hplain (sound_named.bind fun _ _ => sound_named.map fun _ _ => trivial)
  case h_13 => exact hplain (sound_individual.map fun _ _ => trivial)
  case h_14 => exact hplain (sound_individual.map fun _ _ => trivial)
  case h_15 => exact hplain decided_key
  case h_16 => exact sound_ite (fun _ => hplain decided_assertion) fun _ => sound_failure

/-- **Decisions.** A source decides as each axiom that is read from it has it. -/
theorem decided_of_mem_scan {a : AnnotatedAxiom} {f : Footprint} (h : (a, f) ∈ R.scan) :
    a.base.Decided R := by
  obtain ⟨_, _, hrun⟩ := exists_run_of_mem_scan h
  exact (decided_statement (mem_axiomsAt_iff.1 (mem_scan_iff.1 h)).mem [] _ _ hrun).1

end Source

end Ontograph
