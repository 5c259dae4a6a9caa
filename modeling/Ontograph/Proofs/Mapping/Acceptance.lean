import Ontograph.Proofs.Mapping.Lists
import Ontograph.Proofs.Owl.Nesting

/-!
# Which axioms are written

The steps of writing refuse an axiom in many places, each of which looks at one list.  Whether a
step succeeds does not depend on the names left or on what earlier steps answered, so it is one
condition (`Drafting.Accepts`), and the conditions of the steps of an axiom add up to
`Axiom.WellFormed` (`AnnotatedAxiom.exists_encode_iff`).
-/

namespace Ontograph

open Drafting

namespace Drafting

/-! ## When a step succeeds -/

section Accepts

variable {α β : Type} {m : Drafting α} {f : α → Drafting β} {P Q : Prop} {s : Node} {p c : Iri}
  {o : Term}

/-- The step succeeds, from any draft, exactly on the condition. -/
def Accepts (m : Drafting α) (P : Prop) : Prop := ∀ d, (∃ r, m d = .ok r) ↔ P

/-- The condition on which a step succeeds may be put in other words. -/
theorem Accepts.congr (h : Accepts m P) (hPQ : P ↔ Q) : Accepts m Q := fun d => (h d).trans hPQ

/-- A step that only answers succeeds. -/
theorem accepts_pure {a : α} : Accepts (pure a) True := fun d => iff_of_true ⟨(a, d), rfl⟩ trivial

/-- Two steps succeed if both do; the second one must not depend on what the first one answers. -/
theorem Accepts.bind (hm : Accepts m P) (hf : ∀ a, Accepts (f a) Q) :
    Accepts (m >>= f) (P ∧ Q) := by
  intro d
  constructor
  · rintro ⟨⟨b, d₂⟩, hrun⟩
    obtain ⟨a, d₁, hfirst, hrest⟩ := bind_eq_ok_iff.1 hrun
    exact ⟨(hm d).1 ⟨_, hfirst⟩, (hf a d₁).1 ⟨_, hrest⟩⟩
  · rintro ⟨hP, hQ⟩
    obtain ⟨⟨a, d₁⟩, hfirst⟩ := (hm d).2 hP
    obtain ⟨⟨b, d₂⟩, hrest⟩ := (hf a d₁).2 hQ
    exact ⟨_, bind_eq_ok_iff.2 ⟨a, d₁, hfirst, hrest⟩⟩

/-- A step that always succeeds, and then another one. -/
theorem Accepts.then (hm : Accepts m True) (hf : ∀ a, Accepts (f a) Q) : Accepts (m >>= f) Q :=
  (hm.bind hf).congr (iff_of_eq (true_and Q))

/-- A refusal does not succeed. -/
theorem accepts_refuse {x : OperandDefect} : Accepts (refuse x : Drafting α) False :=
  fun _ => iff_of_false (fun ⟨_, h⟩ => nomatch h) id

/-- A demand for operands succeeds if there are enough of them. -/
theorem accepts_atLeast {least found : Nat} : Accepts (atLeast least found) (least ≤ found) := by
  intro d
  constructor
  · rintro ⟨⟨u, d'⟩, hrun⟩
    exact (atLeast_eq_ok_iff.1 hrun).1
  · exact fun h => ⟨((), d), atLeast_eq_ok_iff.2 ⟨h, rfl⟩⟩

/-- Writing a triple succeeds. -/
theorem accepts_emit : Accepts (emit s p o) True := fun _ => iff_of_true ⟨_, rfl⟩ trivial

/-- Taking a new blank node succeeds. -/
theorem accepts_fresh : Accepts fresh True := fun _ => iff_of_true ⟨_, rfl⟩ trivial

/-- A triple is written and an answer given. -/
theorem accepts_emit_pure {a : α} : Accepts (do emit s p o; return a) True :=
  accepts_emit.then fun _ => accepts_pure

/-- Taking a new blank node and typing it succeeds. -/
theorem accepts_freshOf : Accepts (freshOf c) True := accepts_fresh.then fun _ => accepts_emit_pure

end Accepts

/-! ## Expressions -/

variable {s : Node} {p c : Iri} {o : Term}

/-- Writing a list succeeds, however long it is. -/
theorem accepts_encodeList (xs : List Term) : Accepts (encodeList xs) True := by
  induction xs with
  | nil => exact accepts_pure
  | cons x xs ih =>
    refine ih.then fun _ => accepts_fresh.then fun _ => ?_
    exact accepts_emit.then fun _ => accepts_emit_pure

/-- Writing an object property expression succeeds. -/
theorem accepts_objectProperty (e : ObjectPropertyExpr) : Accepts e.encode True := by
  cases e with
  | named p => exact accepts_pure
  | inverse p => exact accepts_fresh.then fun _ => accepts_emit_pure

/-- Writing object property expressions succeeds. -/
theorem accepts_objectProperties (es : List ObjectPropertyExpr) :
    Accepts (ObjectPropertyExpr.encodeAll es) True := by
  induction es with
  | nil => exact accepts_pure
  | cons e es ih => exact (accepts_objectProperty e).then fun _ => ih.then fun _ => accepts_pure

/-- Writing facets succeeds. -/
theorem accepts_facets (fs : List (Iri × Literal)) : Accepts (encodeFacets fs) True := by
  induction fs with
  | nil => exact accepts_pure
  | cons f fs ih =>
    refine accepts_fresh.then fun _ => accepts_emit.then fun _ => ?_
    exact ih.then fun _ => accepts_pure

/-- The node of a restriction, with one more triple or two. -/
theorem accepts_restriction : Accepts (encodeRestriction s) True :=
  accepts_freshOf.then fun _ => accepts_emit_pure

/-- A node with operands is written from any operands. -/
theorem accepts_operands (xs : List Term) : Accepts
    (do
      let node ← freshOf c
      let list ← encodeList xs
      emit node p list
      return node) True :=
  accepts_freshOf.then fun _ => (accepts_encodeList xs).then fun _ => accepts_emit_pure

/-- A list with at least one element is not empty. -/
theorem one_le_length_iff {α : Type} {xs : List α} : 1 ≤ xs.length ↔ xs ≠ [] :=
  List.length_pos_iff

-- The conditions of the steps are compared with these by simplification.
attribute [local simp] Expr.HasItems Expr.inner Axiom.HasOperands Axiom.exprs one_le_length_iff

/-- What holds at the top of an expression and inside of it holds at every depth. -/
theorem accepts_filled {m : Drafting Node} {e : Expr} {P : Prop} (h : Accepts m P)
    (hP : P ↔ e.HasItems ∧ ∀ e' ∈ e.inner, e'.Filled) : Accepts m e.Filled :=
  h.congr (hP.trans Expr.filled_iff.symm)

mutual

/-- Writing a data range succeeds if no list in it is empty. -/
theorem accepts_dataRange : ∀ e : DataRange, Accepts e.encode (Expr.rng e).Filled
  | .named d => by
    rw [DataRange.encode]
    exact accepts_filled accepts_pure (by simp)
  | .junction j es => by
    rw [DataRange.encode]
    have h := (accepts_dataRanges es).bind fun xs =>
      accepts_operands (c := .rdfs .Datatype) (p := j.predicate) xs
    exact accepts_filled (accepts_atLeast.bind fun _ => h) (by simp)
  | .complement e => by
    rw [DataRange.encode]
    have h (n : Node) : Accepts (do
        let node ← freshOf (.rdfs .Datatype)
        emit node (.owl .datatypeComplementOf) n
        return node) True := accepts_freshOf.then fun _ => accepts_emit_pure
    exact accepts_filled ((accepts_dataRange e).bind h) (by simp)
  | .oneOf values => by
    rw [DataRange.encode]
    exact accepts_filled (accepts_atLeast.bind fun _ => accepts_operands _) (by simp)
  | .restriction d facets => by
    rw [DataRange.encode]
    refine accepts_filled (accepts_atLeast.bind (Q := True) fun _ => ?_) ?_
    · refine accepts_freshOf.then fun _ => accepts_emit.then fun _ => ?_
      refine (accepts_facets facets).then fun _ => ?_
      exact (accepts_encodeList _).then fun _ => accepts_emit_pure
    · simp

/-- Writing data ranges succeeds if no list in them is empty. -/
theorem accepts_dataRanges : ∀ es : List DataRange,
    Accepts (DataRange.encodeAll es) (∀ e ∈ es, (Expr.rng e).Filled)
  | [] => by
    rw [DataRange.encodeAll]
    exact accepts_pure.congr (by simp)
  | e :: es => by
    rw [DataRange.encodeAll]
    have h (n : Node) := (accepts_dataRanges es).bind fun ns => accepts_pure (a := .node n :: ns)
    exact ((accepts_dataRange e).bind h).congr (by simp)

end

/-- A restriction on a property, without a filler or with one that was written. -/
theorem accepts_restrictionWith {n : Node} {q : Iri} {v : Term} : Accepts (do
      let node ← encodeRestriction n
      emit node q v
      return node) True :=
  accepts_restriction.then fun _ => accepts_emit_pure

/-- Writing the two triples of a qualified restriction succeeds. -/
theorem accepts_qualifiedRestriction {n : Node} {q r : Iri} {v o : Term} : Accepts (do
      let node ← encodeRestriction n
      emit node q v
      emit node r o
      return node) True :=
  accepts_restriction.then fun _ => accepts_emit.then fun _ => accepts_emit_pure

mutual

/-- Writing a class expression succeeds if no list in it is empty. -/
theorem accepts_classExpr : ∀ c : ClassExpr, Accepts c.encode (Expr.cls c).Filled
  | .named c => by
    rw [ClassExpr.encode]
    exact accepts_filled accepts_pure (by simp)
  | .junction j cs => by
    rw [ClassExpr.encode]
    have h := (accepts_classExprs cs).bind fun xs =>
      accepts_operands (c := .owl .Class) (p := j.predicate) xs
    exact accepts_filled (accepts_atLeast.bind fun _ => h) (by simp)
  | .complement c => by
    rw [ClassExpr.encode]
    have h (n : Node) : Accepts (do
        let node ← freshOf (.owl .Class)
        emit node (.owl .complementOf) n
        return node) True := accepts_freshOf.then fun _ => accepts_emit_pure
    exact accepts_filled ((accepts_classExpr c).bind h) (by simp)
  | .oneOf members => by
    rw [ClassExpr.encode]
    exact accepts_filled (accepts_atLeast.bind fun _ => accepts_operands _) (by simp)
  | .objectValues q p c => by
    rw [ClassExpr.encode]
    refine accepts_filled ((accepts_classExpr c).bind fun _ =>
      (accepts_objectProperty p).then fun _ => accepts_restrictionWith) ?_
    simp
  | .objectHasValue p value => by
    rw [ClassExpr.encode]
    refine accepts_filled ((accepts_objectProperty p).then fun _ => accepts_restrictionWith) ?_
    simp
  | .objectHasSelf p => by
    rw [ClassExpr.encode]
    refine accepts_filled ((accepts_objectProperty p).then fun _ => accepts_restrictionWith) ?_
    simp
  | .objectCardinality b n p => by
    rw [ClassExpr.encode]
    refine accepts_filled ((accepts_objectProperty p).then fun _ => accepts_restrictionWith) ?_
    simp
  | .objectQualified b n p c => by
    rw [ClassExpr.encode]
    refine accepts_filled ((accepts_classExpr c).bind fun _ =>
      (accepts_objectProperty p).then fun _ => accepts_qualifiedRestriction) ?_
    simp
  | .dataValues q p d => by
    rw [ClassExpr.encode]
    exact accepts_filled ((accepts_dataRange d).bind fun _ => accepts_restrictionWith) (by simp)
  | .dataHasValue p value => by
    rw [ClassExpr.encode]
    exact accepts_filled (accepts_restrictionWith) (by simp)
  | .dataCardinality b n p => by
    rw [ClassExpr.encode]
    exact accepts_filled (accepts_restrictionWith) (by simp)
  | .dataQualified b n p d => by
    rw [ClassExpr.encode]
    refine accepts_filled ((accepts_dataRange d).bind fun _ => accepts_qualifiedRestriction) ?_
    simp

/-- Writing class expressions succeeds if no list in them is empty. -/
theorem accepts_classExprs : ∀ cs : List ClassExpr,
    Accepts (ClassExpr.encodeAll cs) (∀ c ∈ cs, (Expr.cls c).Filled)
  | [] => by
    rw [ClassExpr.encodeAll]
    exact accepts_pure.congr (by simp)
  | c :: cs => by
    rw [ClassExpr.encodeAll]
    have h (n : Node) := (accepts_classExprs cs).bind fun ns => accepts_pure (a := .node n :: ns)
    exact ((accepts_classExpr c).bind h).congr (by simp)

end

/-! ## Axioms -/

/-- Writing an axiom of one triple succeeds. -/
theorem accepts_encodePlain : Accepts (encodePlain s p o) True := accepts_emit_pure

/-- Writing the node of an axiom succeeds. -/
theorem accepts_encodeRoot : Accepts (encodeRoot c) True :=
  accepts_freshOf.then fun _ => accepts_pure

/-- Writing a node that groups members succeeds. -/
theorem accepts_encodeGroup (xs : List Term) : Accepts (encodeGroup c xs) True :=
  accepts_encodeRoot.then fun _ => (accepts_encodeList xs).then fun _ => accepts_emit_pure

/-- A group of members that are no expressions. -/
theorem accepts_memberGroup {least found : Nat} {xs : List Term} : Accepts (do
      atLeast least found
      encodeGroup c xs) (least ≤ found) :=
  (accepts_atLeast.bind fun _ => accepts_encodeGroup xs).congr (and_iff_left trivial)

variable {ax : Axiom} {P : Prop}

/-- An axiom is written if it has its operands and its expressions are filled. -/
theorem accepts_wellFormed {m : Drafting Anchor} (h : Accepts m P)
    (hP : P ↔ ax.HasOperands ∧ ∀ e ∈ ax.exprs, e.Filled) : Accepts m ax.WellFormed :=
  h.congr (hP.trans ⟨fun h => ⟨h.1, h.2⟩, fun h => ⟨h.operands, h.filled⟩⟩)

/-- An axiom of one triple without expressions is always written, and it is well-formed. -/
theorem accepts_single (hax : ax.HasOperands ∧ ∀ e ∈ ax.exprs, e.Filled) :
    Accepts (encodePlain s p o) ax.WellFormed :=
  accepts_wellFormed accepts_encodePlain (iff_of_true trivial hax)

/-- Writing an axiom about two class expressions succeeds if no list in either is empty. -/
theorem accepts_pair (a b : ClassExpr) : Accepts (do
      let n ← a.encode
      let m ← b.encode
      encodePlain n p m) ((Expr.cls a).Filled ∧ (Expr.cls b).Filled ∧ True) :=
  (accepts_classExpr a).bind fun _ => (accepts_classExpr b).bind fun _ => accepts_encodePlain

/-- An equivalence of classes is written if it is well-formed: there are two of them. -/
theorem accepts_equivalentClasses (cs : List ClassExpr) :
    Accepts (Axiom.equivalentClasses cs).encode (Axiom.equivalentClasses cs).WellFormed := by
  rcases cs with _ | ⟨a, _ | ⟨b, _ | ⟨_, _⟩⟩⟩
  · exact accepts_wellFormed accepts_refuse (by simp)
  · exact accepts_wellFormed accepts_refuse (by simp)
  · exact accepts_wellFormed (accepts_pair a b) (by simp)
  · exact accepts_wellFormed accepts_refuse (by simp)

/-- A disjointness of classes is written if it is well-formed: there are two of them or more. -/
theorem accepts_disjointClasses (cs : List ClassExpr) :
    Accepts (Axiom.disjointClasses cs).encode (Axiom.disjointClasses cs).WellFormed := by
  have hmany : Accepts (atLeast 2 cs.length) (2 ≤ cs.length) := accepts_atLeast
  have hgroup := hmany.bind fun _ =>
    (accepts_classExprs cs).bind (accepts_encodeGroup (c := .owl .AllDisjointClasses))
  have hwell : Accepts _ (Axiom.disjointClasses cs).WellFormed := accepts_wellFormed hgroup
    (by simp)
  rcases cs with _ | ⟨a, _ | ⟨b, _ | ⟨_, _⟩⟩⟩
  · exact hwell
  · exact hwell
  · exact accepts_wellFormed (accepts_pair a b) (by simp)
  · exact hwell

/-- A key is written if it is well-formed: it has a property. -/
theorem accepts_hasKey (c : ClassExpr) (ops dps : List Iri) :
    Accepts (Axiom.hasKey c ops dps).encode (Axiom.hasKey c ops dps).WellFormed := by
  have hwritten (xs : List Term) : Accepts (do
      let n ← c.encode
      let list ← encodeList xs
      encodePlain n (.owl .hasKey) list) ((Expr.cls c).Filled ∧ True) :=
    (accepts_classExpr c).bind fun _ => (accepts_encodeList xs).then fun _ => accepts_encodePlain
  delta Axiom.encode
  dsimp only
  split
  case isTrue hempty =>
    refine accepts_wellFormed (P := False) (fun _ => iff_of_false (fun ⟨_, h⟩ => nomatch h) id) ?_
    have hnone : ops = [] ∧ dps = [] := by simpa using hempty
    simp [hnone]
  case isFalse hsome =>
    have hlength : 1 ≤ (ops ++ dps).length := one_le_length_iff.2 (by simpa using hsome)
    refine accepts_wellFormed (hwritten _) ?_
    simpa using fun _ : (Expr.cls c).Filled => hlength

/-- An axiom is written if it is well-formed. -/
theorem accepts_encode (ax : Axiom) : Accepts ax.encode ax.WellFormed := by
  cases ax with
  | declaration e => exact accepts_single (by simp)
  | subClassOf sub super =>
    exact accepts_wellFormed (accepts_pair sub super) (by simp)
  | equivalentClasses cs => exact accepts_equivalentClasses cs
  | disjointClasses cs => exact accepts_disjointClasses cs
  | disjointUnion c parts =>
    refine accepts_wellFormed (accepts_atLeast.bind fun _ => (accepts_classExprs parts).bind
      fun _ => (accepts_encodeList _).then fun _ => accepts_encodePlain) ?_
    simp
  | subObjectPropertyOf sub super =>
    refine accepts_wellFormed ((accepts_objectProperty sub).then fun _ =>
      (accepts_objectProperty super).then fun _ => accepts_encodePlain) ?_
    simp
  | subPropertyChainOf chain super =>
    refine accepts_wellFormed (accepts_atLeast.bind fun _ => (accepts_objectProperties chain).then
      fun _ => (accepts_encodeList _).then fun _ => accepts_encodePlain) ?_
    simp
  | subDataPropertyOf sub super => exact accepts_single (by simp)
  | equivalentProperties sort ps =>
    rcases ps with _ | ⟨p, _ | ⟨q, _ | ⟨_, _⟩⟩⟩
    · exact accepts_wellFormed accepts_refuse (by simp)
    · exact accepts_wellFormed accepts_refuse (by simp)
    · exact accepts_single (by simp)
    · exact accepts_wellFormed accepts_refuse (by simp)
  | disjointProperties sort ps =>
    rcases ps with _ | ⟨p, _ | ⟨q, _ | ⟨_, _⟩⟩⟩
    · exact accepts_wellFormed accepts_memberGroup (by simp)
    · exact accepts_wellFormed accepts_memberGroup (by simp)
    · exact accepts_single (by simp)
    · exact accepts_wellFormed accepts_memberGroup (by simp)
  | propertyDomain sort p domain =>
    refine accepts_wellFormed ((accepts_classExpr domain).bind fun _ => accepts_encodePlain) ?_
    simp
  | objectPropertyRange p range =>
    exact accepts_wellFormed ((accepts_classExpr range).bind fun _ => accepts_encodePlain) (by simp)
  | dataPropertyRange p range =>
    exact accepts_wellFormed ((accepts_dataRange range).bind fun _ => accepts_encodePlain) (by simp)
  | inverseObjectProperties p q => exact accepts_single (by simp)
  | objectCharacteristic c p => exact accepts_single (by simp)
  | functionalDataProperty p => exact accepts_single (by simp)
  | datatypeDefinition d range =>
    exact accepts_wellFormed ((accepts_dataRange range).bind fun _ => accepts_encodePlain) (by simp)
  | classAssertion c a =>
    exact accepts_wellFormed ((accepts_classExpr c).bind fun _ => accepts_encodePlain) (by simp)
  | propertyAssertion p source target =>
    exact accepts_single (by simp)
  | negativePropertyAssertion p source target =>
    refine accepts_wellFormed (P := True) ?_ (by simp)
    refine accepts_encodeRoot.then fun _ => accepts_emit.then fun _ => ?_
    exact accepts_emit.then fun _ => accepts_emit_pure
  | sameIndividual as =>
    rcases as with _ | ⟨a, _ | ⟨b, _ | ⟨_, _⟩⟩⟩
    · exact accepts_wellFormed accepts_refuse (by simp)
    · exact accepts_wellFormed accepts_refuse (by simp)
    · exact accepts_single (by simp)
    · exact accepts_wellFormed accepts_refuse (by simp)
  | differentIndividuals as =>
    rcases as with _ | ⟨a, _ | ⟨b, _ | ⟨_, _⟩⟩⟩
    · exact accepts_wellFormed accepts_memberGroup (by simp)
    · exact accepts_wellFormed accepts_memberGroup (by simp)
    · exact accepts_single (by simp)
    · exact accepts_wellFormed accepts_memberGroup (by simp)
  | hasKey c ops dps => exact accepts_hasKey c ops dps
  | annotationAssertion p subject value =>
    exact accepts_single (by simp)
  | subAnnotationPropertyOf sub super =>
    exact accepts_single (by simp)
  | annotationPropertyDomain p domain =>
    exact accepts_single (by simp)
  | annotationPropertyRange p range =>
    exact accepts_single (by simp)

/-- Remarks are written on any node. -/
theorem accepts_encodeRemarks (rs : List Remark) : Accepts (encodeRemarks s rs) True := by
  induction rs with
  | nil => exact accepts_pure
  | cons r rs ih => exact accepts_emit.then fun _ => ih

/-- Writing remarks on a triple succeeds, however many there are. -/
theorem accepts_encodeReified {t : Triple} (rs : List Remark) :
    Accepts (encodeReified t rs) True := by
  refine accepts_freshOf.then fun _ => accepts_emit.then fun _ => accepts_emit.then fun _ => ?_
  exact accepts_emit.then fun _ => accepts_encodeRemarks rs

/-- Remarks do not decide whether an axiom is written. -/
theorem accepts_draft (a : AnnotatedAxiom) : Accepts a.draft a.base.WellFormed := by
  refine ((accepts_encode a.base).bind (Q := True) fun anchor => ?_).congr (and_iff_left trivial)
  split
  case isTrue => exact (accepts_encodeRemarks a.remarks).then fun _ => accepts_pure
  case isFalse =>
    split
    case isTrue => exact (accepts_encodeReified a.remarks).then fun _ => accepts_pure
    case isFalse => exact accepts_pure

end Drafting

/-- An axiom is written, with any names, exactly if it is well formed. -/
theorem AnnotatedAxiom.exists_encode_iff (a : AnnotatedAxiom) (s : Supply) :
    (∃ f s', a.encode s = .ok (f, s')) ↔ a.base.WellFormed := by
  rw [← accepts_draft a { supply := s }]
  unfold encode
  constructor
  · rintro ⟨f, s', h⟩
    split at h
    case h_1 main d hdraft => exact ⟨_, hdraft⟩
    case h_2 => cases h
  · rintro ⟨⟨main, d⟩, hdraft⟩
    rw [hdraft]
    exact ⟨_, _, rfl⟩

end Ontograph
