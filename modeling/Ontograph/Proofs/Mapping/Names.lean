import Ontograph.Proofs.Mapping.ClassExpressions
import Ontograph.Proofs.Mapping.RoundTrip

/-!
# The names of new nodes

What is written for an axiom depends on the supply of names in the names only.  Two runs of one
step are compared by the rules of a small program logic (`Drafting.Alike`), and its result for
axioms is `AnnotatedAxiom.exists_encode_fits`: with any other names the axiom is written too, and
its main triple has the same terms but for blank nodes.  The main triple also tells what hangs from
it: if it mentions no new node, only remarks on a node that stands for it can have been written
with it (`AnnotatedAxiom.mem_triples_iff_of_encode`).
-/

namespace Ontograph

/-! ## Terms up to names -/

/-- The nodes are the same, or both are blank. -/
def Node.Fits (n m : Node) : Prop := n = m ∨ n.isBlank = true ∧ m.isBlank = true

/-- The terms are the same, or both are blank nodes. -/
def Term.Fits (x y : Term) : Prop := x = y ∨ x.isBlank = true ∧ y.isBlank = true

/-- The triples have the same terms, but for blank nodes. -/
structure Triple.Fits (t u : Triple) : Prop where
  subject : t.subject.Fits u.subject
  predicate : t.predicate = u.predicate
  object : t.object.Fits u.object

/-- The main triples fit, and remarks belong to the subjects of both or of none. -/
structure Anchor.Fits (x y : Anchor) : Prop where
  main : x.main.Fits y.main
  rooted : x.rooted = y.rooted

/-- A node fits itself. -/
theorem Node.Fits.refl (n : Node) : n.Fits n := Or.inl rfl

/-- A term fits itself. -/
theorem Term.Fits.refl (x : Term) : x.Fits x := Or.inl rfl

/-- Nodes that fit do so as terms. -/
theorem Node.Fits.term {n m : Node} (h : n.Fits m) : (Term.node n).Fits (.node m) :=
  h.imp_left (congrArg Term.node)

open Drafting

namespace Drafting

/-! ## Two runs of one step -/

section Alike

variable {α β γ δ : Type} {m : Drafting α} {m' : Drafting β} {P : α → β → Prop}
  {Q : γ → δ → Prop} {a : α} {b : β} {f : α → Drafting γ} {f' : β → Drafting δ}
  {s s' : Node} {p p' c : Iri} {o o' : Term}

/-- Where the first step succeeds, the second one does from any draft, and their answers are
related. -/
def Alike (m : Drafting α) (m' : Drafting β) (P : α → β → Prop) : Prop :=
  ∀ d a d₁, m d = .ok (a, d₁) → ∀ e, ∃ b e₁, m' e = .ok (b, e₁) ∧ P a b

/-- Two answers that are related are alike as steps. -/
theorem alike_pure (h : P a b) : Alike (pure a) (pure b) P := by
  intro d _ d₁ hrun e
  obtain ⟨rfl, rfl⟩ := pure_eq_ok_iff.1 hrun
  exact ⟨b, e, rfl, h⟩

/-- Steps that go on alike from answers that are related are alike. -/
theorem Alike.bind (hm : Alike m m' P) (hf : ∀ a b, P a b → Alike (f a) (f' b) Q) :
    Alike (m >>= f) (m' >>= f') Q := by
  intro d c d₂ hrun e
  obtain ⟨a, d₁, hfirst, hrest⟩ := bind_eq_ok_iff.1 hrun
  obtain ⟨b, e₁, hfirst', hab⟩ := hm d a d₁ hfirst e
  obtain ⟨x, e₂, hrest', hcx⟩ := hf a b hab d₁ c d₂ hrest e₁
  exact ⟨x, e₂, bind_eq_ok_iff.2 ⟨b, e₁, hfirst', hrest'⟩, hcx⟩

/-- A refusal is like any step, as it never succeeds. -/
theorem alike_refuse {x : OperandDefect} : Alike (refuse x : Drafting α) m' P := by
  intro d a d₁ hrun
  cases hrun

/-- Steps chosen by one test are alike if its branches are. -/
theorem alike_ite {q : Prop} [Decidable q] {n : Drafting α} {n' : Drafting β}
    (h : q → Alike m m' P) (h' : ¬ q → Alike n n' P) :
    Alike (if q then m else n) (if q then m' else n') P := by
  split
  case isTrue hq => exact h hq
  case isFalse hq => exact h' hq

/-- A demand for operands is the same from any draft. -/
theorem alike_atLeast (least found : Nat) :
    Alike (atLeast least found) (atLeast least found) fun _ _ => True :=
  alike_ite (fun _ => alike_refuse) fun _ => alike_pure trivial

/-- Writing one triple is like writing another one. -/
theorem alike_emit : Alike (emit s p o) (emit s' p' o') fun _ _ => True :=
  fun _ _ _ _ _ => ⟨_, _, rfl, trivial⟩

/-- A triple is written and an answer given. -/
theorem alike_emit_pure (h : P a b) :
    Alike (do emit s p o; return a) (do emit s' p' o'; return b) P :=
  alike_emit.bind fun _ _ _ => alike_pure h

/-- New nodes fit each other. -/
theorem alike_fresh : Alike fresh fresh Node.Fits := by
  intro d n d₁ hrun e
  obtain ⟨rfl, rfl⟩ := fresh_eq_ok_iff.1 hrun
  exact ⟨_, _, rfl, Or.inr ⟨rfl, rfl⟩⟩

/-- New nodes that are typed fit each other. -/
theorem alike_freshOf : Alike (freshOf c) (freshOf c) Node.Fits :=
  alike_fresh.bind fun _ _ h => alike_emit_pure h

end Alike

variable {s s' : Node} {p : Iri} {o o' : Term} {xs ys : List Term}

/-! ## Lists and expressions -/

/-- Only the number of items decides what the head of a list is. -/
theorem alike_encodeList (h : xs.length = ys.length) :
    Alike (encodeList xs) (encodeList ys) Term.Fits := by
  induction xs generalizing ys with
  | nil =>
    obtain rfl := List.length_eq_zero_iff.1 h.symm
    exact alike_pure (.refl _)
  | cons x xs ih =>
    cases ys with
    | nil => cases h
    | cons y ys =>
      refine (ih (Nat.succ.inj h)).bind fun _ _ _ => ?_
      refine alike_fresh.bind fun _ _ hcell => ?_
      refine alike_emit.bind fun _ _ _ => ?_
      exact alike_emit_pure hcell.term

/-- An object property expression gets nodes that fit, from whatever names. -/
theorem alike_objectProperty (e : ObjectPropertyExpr) : Alike e.encode e.encode Node.Fits := by
  cases e with
  | named p => exact alike_pure (.refl _)
  | inverse p => exact alike_fresh.bind fun _ _ h => alike_emit_pure h

/-- Object property expressions get as many nodes, from whatever names. -/
theorem alike_objectProperties (es : List ObjectPropertyExpr) :
    Alike (ObjectPropertyExpr.encodeAll es) (ObjectPropertyExpr.encodeAll es)
      fun xs ys => xs.length = ys.length := by
  induction es with
  | nil => exact alike_pure rfl
  | cons e es ih =>
    refine (alike_objectProperty e).bind fun _ _ _ => ?_
    exact ih.bind fun _ _ h => alike_pure (congrArg Nat.succ h)

/-- Facets get as many nodes, from whatever names. -/
theorem alike_facets (fs : List (Iri × Literal)) :
    Alike (encodeFacets fs) (encodeFacets fs) fun xs ys => xs.length = ys.length := by
  induction fs with
  | nil => exact alike_pure rfl
  | cons f fs ih =>
    refine alike_fresh.bind fun _ _ _ => alike_emit.bind fun _ _ _ => ?_
    exact ih.bind fun _ _ h => alike_pure (congrArg Nat.succ h)

/-- Restrictions get nodes that fit, from whatever names. -/
theorem alike_restriction : Alike (encodeRestriction s) (encodeRestriction s') Node.Fits :=
  alike_freshOf.bind fun _ _ h => alike_emit_pure h

/-- A node with operands: the node is taken, its list written, and the two linked. -/
theorem alike_operands {c : Iri} (h : xs.length = ys.length) :
    Alike
      (do
        let node ← freshOf c
        let list ← encodeList xs
        emit node p list
        return node)
      (do
        let node ← freshOf c
        let list ← encodeList ys
        emit node p list
        return node)
      Node.Fits := by
  refine alike_freshOf.bind fun _ _ hnode => ?_
  exact (alike_encodeList h).bind fun _ _ _ => alike_emit_pure hnode

mutual

/-- A data range gets nodes that fit, from whatever names. -/
theorem alike_dataRange : ∀ e : DataRange, Alike e.encode e.encode Node.Fits
  | .named d => by
    rw [DataRange.encode]
    exact alike_pure (.refl _)
  | .junction j es => by
    rw [DataRange.encode]
    refine (alike_atLeast _ _).bind fun _ _ _ => ?_
    exact (alike_dataRanges es).bind fun _ _ h => alike_operands h
  | .complement e => by
    rw [DataRange.encode]
    refine (alike_dataRange e).bind fun _ _ _ => ?_
    exact alike_freshOf.bind fun _ _ h => alike_emit_pure h
  | .oneOf values => by
    rw [DataRange.encode]
    exact (alike_atLeast _ _).bind fun _ _ _ => alike_operands rfl
  | .restriction d facets => by
    rw [DataRange.encode]
    refine (alike_atLeast _ _).bind fun _ _ _ => ?_
    refine alike_freshOf.bind fun _ _ hnode => alike_emit.bind fun _ _ _ => ?_
    refine (alike_facets facets).bind fun _ _ h => ?_
    exact (alike_encodeList h).bind fun _ _ _ => alike_emit_pure hnode

/-- Data ranges get as many nodes, from whatever names. -/
theorem alike_dataRanges : ∀ es : List DataRange,
    Alike (DataRange.encodeAll es) (DataRange.encodeAll es) fun xs ys => xs.length = ys.length
  | [] => by
    rw [DataRange.encodeAll]
    exact alike_pure rfl
  | e :: es => by
    rw [DataRange.encodeAll]
    refine (alike_dataRange e).bind fun _ _ _ => ?_
    exact (alike_dataRanges es).bind fun _ _ h => alike_pure (congrArg Nat.succ h)

end

mutual

/-- A class expression gets nodes that fit, from whatever names. -/
theorem alike_classExpr : ∀ c : ClassExpr, Alike c.encode c.encode Node.Fits
  | .named c => by
    rw [ClassExpr.encode]
    exact alike_pure (.refl _)
  | .junction j cs => by
    rw [ClassExpr.encode]
    refine (alike_atLeast _ _).bind fun _ _ _ => ?_
    exact (alike_classExprs cs).bind fun _ _ h => alike_operands h
  | .complement c => by
    rw [ClassExpr.encode]
    refine (alike_classExpr c).bind fun _ _ _ => ?_
    exact alike_freshOf.bind fun _ _ h => alike_emit_pure h
  | .oneOf members => by
    rw [ClassExpr.encode]
    exact (alike_atLeast _ _).bind fun _ _ _ => alike_operands rfl
  | .objectValues q p c => by
    rw [ClassExpr.encode]
    refine (alike_classExpr c).bind fun _ _ _ => (alike_objectProperty p).bind fun _ _ _ => ?_
    exact alike_restriction.bind fun _ _ h => alike_emit_pure h
  | .objectHasValue p value => by
    rw [ClassExpr.encode]
    refine (alike_objectProperty p).bind fun _ _ _ => ?_
    exact alike_restriction.bind fun _ _ h => alike_emit_pure h
  | .objectHasSelf p => by
    rw [ClassExpr.encode]
    refine (alike_objectProperty p).bind fun _ _ _ => ?_
    exact alike_restriction.bind fun _ _ h => alike_emit_pure h
  | .objectCardinality b n p => by
    rw [ClassExpr.encode]
    refine (alike_objectProperty p).bind fun _ _ _ => ?_
    exact alike_restriction.bind fun _ _ h => alike_emit_pure h
  | .objectQualified b n p c => by
    rw [ClassExpr.encode]
    refine (alike_classExpr c).bind fun _ _ _ => (alike_objectProperty p).bind fun _ _ _ => ?_
    refine alike_restriction.bind fun _ _ h => ?_
    exact alike_emit.bind fun _ _ _ => alike_emit_pure h
  | .dataValues q p d => by
    rw [ClassExpr.encode]
    refine (alike_dataRange d).bind fun _ _ _ => ?_
    exact alike_restriction.bind fun _ _ h => alike_emit_pure h
  | .dataHasValue p value => by
    rw [ClassExpr.encode]
    exact alike_restriction.bind fun _ _ h => alike_emit_pure h
  | .dataCardinality b n p => by
    rw [ClassExpr.encode]
    exact alike_restriction.bind fun _ _ h => alike_emit_pure h
  | .dataQualified b n p d => by
    rw [ClassExpr.encode]
    refine (alike_dataRange d).bind fun _ _ _ => ?_
    refine alike_restriction.bind fun _ _ h => ?_
    exact alike_emit.bind fun _ _ _ => alike_emit_pure h

/-- Class expressions get as many nodes, from whatever names. -/
theorem alike_classExprs : ∀ cs : List ClassExpr,
    Alike (ClassExpr.encodeAll cs) (ClassExpr.encodeAll cs) fun xs ys => xs.length = ys.length
  | [] => by
    rw [ClassExpr.encodeAll]
    exact alike_pure rfl
  | c :: cs => by
    rw [ClassExpr.encodeAll]
    refine (alike_classExpr c).bind fun _ _ _ => ?_
    exact (alike_classExprs cs).bind fun _ _ h => alike_pure (congrArg Nat.succ h)

end

/-! ## Axioms -/

/-- Axioms of one triple have main triples that fit if their terms do. -/
theorem alike_encodePlain (hs : s.Fits s') (ho : o.Fits o') :
    Alike (encodePlain s p o) (encodePlain s' p o') Anchor.Fits :=
  alike_emit_pure ⟨⟨hs, rfl, ho⟩, rfl⟩

/-- The nodes of axioms fit, as their main triples do. -/
theorem alike_encodeRoot {c : Iri} :
    Alike (encodeRoot c) (encodeRoot c) fun r r' => r.1.Fits r'.1 ∧ r.2.Fits r'.2 :=
  alike_freshOf.bind fun _ _ h => alike_pure ⟨h, ⟨h, rfl, .refl _⟩, rfl⟩

/-- Groups of as many members have main triples that fit. -/
theorem alike_encodeGroup {c : Iri} (h : xs.length = ys.length) :
    Alike (encodeGroup c xs) (encodeGroup c ys) Anchor.Fits := by
  refine alike_encodeRoot.bind fun _ _ hroot => ?_
  exact (alike_encodeList h).bind fun _ _ _ => alike_emit_pure hroot.2

/-- An equivalence of classes gets main triples that fit, from whatever names. -/
theorem alike_equivalentClasses (cs : List ClassExpr) :
    Alike (Axiom.equivalentClasses cs).encode (Axiom.equivalentClasses cs).encode
      Anchor.Fits := by
  rcases cs with _ | ⟨c, _ | ⟨d, _ | ⟨_, _⟩⟩⟩
  · exact alike_refuse
  · exact alike_refuse
  · refine (alike_classExpr c).bind fun _ _ hc => ?_
    exact (alike_classExpr d).bind fun _ _ hd => alike_encodePlain hc hd.term
  · exact alike_refuse

/-- A disjointness of classes gets main triples that fit, from whatever names. -/
theorem alike_disjointClasses (cs : List ClassExpr) :
    Alike (Axiom.disjointClasses cs).encode (Axiom.disjointClasses cs).encode Anchor.Fits := by
  have hgroup := (alike_atLeast 2 cs.length).bind fun _ _ _ =>
    (alike_classExprs cs).bind fun _ _ h =>
      alike_encodeGroup (c := .owl .AllDisjointClasses) h
  rcases cs with _ | ⟨c, _ | ⟨d, _ | ⟨_, _⟩⟩⟩
  · exact hgroup
  · exact hgroup
  · refine (alike_classExpr c).bind fun _ _ hc => ?_
    exact (alike_classExpr d).bind fun _ _ hd => alike_encodePlain hc hd.term
  · exact hgroup

/-- An axiom gets main triples that fit, from whatever names. -/
theorem alike_encode (ax : Axiom) : Alike ax.encode ax.encode Anchor.Fits := by
  cases ax with
  | declaration e => exact alike_encodePlain (.refl _) (.refl _)
  | subClassOf sub super =>
    refine (alike_classExpr sub).bind fun _ _ hsub => ?_
    exact (alike_classExpr super).bind fun _ _ hsuper => alike_encodePlain hsub hsuper.term
  | equivalentClasses cs => exact alike_equivalentClasses cs
  | disjointClasses cs => exact alike_disjointClasses cs
  | disjointUnion c parts =>
    refine (alike_atLeast _ _).bind fun _ _ _ => (alike_classExprs parts).bind fun _ _ hparts => ?_
    exact (alike_encodeList hparts).bind fun _ _ h => alike_encodePlain (.refl _) h
  | subObjectPropertyOf sub super =>
    refine (alike_objectProperty sub).bind fun _ _ hsub => ?_
    exact (alike_objectProperty super).bind fun _ _ hsuper =>
      alike_encodePlain hsub hsuper.term
  | subPropertyChainOf chain super =>
    refine (alike_atLeast _ _).bind fun _ _ _ => ?_
    refine (alike_objectProperties chain).bind fun _ _ hlinks => ?_
    exact (alike_encodeList hlinks).bind fun _ _ h => alike_encodePlain (.refl _) h
  | subDataPropertyOf sub super => exact alike_encodePlain (.refl _) (.refl _)
  | equivalentProperties sort ps =>
    rcases ps with _ | ⟨p, _ | ⟨q, _ | ⟨_, _⟩⟩⟩
    · exact alike_refuse
    · exact alike_refuse
    · exact alike_encodePlain (.refl _) (.refl _)
    · exact alike_refuse
  | disjointProperties sort ps =>
    rcases ps with _ | ⟨p, _ | ⟨q, _ | ⟨_, _⟩⟩⟩
    · exact (alike_atLeast _ _).bind fun _ _ _ => alike_encodeGroup rfl
    · exact (alike_atLeast _ _).bind fun _ _ _ => alike_encodeGroup rfl
    · exact alike_encodePlain (.refl _) (.refl _)
    · exact (alike_atLeast _ _).bind fun _ _ _ => alike_encodeGroup rfl
  | propertyDomain sort p domain =>
    exact (alike_classExpr domain).bind fun _ _ h => alike_encodePlain (.refl _) h.term
  | objectPropertyRange p range =>
    exact (alike_classExpr range).bind fun _ _ h => alike_encodePlain (.refl _) h.term
  | dataPropertyRange p range =>
    exact (alike_dataRange range).bind fun _ _ h => alike_encodePlain (.refl _) h.term
  | inverseObjectProperties p q => exact alike_encodePlain (.refl _) (.refl _)
  | objectCharacteristic c p => exact alike_encodePlain (.refl _) (.refl _)
  | functionalDataProperty p => exact alike_encodePlain (.refl _) (.refl _)
  | datatypeDefinition d range =>
    exact (alike_dataRange range).bind fun _ _ h => alike_encodePlain (.refl _) h.term
  | classAssertion c a =>
    exact (alike_classExpr c).bind fun _ _ h => alike_encodePlain (.refl _) h.term
  | propertyAssertion p source target => exact alike_encodePlain (.refl _) (.refl _)
  | negativePropertyAssertion p source target =>
    refine alike_encodeRoot.bind fun _ _ h => alike_emit.bind fun _ _ _ => ?_
    exact alike_emit.bind fun _ _ _ => alike_emit_pure h.2
  | sameIndividual as =>
    rcases as with _ | ⟨a, _ | ⟨b, _ | ⟨_, _⟩⟩⟩
    · exact alike_refuse
    · exact alike_refuse
    · exact alike_encodePlain (.refl _) (.refl _)
    · exact alike_refuse
  | differentIndividuals as =>
    rcases as with _ | ⟨a, _ | ⟨b, _ | ⟨_, _⟩⟩⟩
    · exact (alike_atLeast _ _).bind fun _ _ _ => alike_encodeGroup rfl
    · exact (alike_atLeast _ _).bind fun _ _ _ => alike_encodeGroup rfl
    · exact alike_encodePlain (.refl _) (.refl _)
    · exact (alike_atLeast _ _).bind fun _ _ _ => alike_encodeGroup rfl
  | hasKey c ops dps =>
    refine alike_ite (fun _ _ _ _ hrun => nomatch hrun) fun _ => ?_
    refine (alike_classExpr c).bind fun _ _ hc => ?_
    exact (alike_encodeList rfl).bind fun _ _ h => alike_encodePlain hc h
  | annotationAssertion p subject value => exact alike_encodePlain (.refl _) (.refl _)
  | subAnnotationPropertyOf sub super => exact alike_encodePlain (.refl _) (.refl _)
  | annotationPropertyDomain p domain => exact alike_encodePlain (.refl _) (.refl _)
  | annotationPropertyRange p range => exact alike_encodePlain (.refl _) (.refl _)

/-- Remarks are written on any node. -/
theorem alike_encodeRemarks (rs : List Remark) :
    Alike (encodeRemarks s rs) (encodeRemarks s' rs) fun _ _ => True := by
  induction rs with
  | nil => exact alike_pure trivial
  | cons r rs ih => exact alike_emit.bind fun _ _ _ => ih

/-- Writing remarks succeeds from any draft if it does from one. -/
theorem alike_encodeReified {t t' : Triple} (rs : List Remark) :
    Alike (encodeReified t rs) (encodeReified t' rs) fun _ _ => True := by
  refine alike_freshOf.bind fun _ _ _ => alike_emit.bind fun _ _ _ => ?_
  refine alike_emit.bind fun _ _ _ => alike_emit.bind fun _ _ _ => ?_
  exact alike_encodeRemarks rs

/-- An annotated axiom gets main triples that fit, from whatever names. -/
theorem alike_draft (a : AnnotatedAxiom) : Alike a.draft a.draft Triple.Fits := by
  refine (alike_encode a.base).bind fun x y h => ?_
  have hmain : Alike (pure x.main) (pure y.main) Triple.Fits := alike_pure h.main
  rw [h.rooted]
  refine alike_ite (fun _ => (alike_encodeRemarks a.remarks).bind fun _ _ _ => hmain) fun _ => ?_
  exact alike_ite (fun _ => (alike_encodeReified a.remarks).bind fun _ _ _ => hmain) fun _ => hmain

end Drafting

/-- An axiom that is written with some names is written with any others, and the main triples
fit. -/
theorem AnnotatedAxiom.exists_encode_fits {a : AnnotatedAxiom} {supply supply' : Supply}
    {f : Footprint} (h : a.encode supply = .ok (f, supply')) (other : Supply) :
    ∃ g rest, a.encode other = .ok (g, rest) ∧ f.main.Fits g.main := by
  unfold encode at h ⊢
  split at h
  case h_1 main d hdraft =>
    cases h
    obtain ⟨main', d', hdraft', hfits⟩ := alike_draft a _ _ _ hdraft { supply := other }
    refine ⟨.of main' d'.triples, d'.supply, ?_, hfits⟩
    rw [hdraft']
  case h_2 => cases h

/-! ## What the main triple tells -/

/-- The term is a node taken from a supply until another one is left. -/
def Supply.Brings (s s' : Supply) (x : Term) : Prop := ∃ n, x = .node n ∧ s.Makes s' n

/-- A node taken in between is taken from first to last. -/
theorem Supply.Brings.mono {s s₁ s₂ s' : Supply} {x : Term} (h : s₁.Brings s₂ x)
    (h₁ : s.Precedes s₁) (h₂ : s₂.Precedes s') : s.Brings s' x := by
  obtain ⟨n, rfl, hn⟩ := h
  exact ⟨n, rfl, hn.mono h₁ h₂⟩

/-- From one draft to another nothing was written, or the answer is a new node. -/
structure Draft.Gives (d d' : Draft) (x : Term) : Prop where
  precedes : d.supply.Precedes d'.supply
  idle_or_brings : d' = d ∨ d.supply.Brings d'.supply x

/-- The main triple is all that was written, or it mentions a new node. -/
def Anchor.Tells (anchor : Anchor) (d d' : Draft) : Prop :=
  (anchor.rooted = false ∧ d' = ⟨d.supply, d.triples ++ [anchor.main]⟩) ∨
    d.supply.Brings d'.supply anchor.main.subject ∨ d.supply.Brings d'.supply anchor.main.object

section Gives

variable {d d₁ d₂ d' : Draft} {n s : Node} {x o : Term} {xs : List Term} {p c : Iri}
  {anchor : Anchor}

/-- Where nothing was written any term will do. -/
theorem Draft.Gives.refl : d.Gives d x := ⟨.refl, Or.inl rfl⟩

/-- A node that was taken is new. -/
theorem Draft.gives_of_makes (h : d.supply.Makes d'.supply n) (hd : d.supply.Precedes d'.supply) :
    d.Gives d' n := ⟨hd, Or.inr ⟨n, rfl, h⟩⟩

/-- The head of a list of some items is new. -/
theorem gives_encodeList (hearly : d.supply.Precedes d₁.supply)
    (h : encodeList xs d₁ = .ok (x, d')) (hxs : xs ≠ []) : d.Gives d' x := by
  cases xs with
  | nil => exact absurd rfl hxs
  | cons y ys =>
    obtain ⟨rest, d₂, hrest, h⟩ := bind_eq_ok_iff.1 h
    obtain ⟨ts, hts, -⟩ := readCells_of_encodeList hrest
    obtain ⟨_, d₃, hcell, h⟩ := bind_eq_ok_iff.1 h
    obtain ⟨rfl, rfl⟩ := fresh_eq_ok_iff.1 hcell
    obtain ⟨_, d₄, hfirst, h⟩ := bind_eq_ok_iff.1 h
    obtain rfl := emit_eq_ok_iff.1 hfirst
    obtain ⟨_, d₅, hnext, h⟩ := bind_eq_ok_iff.1 h
    obtain rfl := emit_eq_ok_iff.1 hnext
    obtain ⟨rfl, rfl⟩ := pure_eq_ok_iff.1 h
    have hprecedes := hearly.trans hts.toPrecedes
    exact Draft.gives_of_makes (Supply.makes_head_tail.mono hprecedes .refl)
      (hprecedes.trans Supply.precedes_tail)

/-- A class expression gives a new node, or nothing was written for it. -/
theorem gives_classExpr {e : ClassExpr} (h : e.encode d = .ok (n, d')) : d.Gives d' n := by
  obtain ⟨ts, hts, ⟨i, rfl, rfl⟩ | hmade, -⟩ := Source.recovers_classExpr e h
  · rw [ClassExpr.encode] at h
    obtain ⟨-, rfl⟩ := pure_eq_ok_iff.1 h
    exact .refl
  · exact Draft.gives_of_makes hmade hts.toPrecedes

/-- An object property expression gives a new node, or nothing was written for it. -/
theorem gives_objectProperty {e : ObjectPropertyExpr} (h : e.encode d = .ok (n, d')) :
    d.Gives d' n := by
  obtain ⟨ts, hts, hmade, -⟩ := Source.recovers_objectProperty h
  cases e with
  | named p =>
    obtain ⟨-, rfl⟩ := pure_eq_ok_iff.1 h
    exact .refl
  | inverse p =>
    obtain ⟨_, d₁, hnode, h⟩ := bind_eq_ok_iff.1 h
    obtain ⟨rfl, rfl⟩ := fresh_eq_ok_iff.1 hnode
    obtain ⟨_, d₂, hemit, h⟩ := bind_eq_ok_iff.1 h
    obtain ⟨rfl, rfl⟩ := pure_eq_ok_iff.1 h
    exact Draft.gives_of_makes (hmade rfl) hts.toPrecedes

/-- A node that is taken after some parts were written and before others are. -/
theorem makes_freshOf (hearly : d.supply.Precedes d₁.supply)
    (hnode : freshOf c d₁ = .ok (n, d₂)) (hlater : d₂.supply.Precedes d'.supply) :
    d.supply.Makes d'.supply n := by
  obtain ⟨rfl, rfl⟩ := freshOf_eq_ok_iff.1 hnode
  exact (Supply.makes_head hlater).mono hearly .refl

/-- A data range gives a new node, or nothing was written for it. -/
theorem gives_dataRange {e : DataRange} (h : e.encode d = .ok (n, d')) : d.Gives d' n := by
  obtain ⟨ts, hts, -⟩ := Source.recovers_dataRange e h
  cases e with
  | named i =>
    rw [DataRange.encode] at h
    obtain ⟨-, rfl⟩ := pure_eq_ok_iff.1 h
    exact .refl
  | junction j es =>
    rw [DataRange.encode] at h
    obtain ⟨_, _, hleast, h⟩ := bind_eq_ok_iff.1 h
    obtain ⟨-, rfl⟩ := atLeast_eq_ok_iff.1 hleast
    obtain ⟨ns, d₁, hns, h⟩ := bind_eq_ok_iff.1 h
    obtain ⟨early, hearly, -⟩ := Source.recovers_dataRanges es hns
    obtain ⟨_, d₂, hnode, h⟩ := bind_eq_ok_iff.1 h
    obtain ⟨list, d₃, hlist, h⟩ := bind_eq_ok_iff.1 h
    obtain ⟨cells, hcells, -⟩ := readCells_of_encodeList hlist
    obtain ⟨_, d₄, hemit, h⟩ := bind_eq_ok_iff.1 h
    obtain rfl := emit_eq_ok_iff.1 hemit
    obtain ⟨rfl, rfl⟩ := pure_eq_ok_iff.1 h
    have hmade := makes_freshOf hearly.toPrecedes hnode hcells.toPrecedes
    exact Draft.gives_of_makes hmade hts.toPrecedes
  | complement e =>
    rw [DataRange.encode] at h
    obtain ⟨m, d₁, hm, h⟩ := bind_eq_ok_iff.1 h
    obtain ⟨early, hearly, -⟩ := Source.recovers_dataRange e hm
    obtain ⟨_, d₂, hnode, h⟩ := bind_eq_ok_iff.1 h
    obtain ⟨_, d₃, hemit, h⟩ := bind_eq_ok_iff.1 h
    obtain rfl := emit_eq_ok_iff.1 hemit
    obtain ⟨rfl, rfl⟩ := pure_eq_ok_iff.1 h
    exact Draft.gives_of_makes (makes_freshOf hearly.toPrecedes hnode .refl) hts.toPrecedes
  | oneOf values =>
    rw [DataRange.encode] at h
    obtain ⟨_, _, hleast, h⟩ := bind_eq_ok_iff.1 h
    obtain ⟨-, rfl⟩ := atLeast_eq_ok_iff.1 hleast
    obtain ⟨_, d₂, hnode, h⟩ := bind_eq_ok_iff.1 h
    obtain ⟨list, d₃, hlist, h⟩ := bind_eq_ok_iff.1 h
    obtain ⟨cells, hcells, -⟩ := readCells_of_encodeList hlist
    obtain ⟨_, d₄, hemit, h⟩ := bind_eq_ok_iff.1 h
    obtain rfl := emit_eq_ok_iff.1 hemit
    obtain ⟨rfl, rfl⟩ := pure_eq_ok_iff.1 h
    exact Draft.gives_of_makes (makes_freshOf .refl hnode hcells.toPrecedes) hts.toPrecedes
  | restriction i facets =>
    rw [DataRange.encode] at h
    obtain ⟨_, _, hleast, h⟩ := bind_eq_ok_iff.1 h
    obtain ⟨-, rfl⟩ := atLeast_eq_ok_iff.1 hleast
    obtain ⟨_, d₂, hnode, h⟩ := bind_eq_ok_iff.1 h
    obtain ⟨_, d₃, hemit, h⟩ := bind_eq_ok_iff.1 h
    obtain rfl := emit_eq_ok_iff.1 hemit
    obtain ⟨ns, d₄, hns, h⟩ := bind_eq_ok_iff.1 h
    obtain ⟨facets, hfacets, -⟩ := Source.recovers_facets hns
    obtain ⟨list, d₅, hlist, h⟩ := bind_eq_ok_iff.1 h
    obtain ⟨cells, hcells, -⟩ := readCells_of_encodeList hlist
    obtain ⟨_, d₆, hemit, h⟩ := bind_eq_ok_iff.1 h
    obtain rfl := emit_eq_ok_iff.1 hemit
    obtain ⟨rfl, rfl⟩ := pure_eq_ok_iff.1 h
    have hlater := hfacets.toPrecedes.trans hcells.toPrecedes
    exact Draft.gives_of_makes (makes_freshOf .refl hnode hlater) hts.toPrecedes

/-! ## Axioms -/

/-- A main triple between two parts, each of which wrote nothing or gave a new node. -/
theorem tells_encodePlain (hs : d.Gives d₁ s) (ho : d₁.Gives d₂ o)
    (h : encodePlain s p o d₂ = .ok (anchor, d')) : anchor.Tells d d' := by
  obtain ⟨rfl, rfl⟩ := Axiom.encodePlain_eq_ok_iff.1 h
  rcases hs.idle_or_brings with rfl | hnew
  · rcases ho.idle_or_brings with rfl | hnew
    · exact Or.inl ⟨rfl, rfl⟩
    · exact Or.inr (Or.inr (hnew.mono hs.precedes .refl))
  · exact Or.inr (Or.inl (hnew.mono .refl ho.precedes))

/-- Of an axiom of one triple, that is all that was written. -/
theorem tells_single (h : encodePlain s p o d = .ok (anchor, d')) : anchor.Tells d d' :=
  tells_encodePlain .refl .refl h

/-- An axiom with a node of its own has it in its main triple. -/
theorem tells_encodeRoot (hearly : d.supply.Precedes d₁.supply)
    (hroot : encodeRoot c d₁ = .ok ((n, anchor), d₂)) (hlater : d₂.supply.Precedes d'.supply) :
    anchor.Tells d d' := by
  obtain ⟨rfl, rfl, rfl⟩ := Axiom.encodeRoot_eq_ok_iff.1 hroot
  exact Or.inr (Or.inl ⟨_, rfl, (Supply.makes_head hlater).mono hearly .refl⟩)

/-- The main triple of a group mentions its new node. -/
theorem tells_encodeGroup (hearly : d.supply.Precedes d₁.supply)
    (h : encodeGroup c xs d₁ = .ok (anchor, d')) : anchor.Tells d d' := by
  obtain ⟨root, d₂, list, d₃, hroot, hlist, rfl⟩ := Axiom.exists_list_of_encodeGroup h
  obtain ⟨cells, hcells, -⟩ := readCells_of_encodeList hlist
  exact tells_encodeRoot hearly hroot hcells.toPrecedes

/-- An equivalence of classes is one triple, or mentions a new node. -/
theorem tells_equivalentClasses {cs : List ClassExpr}
    (h : (Axiom.equivalentClasses cs).encode d = .ok (anchor, d')) : anchor.Tells d d' := by
  rcases cs with _ | ⟨a, _ | ⟨b, _ | ⟨_, _⟩⟩⟩
  · cases h
  · cases h
  · obtain ⟨n, d₁, ha, h⟩ := bind_eq_ok_iff.1 h
    obtain ⟨m, d₂, hb, h⟩ := bind_eq_ok_iff.1 h
    exact tells_encodePlain (gives_classExpr ha) (gives_classExpr hb) h
  · cases h

/-- The main triple of a group of disjoint classes mentions its new node. -/
theorem tells_classGroup {cs : List ClassExpr} (h : (do
      atLeast 2 cs.length
      let members ← ClassExpr.encodeAll cs
      encodeGroup (.owl .AllDisjointClasses) members) d = .ok (anchor, d')) :
    anchor.Tells d d' := by
  obtain ⟨_, _, hleast, h⟩ := bind_eq_ok_iff.1 h
  obtain ⟨-, rfl⟩ := atLeast_eq_ok_iff.1 hleast
  obtain ⟨members, d₁, hmembers, h⟩ := bind_eq_ok_iff.1 h
  obtain ⟨ts, hts, -⟩ := Source.recovers_classExprs cs hmembers
  exact tells_encodeGroup hts.toPrecedes h

/-- A disjointness of classes is one triple, or mentions a new node. -/
theorem tells_disjointClasses {cs : List ClassExpr}
    (h : (Axiom.disjointClasses cs).encode d = .ok (anchor, d')) : anchor.Tells d d' := by
  rcases cs with _ | ⟨a, _ | ⟨b, _ | ⟨_, _⟩⟩⟩
  · exact tells_classGroup h
  · exact tells_classGroup h
  · obtain ⟨n, d₁, ha, h⟩ := bind_eq_ok_iff.1 h
    obtain ⟨m, d₂, hb, h⟩ := bind_eq_ok_iff.1 h
    exact tells_encodePlain (gives_classExpr ha) (gives_classExpr hb) h
  · exact tells_classGroup h

/-- A group of members that are no expressions. -/
theorem tells_group {least found : Nat} (h : (do
      atLeast least found
      encodeGroup c xs) d = .ok (anchor, d')) : anchor.Tells d d' := by
  obtain ⟨_, _, hleast, h⟩ := bind_eq_ok_iff.1 h
  obtain ⟨-, rfl⟩ := atLeast_eq_ok_iff.1 hleast
  exact tells_encodeGroup .refl h

/-- The main triple of a negative assertion mentions its new node. -/
theorem tells_negation {source : Node} {target : Term}
    (h : (Axiom.negativePropertyAssertion p source target).encode d = .ok (anchor, d')) :
    anchor.Tells d d' := by
  obtain ⟨root, d₁, hroot, rfl⟩ := Axiom.exists_root_of_negation h
  exact tells_encodeRoot .refl hroot .refl

/-- The main triple of a disjoint union mentions the head of its list. -/
theorem tells_disjointUnion {i : Iri} {parts : List ClassExpr}
    (h : (Axiom.disjointUnion i parts).encode d = .ok (anchor, d')) : anchor.Tells d d' := by
  obtain ⟨_, _, hleast, h⟩ := bind_eq_ok_iff.1 h
  obtain ⟨hleast, rfl⟩ := atLeast_eq_ok_iff.1 hleast
  obtain ⟨members, d₁, hmembers, h⟩ := bind_eq_ok_iff.1 h
  obtain ⟨ts, hts, hlen, -⟩ := Source.recovers_classExprs parts hmembers
  obtain ⟨list, d₂, hlist, h⟩ := bind_eq_ok_iff.1 h
  have hsome : members ≠ [] := List.ne_nil_of_length_pos (by omega)
  exact tells_encodePlain .refl (gives_encodeList hts.toPrecedes hlist hsome) h

/-- The main triple of a property chain mentions the head of its list. -/
theorem tells_subPropertyChainOf {chain : List ObjectPropertyExpr} {super : Iri}
    (h : (Axiom.subPropertyChainOf chain super).encode d = .ok (anchor, d')) :
    anchor.Tells d d' := by
  obtain ⟨_, _, hleast, h⟩ := bind_eq_ok_iff.1 h
  obtain ⟨hleast, rfl⟩ := atLeast_eq_ok_iff.1 hleast
  obtain ⟨links, d₁, hlinks, h⟩ := bind_eq_ok_iff.1 h
  obtain ⟨ts, hts, hlen, -⟩ := Source.recovers_objectProperties hlinks
  obtain ⟨list, d₂, hlist, h⟩ := bind_eq_ok_iff.1 h
  have hsome : links ≠ [] := List.ne_nil_of_length_pos (by omega)
  exact tells_encodePlain .refl (gives_encodeList hts.toPrecedes hlist hsome) h

/-- The main triple of a key mentions the head of its list. -/
theorem tells_hasKey {e : ClassExpr} {ops dps : List Iri}
    (h : (Axiom.hasKey e ops dps).encode d = .ok (anchor, d')) : anchor.Tells d d' := by
  delta Axiom.encode at h
  dsimp only at h
  split at h
  case isTrue => cases h
  case isFalse hkey =>
    obtain ⟨n, d₁, he, h⟩ := bind_eq_ok_iff.1 h
    obtain ⟨list, d₂, hlist, h⟩ := bind_eq_ok_iff.1 h
    have hsome : (ops ++ dps).map (fun p => Term.node (.iri p)) ≠ [] := by simpa using hkey
    exact tells_encodePlain (gives_classExpr he) (gives_encodeList .refl hlist hsome) h

/-- The main triple of an axiom is all that was written, or mentions a new node. -/
theorem tells_of_encode {ax : Axiom} (h : ax.encode d = .ok (anchor, d')) :
    anchor.Tells d d' := by
  cases ax with
  | declaration e => exact tells_single h
  | subClassOf sub super =>
    obtain ⟨n, d₁, hsub, h⟩ := bind_eq_ok_iff.1 h
    obtain ⟨m, d₂, hsuper, h⟩ := bind_eq_ok_iff.1 h
    exact tells_encodePlain (gives_classExpr hsub) (gives_classExpr hsuper) h
  | equivalentClasses cs => exact tells_equivalentClasses h
  | disjointClasses cs => exact tells_disjointClasses h
  | disjointUnion c parts => exact tells_disjointUnion h
  | subObjectPropertyOf sub super =>
    obtain ⟨n, d₁, hsub, h⟩ := bind_eq_ok_iff.1 h
    obtain ⟨m, d₂, hsuper, h⟩ := bind_eq_ok_iff.1 h
    exact tells_encodePlain (gives_objectProperty hsub) (gives_objectProperty hsuper) h
  | subPropertyChainOf chain super => exact tells_subPropertyChainOf h
  | subDataPropertyOf sub super => exact tells_single h
  | equivalentProperties sort ps =>
    rcases ps with _ | ⟨p, _ | ⟨q, _ | ⟨_, _⟩⟩⟩
    · cases h
    · cases h
    · exact tells_single h
    · cases h
  | disjointProperties sort ps =>
    rcases ps with _ | ⟨p, _ | ⟨q, _ | ⟨_, _⟩⟩⟩
    · exact tells_group h
    · exact tells_group h
    · exact tells_single h
    · exact tells_group h
  | propertyDomain sort p domain =>
    obtain ⟨n, d₁, hdomain, h⟩ := bind_eq_ok_iff.1 h
    exact tells_encodePlain .refl (gives_classExpr hdomain) h
  | objectPropertyRange p range =>
    obtain ⟨n, d₁, hrange, h⟩ := bind_eq_ok_iff.1 h
    exact tells_encodePlain .refl (gives_classExpr hrange) h
  | dataPropertyRange p range =>
    obtain ⟨n, d₁, hrange, h⟩ := bind_eq_ok_iff.1 h
    exact tells_encodePlain .refl (gives_dataRange hrange) h
  | inverseObjectProperties p q => exact tells_single h
  | objectCharacteristic c p => exact tells_single h
  | functionalDataProperty p => exact tells_single h
  | datatypeDefinition i range =>
    obtain ⟨n, d₁, hrange, h⟩ := bind_eq_ok_iff.1 h
    exact tells_encodePlain .refl (gives_dataRange hrange) h
  | classAssertion c a =>
    obtain ⟨n, d₁, hc, h⟩ := bind_eq_ok_iff.1 h
    exact tells_encodePlain .refl (gives_classExpr hc) h
  | propertyAssertion p source target => exact tells_single h
  | negativePropertyAssertion p source target => exact tells_negation h
  | sameIndividual as =>
    rcases as with _ | ⟨a, _ | ⟨b, _ | ⟨_, _⟩⟩⟩
    · cases h
    · cases h
    · exact tells_single h
    · cases h
  | differentIndividuals as =>
    rcases as with _ | ⟨a, _ | ⟨b, _ | ⟨_, _⟩⟩⟩
    · exact tells_group h
    · exact tells_group h
    · exact tells_single h
    · exact tells_group h
  | hasKey c ops dps => exact tells_hasKey h
  | annotationAssertion p subject value => exact tells_single h
  | subAnnotationPropertyOf sub super => exact tells_single h
  | annotationPropertyDomain p domain => exact tells_single h
  | annotationPropertyRange p range => exact tells_single h

end Gives

/-- If more than a main triple without new nodes is written, it is a node that stands for this
triple, with the remarks. -/
theorem AnnotatedAxiom.mem_triples_iff_of_encode {a : AnnotatedAxiom} {supply supply' : Supply}
    {f : Footprint} (h : a.encode supply = .ok (f, supply'))
    (hsubject : ¬ supply.Brings supply' f.main.subject)
    (hobject : ¬ supply.Brings supply' f.main.object) (hmore : ∃ t ∈ f.triples, t ≠ f.main)
    (t : Triple) : t ∈ f.triples ↔ t = f.main ∨
      t ∈ f.main.reifiedAs supply.head ++ a.remarks.map (Remark.on supply.head) := by
  unfold encode at h
  split at h
  case h_2 => cases h
  case h_1 main d hdraft =>
    cases h
    obtain ⟨anchor, d₁, notes, hbase, rfl, hnoted⟩ := exists_noted_of_draft hdraft
    have hprecedes := hnoted.precedes
    -- an axiom that mentions no new node is written as its main triple alone
    rcases tells_of_encode hbase with ⟨hplain, rfl⟩ | hnew | hnew
    · have hmem : ∀ u, u ∈ (Footprint.of anchor.main d.triples).triples ↔
          u = anchor.main ∨ u ∈ notes := by
        intro u
        rw [Footprint.mem_triples_of, hnoted.triples]
        simp
      obtain ⟨u, hu, hne⟩ := hmore
      have hnote : u ∈ notes := ((hmem u).1 hu).resolve_left hne
      rw [hmem]
      cases hnoted with
      | rooted hrooted =>
        rw [hplain] at hrooted
        cases hrooted
      | bare => cases hnote
      | reified => exact Iff.rfl
    · exact absurd (hnew.mono .refl hprecedes) hsubject
    · exact absurd (hnew.mono .refl hprecedes) hobject

end Ontograph
