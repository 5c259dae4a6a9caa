import Ontograph.Proofs.Mapping.ClassExpressions

/-!
# Writing and reading axioms

An axiom that was written reads back from its main triple, and none of the other triples written
for it is read as an axiom (`Axiom.exists_written_of_encode`).  `Axiom.ReadableIn` collects what
the reader decides by: the sort of the first property, whether a class that starts an equivalence
is a datatype, and whether the subject of an assertion belongs to the encoding of something else.
-/

namespace Ontograph

open Reading Drafting

/-! ## What a source has to know -/

/-- The IRI is a property of the sort, and of no sort that is looked for earlier. -/
def Source.KnowsProperty (R : Source) : PropertySort → Iri → Prop
  | .object, p => R.KnowsObjectProperty p
  | .data, p => R.KnowsDataProperty p

/-- The source classifies what the axiom mentions as the axiom has it. -/
def Axiom.ReadableIn (R : Source) : Axiom → Prop
  | .declaration _ | .inverseObjectProperties _ _ | .negativePropertyAssertion _ _ _
  | .sameIndividual _ => True
  | .subClassOf sub super => sub.ReadableIn R ∧ super.ReadableIn R
  | .equivalentClasses cs => ClassExpr.AllReadableIn R cs ∧ ∀ i rest, cs = .named i :: rest →
      R.isA .owlClass (.node (.iri i)) = true ∨ R.isA .datatype (.node (.iri i)) = false
  | .disjointClasses cs =>
    ClassExpr.AllReadableIn R cs ∧ (2 < cs.length → cs.length ≤ R.settings.listLimit)
  | .disjointUnion _ parts =>
    ClassExpr.AllReadableIn R parts ∧ parts.length ≤ R.settings.listLimit
  | .subObjectPropertyOf sub _ => R.KnowsObjectProperty sub.base
  | .subPropertyChainOf chain _ => chain.length ≤ R.settings.listLimit
  | .subDataPropertyOf sub _ => R.KnowsDataProperty sub
  | .equivalentProperties sort ps => ∀ p ∈ ps.head?, R.KnowsProperty sort p
  | .disjointProperties sort ps => (∀ p ∈ ps.head?, R.KnowsProperty sort p) ∧
      (2 < ps.length → ps.length ≤ R.settings.listLimit)
  | .propertyDomain sort p c => R.KnowsProperty sort p ∧ c.ReadableIn R
  | .objectPropertyRange p c => R.KnowsObjectProperty p ∧ c.ReadableIn R
  | .dataPropertyRange p d => R.KnowsDataProperty p ∧ d.ReadableIn R
  | .objectCharacteristic c p => c = .functional → R.KnowsObjectProperty p
  | .functionalDataProperty p => R.KnowsDataProperty p
  | .datatypeDefinition d range => (R.isA .datatype (.node (.iri d)) = true ∧
      R.isA .owlClass (.node (.iri d)) = false) ∧ range.ReadableIn R
  | .classAssertion c a => c.ReadableIn R ∧ R.isStructural a = false ∧
      ∀ i, c = .named i → i.isReserved = false ∨ i.isBuiltin .owlClass = true
  | .propertyAssertion p s o => p.isReserved = false ∧ R.isStructural s = false ∧
      R.isA (if o.isLiteral then .dataProperty else .objectProperty) (.node (.iri p)) = true
  | .differentIndividuals as => 2 < as.length → as.length ≤ R.settings.listLimit
  | .hasKey c ops dps => c.ReadableIn R ∧ (ops ++ dps).length ≤ R.settings.listLimit ∧
      (∀ p ∈ ops, R.KnowsObjectProperty p) ∧ ∀ p ∈ dps, R.KnowsDataProperty p
  | .annotationAssertion p s _ =>
    p.canAnnotate = true ∧ R.isStructural s = false ∧ R.KnowsAnnotationProperty p
  | .subAnnotationPropertyOf p _ | .annotationPropertyDomain p _ | .annotationPropertyRange p _ =>
    R.KnowsAnnotationProperty p

/-! ## What is written for an axiom -/

/-- From one draft to another an axiom is written: its main triple, and others that are about new
nodes.  Wherever these hold, the axiom is read from the main triple, and nothing from the others.
The main triple is about a new node if the axiom has a node of its own, or if an anonymous
expression is its subject. -/
structure Axiom.Written (ax : Axiom) (d d' : Draft) (anchor : Anchor) (ts : List Triple) :
    Prop extends d.supply.Covers d'.supply ts where
  mem_iff : ∀ t, t ∈ d'.triples ↔ t ∈ d.triples ∨ t = anchor.main ∨ t ∈ ts
  reifies : ∀ t ∈ ts, t.reifies = false
  rooted : anchor.rooted = true → d.supply.Makes d'.supply anchor.main.subject ∧
    ∃ c ∈ Source.structuralTypes, anchor.main = .typing anchor.main.subject c
  silent : anchor.rooted = true →
    ∀ t ∈ ts, t.subject = anchor.main.subject → t.predicate.canAnnotate = false
  plain : anchor.rooted = false →
    d.supply.Makes d'.supply anchor.main.subject → anchor.main.predicate.attaches = true
  reads : ∀ R : Source, R.triples.NilEnds → ax.ReadableIn R →
    R.triples.hasType anchor.main.subject (.owl .Ontology) = false →
    R.triples.Holds d.supply d'.supply (some anchor.main.subject)
      (if anchor.rooted then anchor.main :: ts else ts) →
    Yields (R.statement anchor.main) (ax, anchor.rooted) ts ∧ ∀ t ∈ ts, R.Mute t

namespace Source

variable {R : Source} {ts : List Triple} {t : Triple} {ax : Axiom} {s : Node} {p : Iri} {o : Term}

/-- An axiom of one triple reads as an axiom without a node of its own. -/
theorem yields_plain {read : Reading Axiom} (h : Yields read ax ts) :
    Yields (statement.plain read) (ax, false) ts := h.map

/-- A triple that is not about a header reads as its predicate says. -/
theorem yields_statement {read : Reading (Axiom × Bool)} {a : Axiom × Bool}
    (hheader : R.triples.hasType t.subject (.owl .Ontology) = false)
    (hstatement : R.statement t =
      if R.triples.hasType t.subject (.owl .Ontology) then failure else read)
    (h : Yields read a ts) : Yields (R.statement t) a ts := by
  rw [hstatement, hheader]
  exact h

/-- A property that is known as of a sort has the category of the sort. -/
theorem KnowsProperty.sortOf? {sort : PropertySort} (h : R.KnowsProperty sort p) :
    R.sortOf? (.node (.iri p)) = some (match sort with
      | .object => .objectProperty
      | .data => .dataProperty) := by
  cases sort with
  | object => exact KnowsObjectProperty.sortOf? h
  | data => exact KnowsDataProperty.sortOf? h

/-- A pair of properties has the sort of its first one, if that is known. -/
theorem yields_pairSort {sort : PropertySort} (h : R.KnowsProperty sort p) :
    Yields (R.pairSort (.iri p) o) sort [] := by
  unfold pairSort sortOfEither?
  rw [h.sortOf?]
  cases sort <;> exact yields_pure

/-- A named class that is no word of a vocabulary, or a built-in class, is asserted of a node. -/
theorem typing_named {i : Iri} (hi : i.isReserved = false ∨ i.isBuiltin .owlClass = true)
    (hs : R.isStructural s = false) :
    R.typing s (.node (.iri i)) = pure (.classAssertion (.named i) s, false) := by
  have hclass : (!i.isReserved || i.isBuiltin .owlClass) = true := by
    rcases hi with hi | hi <;> simp [hi]
  have hne : ∀ w : Iri, (!w.isReserved || w.isBuiltin .owlClass) = false → i ≠ w := by
    rintro w hw rfl
    rw [hclass] at hw
    cases hw
  have hentity : (s.iri?.bind fun j => R.entityTyping? j i) = none := by
    cases s with
    | blank b => rfl
    | iri j =>
      show R.entityTyping? j i = none
      unfold entityTyping?
      split
      case h_14 => rfl
      all_goals exact absurd rfl (hne _ (by decide))
  unfold typing
  dsimp only
  split
  case h_5 =>
    rw [hentity, hclass, hs]
    rfl
  all_goals exact absurd rfl (hne _ (by decide))

/-- The properties of a key come back in the order of their sorts. -/
theorem yields_key {c : ClassExpr} {n : Node} {ops dps : List Iri} {cells : List Triple}
    (hops : ∀ p ∈ ops, R.KnowsObjectProperty p) (hdps : ∀ p ∈ dps, R.KnowsDataProperty p)
    (hlist : Yields (R.list o) ((ops ++ dps).map fun p => .node (.iri p)) cells)
    (hc : Yields (R.classExpr (.node n)) c ts) :
    Yields (R.key n o) (.hasKey c ops dps) (cells ++ ts) := by
  have hparts : ((ops ++ dps).map fun p => Term.node (.iri p)).partition
      (fun p => R.isA .objectProperty p) =
      (ops.map fun p => .node (.iri p), dps.map fun p => .node (.iri p)) := by
    have hyes : (ops.map fun p => Term.node (.iri p)).filter
        (fun p => R.isA .objectProperty p) = ops.map fun p => .node (.iri p) := by
      rw [List.filter_eq_self]
      intro x hx
      obtain ⟨p, hp, rfl⟩ := List.mem_map.1 hx
      exact hops p hp
    have hno : (dps.map fun p => Term.node (.iri p)).filter
        (fun p => R.isA .objectProperty p) = [] := by
      rw [List.filter_eq_nil_iff]
      intro x hx
      obtain ⟨p, hp, rfl⟩ := List.mem_map.1 hx
      rw [(hdps p hp).2]
      exact Bool.false_ne_true
    have hyes' : (ops.map fun p => Term.node (.iri p)).filter
        (not ∘ fun p => R.isA .objectProperty p) = [] := by
      rw [List.filter_eq_nil_iff]
      intro x hx
      obtain ⟨p, hp, rfl⟩ := List.mem_map.1 hx
      simp [show R.isA .objectProperty (.node (.iri p)) = true from hops p hp]
    have hno' : (dps.map fun p => Term.node (.iri p)).filter
        (not ∘ fun p => R.isA .objectProperty p) = dps.map fun p => .node (.iri p) := by
      rw [List.filter_eq_self]
      intro x hx
      obtain ⟨p, hp, rfl⟩ := List.mem_map.1 hx
      simp [(hdps p hp).2]
    rw [List.partition_eq_filter_filter, List.map_append, List.filter_append,
      List.filter_append, hyes, hno, hyes', hno', List.append_nil, List.nil_append]
  have hall : (dps.map fun p => Term.node (.iri p)).all (fun p => R.isA .dataProperty p) =
      true := by
    rw [List.all_eq_true]
    intro x hx
    obtain ⟨p, hp, rfl⟩ := List.mem_map.1 hx
    exact (hdps p hp).1
  unfold key
  refine hlist.bind ?_
  rw [hparts]
  dsimp only
  rw [hall]
  have hnamed : ∀ ps : List Iri, Yields ((ps.map fun p => .node (.iri p)).mapM named) ps [] :=
    fun ps => yields_mapM_map fun _ => yields_named
  exact hc.bind_last ((hnamed ops).bind_nil (hnamed dps).map)

/-- A negative assertion is read from what is said of its node. -/
theorem yields_negativeAssertion {root source : Node} {target : Term} {c : Iri}
    (h : R.triples.Tells root [.typing root c, ⟨root, .owl .sourceIndividual, source⟩,
      ⟨root, .owl .assertionProperty, .node (.iri p)⟩,
      ⟨root, if target.isLiteral then .owl .targetValue else .owl .targetIndividual, target⟩]) :
    Yields (R.negativeAssertion root) (.negativePropertyAssertion p source target)
      [⟨root, .owl .sourceIndividual, source⟩, ⟨root, .owl .assertionProperty, .node (.iri p)⟩,
        ⟨root, if target.isLiteral then .owl .targetValue else .owl .targetIndividual,
          target⟩] := by
  have hsource := h.object?_eq (p := .owl .sourceIndividual) (o := .node source) (by decide)
    (by simp) (by cases target <;> simp [Triple.typing, Term.isLiteral])
  have hproperty := h.object?_eq (p := .owl .assertionProperty) (o := .node (.iri p)) (by decide)
    (by simp) (by cases target <;> simp [Triple.typing, Term.isLiteral])
  refine (yields_required hsource).bind ((yields_required hproperty).bind ?_)
  refine yields_individual.bind_nil (yields_named.bind_nil ?_)
  cases target with
  | node n =>
    have htarget := h.object?_eq (p := .owl .targetIndividual) (o := .node n) (by decide)
      (by simp [Term.isLiteral]) (by simp [Triple.typing, Term.isLiteral])
    have hyes := h.hasProperty (p := .owl .targetIndividual) (o := .node n)
      (by simp [Term.isLiteral])
    rw [hyes]
    exact (yields_required htarget).bind_last yields_individual.map
  | literal l =>
    have htarget := h.object?_eq (p := .owl .targetValue) (o := .literal l) (by decide)
      (by simp [Term.isLiteral]) (by simp [Triple.typing, Term.isLiteral])
    have hno := h.not_hasProperty (p := .owl .targetIndividual) (by decide)
      (by simp [Triple.typing, Term.isLiteral])
    rw [Bool.eq_false_iff.2 hno]
    exact (yields_required htarget).bind_last yields_literal.map

/-- What a predicate that can annotate asserts. -/
theorem statement_of_canAnnotate (hp : p.canAnnotate = true) : R.statement ⟨s, p, o⟩ =
    if R.triples.hasType s (.owl .Ontology) then failure
    else statement.plain (R.assertion s p o) := by
  have hne : ∀ w : Iri, w.canAnnotate = false → p ≠ w := by
    rintro w hw rfl
    rw [hp] at hw
    cases hw
  unfold statement
  dsimp only
  split
  case isTrue => rfl
  case isFalse =>
    split
    case h_16 => rw [if_pos hp]
    all_goals exact absurd rfl (hne _ (by decide))

end Source

open Source

namespace Axiom

variable {ax : Axiom} {d d₁ d₂ d' : Draft} {anchor : Anchor} {ts us : List Triple} {s n : Node}
  {p c : Iri} {o : Term}

/-- An axiom of one triple is written by writing the triple. -/
theorem encodePlain_eq_ok_iff : encodePlain s p o d = .ok (anchor, d') ↔
    ⟨⟨s, p, o⟩, false⟩ = anchor ∧ ⟨d.supply, d.triples ++ [⟨s, p, o⟩]⟩ = d' := by
  have h : encodePlain s p o d = .ok (⟨⟨s, p, o⟩, false⟩, ⟨d.supply, d.triples ++ [⟨s, p, o⟩]⟩) :=
    rfl
  rw [h, Except.ok.injEq, Prod.mk.injEq]

/-- The node of an axiom is the next one, and its type is the main triple. -/
theorem encodeRoot_eq_ok_iff : encodeRoot c d = .ok ((n, anchor), d') ↔
    d.supply.head = n ∧ ⟨.typing d.supply.head c, true⟩ = anchor ∧
      ⟨d.supply.tail, d.triples ++ [.typing d.supply.head c]⟩ = d' := by
  have h : encodeRoot c d = .ok ((d.supply.head, ⟨.typing d.supply.head c, true⟩),
      ⟨d.supply.tail, d.triples ++ [.typing d.supply.head c]⟩) := rfl
  rw [h, Except.ok.injEq, Prod.mk.injEq, Prod.mk.injEq, and_assoc]

/-- A group is written as its node, the list of its members, and the triple that leads to the
list. -/
theorem exists_list_of_encodeGroup {xs : List Term} (h : encodeGroup c xs d = .ok (anchor, d')) :
    ∃ n d₁ list d₂, encodeRoot c d = .ok ((n, anchor), d₁) ∧ encodeList xs d₁ = .ok (list, d₂) ∧
      d' = ⟨d₂.supply, d₂.triples ++ [⟨n, .owl .members, list⟩]⟩ := by
  obtain ⟨⟨n, _⟩, d₁, hroot, h⟩ := bind_eq_ok_iff.1 h
  obtain ⟨list, d₂, hlist, h⟩ := bind_eq_ok_iff.1 h
  obtain ⟨_, d₃, hemit, h⟩ := bind_eq_ok_iff.1 h
  obtain rfl := emit_eq_ok_iff.1 hemit
  obtain ⟨rfl, rfl⟩ := pure_eq_ok_iff.1 h
  exact ⟨n, d₁, list, d₂, hroot, hlist, rfl⟩

/-- A negative assertion is written as its node and three triples about it. -/
theorem exists_root_of_negation {source : Node} {target : Term}
    (h : (Axiom.negativePropertyAssertion p source target).encode d = .ok (anchor, d')) :
    ∃ n d₁, encodeRoot (.owl .NegativePropertyAssertion) d = .ok ((n, anchor), d₁) ∧
      d' = ⟨d₁.supply, d₁.triples ++ [⟨n, .owl .sourceIndividual, .node source⟩,
        ⟨n, .owl .assertionProperty, .node (.iri p)⟩,
        ⟨n, if target.isLiteral then .owl .targetValue else .owl .targetIndividual, target⟩]⟩ := by
  delta Axiom.encode at h
  dsimp only at h
  obtain ⟨⟨n, _⟩, d₁, hroot, h⟩ := bind_eq_ok_iff.1 h
  obtain ⟨_, d₂, hemit, h⟩ := bind_eq_ok_iff.1 h
  obtain rfl := emit_eq_ok_iff.1 hemit
  obtain ⟨_, d₃, hemit, h⟩ := bind_eq_ok_iff.1 h
  obtain rfl := emit_eq_ok_iff.1 hemit
  obtain ⟨_, d₄, hemit, h⟩ := bind_eq_ok_iff.1 h
  obtain rfl := emit_eq_ok_iff.1 hemit
  obtain ⟨rfl, rfl⟩ := pure_eq_ok_iff.1 h
  exact ⟨n, d₁, hroot, by simp⟩

/-- An axiom without a node of its own is written if its parts are and the reader, which goes by
the predicate, finds the axiom. -/
theorem Written.of_plain (h : encodePlain s p o d₁ = .ok (anchor, d')) (hts : d.Grows d₁ ts)
    (hsubject : d.supply.Makes d₁.supply s → p.attaches = true)
    (hread : ∀ R : Source, R.triples.NilEnds → ax.ReadableIn R →
      R.triples.hasType s (.owl .Ontology) = false →
      R.triples.Holds d.supply d₁.supply (some s) ts →
      Yields (R.statement ⟨s, p, o⟩) (ax, false) ts ∧ ∀ t ∈ ts, R.Mute t) :
    ax.Written d d' anchor ts := by
  obtain ⟨rfl, rfl⟩ := encodePlain_eq_ok_iff.1 h
  refine ⟨hts.toCovers, fun t => ?_, hts.reifies, (fun h => by cases h), (fun h => by cases h),
    fun _ => hsubject, ?_⟩
  · simp only [List.mem_append, hts.mem_iff, List.mem_singleton]
    tauto
  · intro R hnil hfits hheader hR
    exact hread R hnil hfits hheader hR

/-- An axiom that is one triple. -/
theorem Written.of_single (h : encodePlain s p o d = .ok (anchor, d'))
    (hread : ∀ R : Source, ax.ReadableIn R → R.triples.hasType s (.owl .Ontology) = false →
      Yields (R.statement ⟨s, p, o⟩) (ax, false) []) : ax.Written d d' anchor [] := by
  refine .of_plain h (.refl d) (fun hmade => absurd hmade Supply.not_makes_refl) ?_
  intro R _ hfits hheader _
  exact ⟨hread R hfits hheader, by simp⟩

/-- An axiom about two class expressions. -/
theorem exists_written_of_pair {c e : ClassExpr} {n m : Node} (hc : c.encode d = .ok (n, d₁))
    (he : e.encode d₁ = .ok (m, d₂)) (h : encodePlain n p (.node m) d₂ = .ok (anchor, d'))
    (hp : p.attaches = true)
    (hfits : ∀ R, ax.ReadableIn R → c.ReadableIn R ∧ e.ReadableIn R)
    (hread : ∀ (R : Source) (ts us : List Triple), ax.ReadableIn R →
      R.triples.hasType n (.owl .Ontology) = false → (∀ i, n = .iri i → c = .named i) →
      Yields (R.classExpr (.node n)) c ts → Yields (R.classExpr (.node m)) e us →
      Yields (R.statement ⟨n, p, .node m⟩) (ax, false) (ts ++ us)) :
    ∃ ts, ax.Written d d' anchor ts := by
  obtain ⟨ts, hts, hn, hreadc⟩ := recovers_classExpr c hc
  obtain ⟨us, hus, -, hreade⟩ := recovers_classExpr e he
  have hnamed : ∀ i, n = .iri i → c = .named i := by
    rintro i rfl
    rcases hn with ⟨j, rfl, hj⟩ | hmade
    · cases hj
      rfl
    · exact absurd hmade Supply.not_makes_iri
  have hlater : ¬ d₁.supply.Makes d₂.supply n := by
    refine Supply.not_makes_later (fun hblank => ?_) hts.toPrecedes
    rcases hn with ⟨i, -, rfl⟩ | hmade
    · cases hblank
    · exact hmade
  refine ⟨_, .of_plain h (hts.append hus) (fun _ => hp) fun R hnil hax hheader hR => ?_⟩
  obtain ⟨hyields, hmute⟩ := hreadc R hnil (hfits R hax).1 (hR.left hts.toCovers hus.toCovers)
  have hright := hR.right hts.toCovers (by
    rintro r ⟨⟩
    exact hlater)
  obtain ⟨hyields', hmute'⟩ := hreade R hnil (hfits R hax).2 hright.except
  refine ⟨?_, fun t ht => (List.mem_append.1 ht).elim (hmute t) (hmute' t)⟩
  exact hread R ts us hax hheader hnamed (hyields [] (by simp)) (hyields' [] (by simp))

/-- An axiom about a named subject and one part. -/
theorem exists_written_of_part {α : Type} {i : Iri} {a : α} {readable : Source → Prop}
    {read : Source → List Node → Reading α} (hts : d.Grows d₁ ts)
    (hrec : Recovers d.supply d₁.supply none ts readable read a)
    (h : encodePlain (.iri i) p o d₁ = .ok (anchor, d'))
    (hfits : ∀ R, ax.ReadableIn R → readable R)
    (hread : ∀ R : Source, ax.ReadableIn R →
      R.triples.hasType (.iri i) (.owl .Ontology) = false → Yields (read R []) a ts →
      Yields (R.statement ⟨.iri i, p, o⟩) (ax, false) ts) :
    ∃ ts, ax.Written d d' anchor ts := by
  refine ⟨ts, .of_plain h hts (fun hmade => absurd hmade Supply.not_makes_iri) ?_⟩
  intro R hnil hax hheader hR
  obtain ⟨hyields, hmute⟩ := hrec R hnil (hfits R hax) (hR.of_not_makes Supply.not_makes_iri)
  exact ⟨hread R hax hheader (hyields [] (by simp)), hmute⟩

/-- Items that read back, in a list. -/
theorem recovers_list {α : Type} {ns : List Term} {list : Term} {as : List α}
    {readable : Source → Prop} {item : Source → List Node → Term → Reading α}
    (hts : d.Grows d₁ ts)
    (hrec : Recovers d.supply d₁.supply none ts readable
      (fun R within => ns.mapM (item R within)) as)
    (hlist : encodeList ns d₁ = .ok (list, d₂)) :
    ∃ us, d.Grows d₂ us ∧ Recovers d.supply d₂.supply none us
      (fun R => readable R ∧ ns.length ≤ R.settings.listLimit)
      (fun R within => R.list list >>= fun xs => xs.mapM (item R within)) as := by
  obtain ⟨cells, hcells, hpred, hread⟩ := yields_list_of_encodeList hlist
  refine ⟨ts ++ cells, hts.append hcells, fun R hnil hfits hR => ?_⟩
  obtain ⟨hyields, hmute⟩ := hrec R hnil hfits.1 (hR.left hts.toCovers hcells.toCovers)
  have hlist' := hread R hnil (hR.right hts.toCovers (by simp)) hfits.2
  refine ⟨fun within hwithin => ?_, fun t ht => ?_⟩
  · refine Yields.congr _ (hlist'.bind (hyields within ?_)) ?_
    · intro n hn hmade
      exact hwithin n hn (hmade.mono .refl hcells.toPrecedes)
    · intro t
      rw [List.mem_append, List.mem_append, or_comm]
  · exact (List.mem_append.1 ht).elim (hmute t) fun ht => mute_of_cell (hpred t ht)

/-- An axiom with a node of its own is written if the parts before the node and those inside of it
are, and the reader, which goes by the type, finds the axiom in what is said of the node. -/
theorem Written.of_root {inner own : List Triple} {d₃ : Draft} (hearly : d.Grows d₁ ts)
    (h : encodeRoot c d₁ = .ok ((n, anchor), d₂)) (hinner : d₂.Grows d₃ inner)
    (hd' : d' = ⟨d₃.supply, d₃.triples ++ own⟩) (hc : c ∈ Source.structuralTypes)
    (hown : ∀ t ∈ own, t.subject = n) (hencoding : ∀ t ∈ own, t.predicate ∈ encodingPredicates)
    (hread : ∀ R : Source, R.triples.NilEnds → ax.ReadableIn R →
      R.triples.hasType n (.owl .Ontology) = false → R.triples.Tells n (.typing n c :: own) →
      R.triples.Holds d.supply d₁.supply none ts →
      R.triples.Holds d₂.supply d₃.supply none inner →
      Yields (R.statement (.typing n c)) (ax, true) (ts ++ own ++ inner) ∧
        ∀ t ∈ ts ++ inner, R.Mute t) :
    ax.Written d d' anchor (ts ++ own ++ inner) := by
  obtain ⟨rfl, rfl, rfl⟩ := encodeRoot_eq_ok_iff.1 h
  subst hd'
  have hown' : ∀ t ∈ .typing d₁.supply.head c :: own, t.subject = d₁.supply.head := by
    rintro t (_ | ⟨_, ht⟩)
    · rfl
    · exact hown t ht
  have hmade : d.supply.Makes d₃.supply d₁.supply.head :=
    (Supply.makes_head hinner.toPrecedes).mono hearly.toPrecedes .refl
  have hkinds : ∀ q ∈ encodingPredicates, q ≠ .owl .annotatedSource ∧ q.canAnnotate = false := by
    decide
  refine ⟨hearly.toCovers.build hown hinner.toCovers, fun t => ?_, fun t ht => ?_,
    fun _ => ⟨hmade, c, hc, rfl⟩, fun _ t ht hsubject => ?_, (fun h => nomatch h), ?_⟩
  · simp only [List.mem_append, hinner.mem_iff, hearly.mem_iff, List.mem_singleton]
    tauto
  · simp only [List.mem_append] at ht
    rcases ht with (ht | ht) | ht
    · exact hearly.reifies t ht
    · simp [Triple.reifies, (hkinds _ (hencoding t ht)).1]
    · exact hinner.reifies t ht
  · -- the parts are about nodes taken before this one or after it
    simp only [List.mem_append] at ht
    rcases ht with (ht | ht) | ht
    · exact absurd hsubject ((hearly.subjects t ht).ne_head hearly.toPrecedes)
    · exact (hkinds _ (hencoding t ht)).2
    · have hlater := hinner.subjects t ht
      rw [hsubject] at hlater
      exact absurd hlater (Supply.makes_head_tail.not_later Supply.precedes_tail .refl)
  · intro R hnil hax hheader hR
    have hR' : R.triples.Holds d.supply d₃.supply (some d₁.supply.head)
        (ts ++ (.typing d₁.supply.head c :: own) ++ inner) := by
      refine hR.congr fun t => ?_
      simp only [↓reduceIte, List.mem_append, List.mem_cons]
      tauto
    obtain ⟨hyields, hmute⟩ := hread R hnil hax hheader
      (hR'.tells hearly.toCovers hinner.toCovers)
      (hR'.before hearly.toCovers hown' hinner.toCovers) (hR'.inside hearly.toCovers hown')
    refine ⟨hyields, fun t ht => ?_⟩
    simp only [List.mem_append] at ht hmute
    rcases ht with (ht | ht) | ht
    · exact hmute t (Or.inl ht)
    · exact mute_of_mem_encodingPredicates (hencoding t ht)
    · exact hmute t (Or.inr ht)

/-- An axiom with a node that groups its members. -/
theorem exists_written_of_group {xs : List Term} (hearly : d.Grows d₁ ts)
    (h : encodeGroup c xs d₁ = .ok (anchor, d')) (hc : c ∈ Source.structuralTypes)
    (hread : ∀ R : Source, R.triples.NilEnds → ax.ReadableIn R →
      R.triples.Holds d.supply d₁.supply none ts →
      xs.length ≤ R.settings.listLimit ∧ (∀ t ∈ ts, R.Mute t) ∧
      ∀ (root : Node) (list : Term) (cells : List Triple),
        R.triples.hasType root (.owl .Ontology) = false →
        R.triples.hasProperty root (.owl .members) = true →
        Yields (R.required root (.owl .members)) list [⟨root, .owl .members, list⟩] →
        Yields (R.list list) xs cells →
        Yields (R.statement (.typing root c)) (ax, true)
          ([⟨root, .owl .members, list⟩] ++ (cells ++ ts))) :
    ∃ us, ax.Written d d' anchor us := by
  obtain ⟨root, d₂, list, d₃, hroot, hlist, hd'⟩ := exists_list_of_encodeGroup h
  obtain ⟨cells, hcells, hpred, hreadCells⟩ := yields_list_of_encodeList hlist
  refine ⟨_, .of_root hearly hroot hcells hd' hc (by simp) (by simp [encodingPredicates]) ?_⟩
  intro R hnil hax hheader htells hbefore hinside
  obtain ⟨hlen, hmute, hread⟩ := hread R hnil hax hbefore
  have hmembers := htells.hasProperty (p := .owl .members) (o := list) (by simp)
  have hobject := htells.object?_eq (p := .owl .members) (o := list) (by decide) (by simp)
    (by simp [Triple.typing])
  refine ⟨Yields.congr _ (hread root list cells hheader hmembers (yields_required hobject)
    (hreadCells R hnil hinside hlen)) fun t => ?_, fun t ht => ?_⟩
  · simp only [List.mem_append]
    tauto
  · exact (List.mem_append.1 ht).elim (hmute t) fun ht => mute_of_cell (hpred t ht)

/-- What was written below an expression can be read wherever the expression stands. -/
theorem recovers_of_some {α : Type} {n : Node} {sp sp' : Supply} {readable : Source → Prop}
    {read : Source → List Node → Reading α} {a : α}
    (h : Recovers sp sp' (some n) ts readable read a) : Recovers sp sp' none ts readable read a :=
  fun R hnil hfits hR => h R hnil hfits hR.except

/-- A negative assertion is written on a node of its own. -/
theorem exists_written_of_negation {source : Node} {target : Term}
    (h : (Axiom.negativePropertyAssertion p source target).encode d = .ok (anchor, d')) :
    ∃ ts, (Axiom.negativePropertyAssertion p source target).Written d d' anchor ts := by
  obtain ⟨root, d₁, hroot, hd'⟩ := exists_root_of_negation h
  refine ⟨_, .of_root (.refl d) hroot (.refl d₁) hd' (by decide) (by simp) ?_ ?_⟩
  · cases target <;> simp [Term.isLiteral, encodingPredicates]
  · intro R _ _ hheader htells _ _
    refine ⟨yields_statement hheader rfl (Yields.map ?_), by simp⟩
    rw [List.nil_append, List.append_nil]
    exact yields_negativeAssertion htells

/-- An equivalence of two classes is read as one, as its first class is no datatype. -/
theorem exists_written_of_equivalentClasses {cs : List ClassExpr}
    (h : (Axiom.equivalentClasses cs).encode d = .ok (anchor, d')) :
    ∃ ts, (Axiom.equivalentClasses cs).Written d d' anchor ts := by
  match cs, h with
  | [], h => cases h
  | [_], h => cases h
  | _ :: _ :: _ :: _, h => cases h
  | [c, e], h =>
    delta Axiom.encode at h
    dsimp only at h
    obtain ⟨n, d₁, hc, h⟩ := bind_eq_ok_iff.1 h
    obtain ⟨m, d₂, he, h⟩ := bind_eq_ok_iff.1 h
    refine exists_written_of_pair hc he h (by decide) (fun R hfits => ⟨hfits.1.1, hfits.1.2.1⟩) ?_
    intro R ts us hfits hheader hnamed hyields hyields'
    refine yields_statement hheader rfl (yields_plain ?_)
    have hclass : (n.isNamed && R.isA .datatype (.node n) && !R.isA .owlClass (.node n)) =
        false := by
      cases n with
      | blank b => rfl
      | iri i =>
        obtain rfl := hnamed i rfl
        rcases hfits.2 i [e] rfl with hyes | hno
        · simp [hyes]
        · simp [hno]
    unfold equivalence
    rw [hclass]
    exact hyields.bind hyields'.map

/-- Two disjoint classes are written as a pair, and more as a group. -/
theorem exists_written_of_disjointClasses {cs : List ClassExpr}
    (h : (Axiom.disjointClasses cs).encode d = .ok (anchor, d')) :
    ∃ ts, (Axiom.disjointClasses cs).Written d d' anchor ts := by
  match cs, h with
  | [], h => cases h
  | [_], h => cases h
  | [c, e], h =>
    delta Axiom.encode at h
    dsimp only at h
    obtain ⟨n, d₁, hc, h⟩ := bind_eq_ok_iff.1 h
    obtain ⟨m, d₂, he, h⟩ := bind_eq_ok_iff.1 h
    refine exists_written_of_pair hc he h (by decide) (fun R hfits => ⟨hfits.1.1, hfits.1.2.1⟩) ?_
    intro R ts us _ hheader _ hyields hyields'
    refine yields_statement hheader rfl (yields_plain ?_)
    exact hyields.bind hyields'.map
  | c :: e :: f :: cs, h =>
    delta Axiom.encode at h
    dsimp only at h
    obtain ⟨_, _, hleast, h⟩ := bind_eq_ok_iff.1 h
    obtain ⟨-, rfl⟩ := atLeast_eq_ok_iff.1 hleast
    obtain ⟨ns, d₁, hns, h⟩ := bind_eq_ok_iff.1 h
    obtain ⟨ts, hts, hlen, hrec⟩ := recovers_classExprs _ hns
    refine exists_written_of_group hts h (by decide) ?_
    intro R hnil hfits hR
    obtain ⟨hyields, hmute⟩ := hrec R hnil hfits.1 hR
    refine ⟨hlen ▸ hfits.2 (by simp), hmute, ?_⟩
    intro root list cells hheader _ hmembers hlist
    refine yields_statement hheader rfl (Yields.map ?_)
    exact hmembers.bind (hlist.bind (hyields [] (by simp)).map)

/-- A disjoint union that was encoded is written: a list at the class. -/
theorem exists_written_of_disjointUnion {c : Iri} {parts : List ClassExpr}
    (h : (Axiom.disjointUnion c parts).encode d = .ok (anchor, d')) :
    ∃ ts, (Axiom.disjointUnion c parts).Written d d' anchor ts := by
  delta Axiom.encode at h
  dsimp only at h
  obtain ⟨_, _, hleast, h⟩ := bind_eq_ok_iff.1 h
  obtain ⟨-, rfl⟩ := atLeast_eq_ok_iff.1 hleast
  obtain ⟨ns, d₁, hns, h⟩ := bind_eq_ok_iff.1 h
  obtain ⟨list, d₂, hlist, h⟩ := bind_eq_ok_iff.1 h
  obtain ⟨ts, hts, hlen, hrec⟩ := recovers_classExprs parts hns
  obtain ⟨us, hus, hrec'⟩ := recovers_list hts hrec hlist
  refine exists_written_of_part hus hrec' h (fun R hfits => ⟨hfits.1, hlen ▸ hfits.2⟩) ?_
  intro R _ hheader hyields
  refine yields_statement hheader rfl (yields_plain ?_)
  refine yields_named.bind_nil ?_
  rw [← bind_assoc]
  exact hyields.map

/-- A sub-property axiom goes by the sort of the property below. -/
theorem exists_written_of_subObjectPropertyOf {sub super : ObjectPropertyExpr}
    (h : (Axiom.subObjectPropertyOf sub super).encode d = .ok (anchor, d')) :
    ∃ ts, (Axiom.subObjectPropertyOf sub super).Written d d' anchor ts := by
  delta Axiom.encode at h
  dsimp only at h
  obtain ⟨n, d₁, hsub, h⟩ := bind_eq_ok_iff.1 h
  obtain ⟨m, d₂, hsuper, h⟩ := bind_eq_ok_iff.1 h
  obtain ⟨ts, hts, hn, hrec, hsort⟩ := recovers_objectProperty hsub
  obtain ⟨us, hus, -, hrec', -⟩ := recovers_objectProperty hsuper
  refine ⟨_, .of_plain h (hts.append hus) (fun _ => by decide) ?_⟩
  intro R hnil hfits hheader hR
  have hleft := hR.left hts.toCovers hus.toCovers
  obtain ⟨hyields, hmute⟩ := hrec _ R hnil trivial hleft
  obtain ⟨hyields', hmute'⟩ := hrec' none R hnil trivial (hR.right hts.toCovers (by
    rintro r ⟨⟩
    exact Supply.not_makes_later hn hts.toPrecedes))
  refine ⟨?_, fun t ht => (List.mem_append.1 ht).elim (hmute t) (hmute' t)⟩
  refine yields_statement hheader rfl (yields_plain ?_)
  unfold subProperty sortOfEither?
  rw [hsort R hleft hfits]
  exact (hyields [] (by simp)).bind (hyields' [] (by simp)).map

/-- A property chain that was encoded is written: a list at the property. -/
theorem exists_written_of_subPropertyChainOf {chain : List ObjectPropertyExpr} {super : Iri}
    (h : (Axiom.subPropertyChainOf chain super).encode d = .ok (anchor, d')) :
    ∃ ts, (Axiom.subPropertyChainOf chain super).Written d d' anchor ts := by
  delta Axiom.encode at h
  dsimp only at h
  obtain ⟨_, _, hleast, h⟩ := bind_eq_ok_iff.1 h
  obtain ⟨-, rfl⟩ := atLeast_eq_ok_iff.1 hleast
  obtain ⟨ns, d₁, hns, h⟩ := bind_eq_ok_iff.1 h
  obtain ⟨list, d₂, hlist, h⟩ := bind_eq_ok_iff.1 h
  obtain ⟨ts, hts, hlen, hrec⟩ := recovers_objectProperties hns
  obtain ⟨us, hus, hrec'⟩ := recovers_list hts hrec hlist
  refine exists_written_of_part hus hrec' h (fun R hfits => ⟨trivial, hlen ▸ hfits⟩) ?_
  intro R _ hheader hyields
  refine yields_statement hheader rfl (yields_plain ?_)
  rw [← bind_assoc]
  exact hyields.bind_last yields_named.map

/-- An equivalence of properties that was encoded is written. -/
theorem exists_written_of_equivalentProperties {sort : PropertySort} {ps : List Iri}
    (h : (Axiom.equivalentProperties sort ps).encode d = .ok (anchor, d')) :
    ∃ ts, (Axiom.equivalentProperties sort ps).Written d d' anchor ts := by
  match ps, h with
  | [], h => cases h
  | [_], h => cases h
  | _ :: _ :: _ :: _, h => cases h
  | [p, q], h =>
    refine ⟨[], .of_single h fun R hfits hheader =>
      yields_statement hheader rfl (yields_plain ?_)⟩
    refine (yields_pairSort (hfits p rfl)).bind_nil ?_
    exact yields_named.bind_nil yields_named.map

/-- Disjoint properties are written as a pair or as a group too. -/
theorem exists_written_of_disjointProperties {sort : PropertySort} {ps : List Iri}
    (h : (Axiom.disjointProperties sort ps).encode d = .ok (anchor, d')) :
    ∃ ts, (Axiom.disjointProperties sort ps).Written d d' anchor ts := by
  match ps, h with
  | [], h => cases h
  | [_], h => cases h
  | [p, q], h =>
    refine ⟨[], .of_single h fun R hfits hheader =>
      yields_statement hheader rfl (yields_plain ?_)⟩
    refine (yields_pairSort (hfits.1 p rfl)).bind_nil ?_
    exact yields_named.bind_nil yields_named.map
  | p :: q :: r :: ps, h =>
    delta Axiom.encode at h
    dsimp only at h
    obtain ⟨_, _, hleast, h⟩ := bind_eq_ok_iff.1 h
    obtain ⟨-, rfl⟩ := atLeast_eq_ok_iff.1 hleast
    refine exists_written_of_group (.refl d) h (by decide) ?_
    intro R hnil hfits _
    refine ⟨?_, by simp, ?_⟩
    · rw [List.length_map]
      exact hfits.2 (by simp)
    · intro root list cells hheader _ hmembers hlist
      refine yields_statement hheader rfl (Yields.map ?_)
      refine hmembers.bind (hlist.bind ?_)
      have hps : Yields (((p :: q :: r :: ps).map fun p => .node (.iri p)).mapM named)
          (p :: q :: r :: ps) [] := yields_mapM_map fun _ => yields_named
      have hhead : ((p :: q :: r :: ps).map fun p => Term.node (.iri p)).head?.bind R.sortOf? =
          R.sortOf? (.node (.iri p)) := rfl
      rw [hhead, KnowsProperty.sortOf? (hfits.1 p rfl)]
      cases sort <;> exact hps.map

/-- A domain that was encoded is written, after its class expression. -/
theorem exists_written_of_propertyDomain {sort : PropertySort} {c : ClassExpr}
    (h : (Axiom.propertyDomain sort p c).encode d = .ok (anchor, d')) :
    ∃ ts, (Axiom.propertyDomain sort p c).Written d d' anchor ts := by
  delta Axiom.encode at h
  dsimp only at h
  obtain ⟨n, d₁, hc, h⟩ := bind_eq_ok_iff.1 h
  obtain ⟨ts, hts, -, hrec⟩ := recovers_classExpr c hc
  refine exists_written_of_part hts (recovers_of_some hrec) h (fun R hfits => hfits.2) ?_
  intro R hfits hheader hyields
  refine yields_statement hheader rfl (yields_plain ?_)
  unfold domain
  cases sort with
  | object =>
    rw [KnowsObjectProperty.sortOf? hfits.1]
    exact yields_named.bind_nil hyields.map
  | data =>
    rw [KnowsDataProperty.sortOf? hfits.1]
    exact yields_named.bind_nil hyields.map

/-- A range of an object property that was encoded is written, after its class expression. -/
theorem exists_written_of_objectPropertyRange {c : ClassExpr}
    (h : (Axiom.objectPropertyRange p c).encode d = .ok (anchor, d')) :
    ∃ ts, (Axiom.objectPropertyRange p c).Written d d' anchor ts := by
  delta Axiom.encode at h
  dsimp only at h
  obtain ⟨n, d₁, hc, h⟩ := bind_eq_ok_iff.1 h
  obtain ⟨ts, hts, -, hrec⟩ := recovers_classExpr c hc
  refine exists_written_of_part hts (recovers_of_some hrec) h (fun R hfits => hfits.2) ?_
  intro R hfits hheader hyields
  refine yields_statement hheader rfl (yields_plain ?_)
  unfold range
  rw [hfits.1.sortOf?]
  exact yields_named.bind_nil hyields.map

/-- A range of a data property that was encoded is written, after its data range. -/
theorem exists_written_of_dataPropertyRange {c : DataRange}
    (h : (Axiom.dataPropertyRange p c).encode d = .ok (anchor, d')) :
    ∃ ts, (Axiom.dataPropertyRange p c).Written d d' anchor ts := by
  delta Axiom.encode at h
  dsimp only at h
  obtain ⟨n, d₁, hc, h⟩ := bind_eq_ok_iff.1 h
  obtain ⟨ts, hts, hrec⟩ := recovers_dataRange c hc
  refine exists_written_of_part hts (recovers_of_some hrec) h (fun R hfits => hfits.2) ?_
  intro R hfits hheader hyields
  refine yields_statement hheader rfl (yields_plain ?_)
  unfold range
  rw [hfits.1.sortOf?]
  exact yields_named.bind_nil hyields.map

/-- A functional property is one of object properties if it is classified so. -/
theorem exists_written_of_objectCharacteristic {c : Characteristic}
    (h : (Axiom.objectCharacteristic c p).encode d = .ok (anchor, d')) :
    ∃ ts, (Axiom.objectCharacteristic c p).Written d d' anchor ts := by
  refine ⟨[], .of_single h fun R hfits hheader => ?_⟩
  cases c with
  | functional =>
    refine yields_statement hheader rfl ?_
    have hobject : R.isA .objectProperty (.node (.iri p)) = true := hfits rfl
    have hentity : R.entityTyping? p (.owl .FunctionalProperty) =
        some (.objectCharacteristic .functional p) := by
      simp [entityTyping?, hobject]
    have htyping : R.typing (.iri p) (.node (.iri (.owl .FunctionalProperty))) =
        pure (.objectCharacteristic .functional p, false) := by
      simp [typing, Node.iri?, hentity]
    show Yields (R.typing (.iri p) (.node (.iri (.owl .FunctionalProperty)))) _ _
    rw [htyping]
    exact yields_pure
  | inverseFunctional => exact yields_statement hheader rfl yields_pure
  | reflexive => exact yields_statement hheader rfl yields_pure
  | irreflexive => exact yields_statement hheader rfl yields_pure
  | symmetric => exact yields_statement hheader rfl yields_pure
  | asymmetric => exact yields_statement hheader rfl yields_pure
  | transitive => exact yields_statement hheader rfl yields_pure

/-- A functional data property that was encoded is written: one typing. -/
theorem exists_written_of_functionalDataProperty
    (h : (Axiom.functionalDataProperty p).encode d = .ok (anchor, d')) :
    ∃ ts, (Axiom.functionalDataProperty p).Written d d' anchor ts := by
  refine ⟨[], .of_single h fun R hfits hheader => ?_⟩
  obtain ⟨hdata, hobject⟩ := hfits
  refine yields_statement hheader rfl ?_
  have hentity : R.entityTyping? p (.owl .FunctionalProperty) =
      some (.functionalDataProperty p) := by
    simp [entityTyping?, hdata, hobject]
  have htyping : R.typing (.iri p) (.node (.iri (.owl .FunctionalProperty))) =
      pure (.functionalDataProperty p, false) := by
    simp [typing, Node.iri?, hentity]
  show Yields (R.typing (.iri p) (.node (.iri (.owl .FunctionalProperty)))) _ _
  rw [htyping]
  exact yields_pure

/-- A definition of a datatype that was encoded is written, after its data range. -/
theorem exists_written_of_datatypeDefinition {i : Iri} {range : DataRange}
    (h : (Axiom.datatypeDefinition i range).encode d = .ok (anchor, d')) :
    ∃ ts, (Axiom.datatypeDefinition i range).Written d d' anchor ts := by
  delta Axiom.encode at h
  dsimp only at h
  obtain ⟨n, d₁, hc, h⟩ := bind_eq_ok_iff.1 h
  obtain ⟨ts, hts, hrec⟩ := recovers_dataRange range hc
  refine exists_written_of_part hts (recovers_of_some hrec) h (fun R hfits => hfits.2) ?_
  intro R hfits hheader hyields
  refine yields_statement hheader rfl (yields_plain ?_)
  unfold equivalence
  rw [hfits.1.1, hfits.1.2]
  exact yields_named.bind_nil hyields.map

/-- An individual is typed with a class; one that is new is no individual. -/
theorem exists_written_of_classAssertion {c : ClassExpr} {a : Node}
    (h : (Axiom.classAssertion c a).encode d = .ok (anchor, d'))
    (hnew : ∀ n ∈ (Axiom.classAssertion c a).operands, ¬ d.supply.Makes d'.supply n) :
    ∃ ts, (Axiom.classAssertion c a).Written d d' anchor ts := by
  delta Axiom.encode at h
  dsimp only at h
  obtain ⟨n, d₁, hc, h⟩ := bind_eq_ok_iff.1 h
  obtain ⟨ts, hts, hn, hrec⟩ := recovers_classExpr c hc
  have hd' : d'.supply = d₁.supply := by
    obtain ⟨-, rfl⟩ := encodePlain_eq_ok_iff.1 h
    rfl
  have ha : ¬ d.supply.Makes d₁.supply a := by
    rw [← hd']
    exact hnew a (by simp [operands])
  refine ⟨ts, .of_plain h hts (fun hmade => absurd hmade ha) ?_⟩
  intro R hnil hfits hheader hR
  obtain ⟨hyields, hmute⟩ := hrec R hnil hfits.1 (hR.of_not_makes ha).except
  refine ⟨yields_statement hheader rfl ?_, hmute⟩
  have hclass := hyields [] (by simp)
  cases n with
  | iri i =>
    rcases hn with ⟨j, rfl, hj⟩ | hmade
    · cases hj
      have hnamed : Yields (R.classExprIn [] (.node (.iri i))) (.named i) [] := by
        rw [classExprIn]
        exact yields_pure
      refine Yields.congr _ ?_ fun t => hnamed.mem_iff hclass
      show Yields (R.typing a (.node (.iri i))) _ _
      rw [typing_named (hfits.2.2 i rfl) hfits.2.1]
      exact yields_pure
    · exact absurd hmade Supply.not_makes_iri
  | blank b =>
    show Yields (R.typing a (.node (.blank b))) _ _
    unfold typing
    rw [hfits.2.1]
    exact hclass.map

/-- Two different individuals are written as a pair, and more as a group. -/
theorem exists_written_of_differentIndividuals {as : List Node}
    (h : (Axiom.differentIndividuals as).encode d = .ok (anchor, d')) :
    ∃ ts, (Axiom.differentIndividuals as).Written d d' anchor ts := by
  match as, h with
  | [], h => cases h
  | [_], h => cases h
  | [a, b], h =>
    refine ⟨[], .of_single h fun R _ hheader => yields_statement hheader rfl (yields_plain ?_)⟩
    exact yields_individual.map
  | a :: b :: c :: as, h =>
    delta Axiom.encode at h
    dsimp only at h
    obtain ⟨_, _, hleast, h⟩ := bind_eq_ok_iff.1 h
    obtain ⟨-, rfl⟩ := atLeast_eq_ok_iff.1 hleast
    refine exists_written_of_group (.refl d) h (by decide) ?_
    intro R hnil hfits _
    refine ⟨?_, by simp, ?_⟩
    · rw [List.length_map]
      exact hfits (by simp)
    · intro root list cells hheader hyes hmembers hlist
      refine yields_statement hheader rfl (Yields.map ?_)
      have has : Yields (((a :: b :: c :: as).map Term.node).mapM individual)
          (a :: b :: c :: as) [] := yields_mapM_map fun _ => yields_individual
      unfold group
      rw [hyes]
      exact hmembers.bind (hlist.bind has.map)

/-- The properties of a key are one list, and are sorted again when it is read. -/
theorem exists_written_of_hasKey {c : ClassExpr} {ops dps : List Iri}
    (h : (Axiom.hasKey c ops dps).encode d = .ok (anchor, d')) :
    ∃ ts, (Axiom.hasKey c ops dps).Written d d' anchor ts := by
  delta Axiom.encode at h
  dsimp only at h
  split at h
  case isTrue => cases h
  obtain ⟨n, d₁, hc, h⟩ := bind_eq_ok_iff.1 h
  obtain ⟨list, d₂, hlist, h⟩ := bind_eq_ok_iff.1 h
  obtain ⟨ts, hts, hn, hrec⟩ := recovers_classExpr c hc
  obtain ⟨cells, hcells, hpred, hread⟩ := yields_list_of_encodeList hlist
  have hlater : ¬ d₁.supply.Makes d₂.supply n := by
    refine Supply.not_makes_later (fun hblank => ?_) hts.toPrecedes
    rcases hn with ⟨i, -, rfl⟩ | hmade
    · cases hblank
    · exact hmade
  refine ⟨_, .of_plain h (hts.append hcells) (fun _ => by decide) ?_⟩
  intro R hnil hfits hheader hR
  obtain ⟨hclass, hlen, hops, hdps⟩ := hfits
  obtain ⟨hyields, hmute⟩ := hrec R hnil hclass (hR.left hts.toCovers hcells.toCovers)
  have hcells' := hread R hnil (hR.right hts.toCovers (by
    rintro r ⟨⟩
    exact hlater)) (by rwa [List.length_map])
  constructor
  · refine yields_statement hheader rfl (yields_plain ?_)
    refine Yields.congr _ (yields_key hops hdps hcells' (hyields [] (by simp))) ?_
    intro t
    rw [List.mem_append, List.mem_append, or_comm]
  · intro t ht
    exact (List.mem_append.1 ht).elim (hmute t) fun ht => mute_of_cell (hpred t ht)

/-- An assertion of an annotation that was encoded is written: one triple. -/
theorem exists_written_of_annotationAssertion {subject : Node} {value : Term}
    (h : (Axiom.annotationAssertion p subject value).encode d = .ok (anchor, d')) :
    ∃ ts, (Axiom.annotationAssertion p subject value).Written d d' anchor ts := by
  refine ⟨[], .of_single h fun R hfits hheader => ?_⟩
  obtain ⟨hp, hsubject, hann, hobject, hdata⟩ := hfits
  refine yields_statement hheader (statement_of_canAnnotate hp) (yields_plain ?_)
  unfold assertion
  cases value with
  | node n =>
    rw [hsubject, hann]
    simp [Term.isLiteral, hobject]
    exact yields_pure
  | literal l =>
    rw [hsubject, hann]
    simp [Term.isLiteral, hdata]
    exact yields_pure

/-- An axiom that was written reads back from its main triple. -/
theorem exists_written_of_encode (h : ax.encode d = .ok (anchor, d'))
    (hnew : ∀ n ∈ ax.operands, ¬ d.supply.Makes d'.supply n) :
    ∃ ts, ax.Written d d' anchor ts := by
  cases ax with
  | declaration e =>
    refine ⟨[], .of_single h fun R _ hheader => yields_statement hheader rfl ?_⟩
    obtain ⟨kind, i⟩ := e
    cases kind <;> exact yields_pure
  | subClassOf sub super =>
    delta Axiom.encode at h
    dsimp only at h
    obtain ⟨n, d₁, hsub, h⟩ := bind_eq_ok_iff.1 h
    obtain ⟨m, d₂, hsuper, h⟩ := bind_eq_ok_iff.1 h
    refine exists_written_of_pair hsub hsuper h (by decide) (fun R hfits => hfits) ?_
    intro R ts us _ hheader _ hyields hyields'
    refine yields_statement hheader rfl (yields_plain ?_)
    exact hyields.bind hyields'.map
  | equivalentClasses cs => exact exists_written_of_equivalentClasses h
  | disjointClasses cs => exact exists_written_of_disjointClasses h
  | disjointUnion c parts => exact exists_written_of_disjointUnion h
  | subObjectPropertyOf sub super => exact exists_written_of_subObjectPropertyOf h
  | subPropertyChainOf chain super => exact exists_written_of_subPropertyChainOf h
  | subDataPropertyOf sub super =>
    refine ⟨[], .of_single h fun R hfits hheader =>
      yields_statement hheader rfl (yields_plain ?_)⟩
    unfold subProperty sortOfEither?
    rw [hfits.sortOf?]
    exact yields_named.bind_nil yields_named.map
  | equivalentProperties sort ps => exact exists_written_of_equivalentProperties h
  | disjointProperties sort ps => exact exists_written_of_disjointProperties h
  | propertyDomain sort p c => exact exists_written_of_propertyDomain h
  | objectPropertyRange p c => exact exists_written_of_objectPropertyRange h
  | dataPropertyRange p c => exact exists_written_of_dataPropertyRange h
  | inverseObjectProperties p q =>
    refine ⟨[], .of_single h fun R _ hheader => yields_statement hheader rfl (yields_plain ?_)⟩
    exact yields_named.bind_nil yields_named.map
  | objectCharacteristic c p => exact exists_written_of_objectCharacteristic h
  | functionalDataProperty p => exact exists_written_of_functionalDataProperty h
  | datatypeDefinition i range => exact exists_written_of_datatypeDefinition h
  | classAssertion c a => exact exists_written_of_classAssertion h hnew
  | propertyAssertion p source target =>
    refine ⟨[], .of_single h fun R hfits hheader => ?_⟩
    obtain ⟨hp, hsource, hsort⟩ := hfits
    refine yields_statement hheader (statement_of_canAnnotate ?_) (yields_plain ?_)
    · simp [Iri.canAnnotate, hp]
    · unfold assertion
      rw [hsource, hsort]
      exact yields_pure
  | negativePropertyAssertion p source target =>
    exact exists_written_of_negation h
  | sameIndividual as =>
    match as, h with
    | [], h => cases h
    | [_], h => cases h
    | _ :: _ :: _ :: _, h => cases h
    | [a, b], h =>
      refine ⟨[], .of_single h fun R _ hheader => yields_statement hheader rfl (yields_plain ?_)⟩
      exact yields_individual.map
  | differentIndividuals as => exact exists_written_of_differentIndividuals h
  | hasKey c ops dps => exact exists_written_of_hasKey h
  | annotationAssertion p subject value => exact exists_written_of_annotationAssertion h
  | subAnnotationPropertyOf sub super =>
    refine ⟨[], .of_single h fun R hfits hheader =>
      yields_statement hheader rfl (yields_plain ?_)⟩
    unfold subProperty sortOfEither?
    rw [hfits.sortOf?]
    exact yields_named.bind_nil yields_named.map
  | annotationPropertyDomain p c =>
    refine ⟨[], .of_single h fun R hfits hheader =>
      yields_statement hheader rfl (yields_plain ?_)⟩
    unfold domain
    rw [hfits.sortOf?]
    exact yields_named.bind_nil yields_named.map
  | annotationPropertyRange p c =>
    refine ⟨[], .of_single h fun R hfits hheader =>
      yields_statement hheader rfl (yields_plain ?_)⟩
    unfold range
    rw [hfits.sortOf?]
    exact yields_named.bind_nil yields_named.map

end Axiom

end Ontograph
