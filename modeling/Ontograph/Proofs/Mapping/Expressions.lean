import Ontograph.Proofs.Mapping.Lists
import Ontograph.Proofs.Mapping.Mute

/-!
# Writing and reading expressions

An expression that was written reads back from its node, and reading it gathers exactly the
triples that were written for it.  What this needs of the source is collected in `ReadableIn`: the
properties of restrictions are classified, lists are no longer than the limit, and no facet is a
property whose value could be read as an assertion.  Then none of the triples written for the
expression is read as an axiom.
-/

namespace Ontograph

open Reading Drafting

/-! ## What a source has to know -/

mutual

/-- The lists of the data range are within the limit, and its facets are no axioms. -/
def DataRange.ReadableIn (R : Source) : DataRange → Prop
  | .named _ => True
  | .junction _ ds => ds.length ≤ R.settings.listLimit ∧ DataRange.AllReadableIn R ds
  | .complement d => d.ReadableIn R
  | .oneOf values => values.length ≤ R.settings.listLimit
  | .restriction _ facets =>
    facets.length ≤ R.settings.listLimit ∧ ∀ f ∈ facets, R.KeepsQuiet f.1

/-- Each of the data ranges can be read. -/
def DataRange.AllReadableIn (R : Source) : List DataRange → Prop
  | [] => True
  | d :: ds => d.ReadableIn R ∧ DataRange.AllReadableIn R ds

end

mutual

/-- The properties of the class expression are classified, its lists are within the limit, and the
data ranges in it can be read. -/
def ClassExpr.ReadableIn (R : Source) : ClassExpr → Prop
  | .named _ => True
  | .junction _ cs => cs.length ≤ R.settings.listLimit ∧ ClassExpr.AllReadableIn R cs
  | .complement c => c.ReadableIn R
  | .oneOf members => members.length ≤ R.settings.listLimit
  | .objectValues _ p c | .objectQualified _ _ p c => R.KnowsObjectProperty p.base ∧ c.ReadableIn R
  | .objectHasValue p _ | .objectHasSelf p | .objectCardinality _ _ p =>
    R.KnowsObjectProperty p.base
  | .dataValues _ p d | .dataQualified _ _ p d => R.KnowsDataProperty p ∧ d.ReadableIn R
  | .dataHasValue p _ | .dataCardinality _ _ p => R.KnowsDataProperty p

/-- Each of the class expressions can be read. -/
def ClassExpr.AllReadableIn (R : Source) : List ClassExpr → Prop
  | [] => True
  | c :: cs => c.ReadableIn R ∧ ClassExpr.AllReadableIn R cs

end

/-! ## What is written for a part -/

/-- Wherever the triples hold, the part reads back from its node from these triples, and none of
them is read as an axiom.  A part is read inside of other nodes. -/
def Recovers {α : Type} (s s' : Supply) (root? : Option Node) (ts : List Triple)
    (readable : Source → Prop) (read : Source → List Node → Reading α) (a : α) : Prop :=
  ∀ R : Source, R.triples.NilEnds → readable R → R.triples.Holds s s' root? ts →
    (∀ within : List Node, (∀ n ∈ within, ¬ s.Makes s' n) → Yields (read R within) a ts) ∧
      ∀ t ∈ ts, R.Mute t

/-- A part that reads back, followed by parts that read back one after the other. -/
theorem Recovers.mapM_cons {α : Type} {d d₁ d' : Draft} {root? : Option Node} {ts us : List Triple}
    {x : Term} {xs : List Term} {a : α} {as : List α} {readable readable' : Source → Prop}
    {item : Source → List Node → Term → Reading α}
    (h : Recovers d.supply d₁.supply root? ts readable (fun R within => item R within x) a)
    (hts : d.Grows d₁ ts) (hus : d₁.Grows d' us)
    (h' : Recovers d₁.supply d'.supply none us readable'
      (fun R within => xs.mapM (item R within)) as) :
    Recovers d.supply d'.supply none (ts ++ us) (fun R => readable R ∧ readable' R)
      (fun R within => (x :: xs).mapM (item R within)) (a :: as) := by
  intro R hnil hfits hR
  obtain ⟨hyields, hmute⟩ := h R hnil hfits.1 (hR.left hts.toCovers hus.toCovers).except
  obtain ⟨hyields', hmute'⟩ := h' R hnil hfits.2 (hR.right hts.toCovers (by simp))
  refine ⟨fun within hwithin => ?_, fun t ht => (List.mem_append.1 ht).elim (hmute t) (hmute' t)⟩
  have hearly : ∀ n ∈ within, ¬ d.supply.Makes d₁.supply n :=
    fun n hn hmade => hwithin n hn (hmade.mono .refl hus.toPrecedes)
  have hlate : ∀ n ∈ within, ¬ d₁.supply.Makes d'.supply n :=
    fun n hn hmade => hwithin n hn (hmade.mono hts.toPrecedes .refl)
  exact (hyields within hearly).mapM_cons (hyields' within hlate)

namespace Source

variable {R : Source} {n : Node} {p c : Iri} {o : Term} {own : List Triple}

/-! ## Steps of reading at a node -/

/-- An object that must be there is read from its triple. -/
theorem yields_required (h : R.triples.object? n p = some o) :
    Yields (R.required n p) o [⟨n, p, o⟩] := by
  unfold required
  refine (yields_lift h).bind_nil ?_
  exact yields_gather.map (g := fun _ => o)

/-- A type that is there is read from its triple. -/
theorem yields_noteType (h : Triple.typing n c ∈ R.triples) :
    Yields (R.noteType n c) () [.typing n c] := by
  unfold noteType
  rw [if_pos (TripleSet.hasType_iff.2 h)]
  exact yields_gather

/-- An IRI reads as its name, from no triple. -/
theorem yields_named {i : Iri} : Yields (named (.node (.iri i))) i [] := yields_lift rfl

/-- A node reads as an individual, from no triple. -/
theorem yields_individual : Yields (individual (.node n)) n [] := yields_lift rfl

/-- A literal reads as itself, from no triple. -/
theorem yields_literal {l : Literal} : Yields (literal (.literal l)) l [] := yields_lift rfl

/-- A number that was written reads as that number, from no triple. -/
theorem yields_cardinality (k : UInt32) :
    Yields (cardinality (.literal (Literal.ofNat k.toNat))) k [] :=
  yields_lift (cardinality?_ofNat k)

/-- An object property expression that was written reads back. -/
theorem recovers_objectProperty {e : ObjectPropertyExpr} {d d' : Draft}
    (h : e.encode d = .ok (n, d')) : ∃ ts, d.Grows d' ts ∧
      (n.isBlank = true → d.supply.Makes d'.supply n) ∧
      (∀ root?, Recovers d.supply d'.supply root? ts (fun _ => True)
        (fun R _ => R.objectProperty (.node n)) e) ∧
      ∀ R : Source, R.triples.Holds d.supply d'.supply (some n) ts →
        R.KnowsObjectProperty e.base → R.sortOf? (.node n) = some .objectProperty := by
  cases e with
  | named p =>
    obtain ⟨rfl, rfl⟩ := pure_eq_ok_iff.1 h
    refine ⟨[], .refl _, (fun hn => nomatch hn),
      fun root? R _ _ _ => ⟨fun _ _ => yields_pure, by simp⟩, ?_⟩
    intro R _ hp
    exact hp.sortOf?
  | inverse p =>
    obtain ⟨_, d₁, hnode, h⟩ := bind_eq_ok_iff.1 h
    obtain ⟨rfl, rfl⟩ := fresh_eq_ok_iff.1 hnode
    obtain ⟨_, d₂, hemit, h⟩ := bind_eq_ok_iff.1 h
    obtain rfl := emit_eq_ok_iff.1 hemit
    obtain ⟨rfl, rfl⟩ := pure_eq_ok_iff.1 h
    have hgrows := Draft.grows_node (d := d)
      [⟨d.supply.head, .owl .inverseOf, .node (.iri p)⟩] (by simp)
      (by simp [Triple.reifies])
    refine ⟨_, hgrows, fun _ => Supply.makes_head_tail,
      fun root? R _ _ hR => ⟨fun _ _ => ?_, ?_⟩, ?_⟩
    · have hR' : R.triples.Holds d.supply d.supply.tail root?
          ([] ++ [⟨d.supply.head, .owl .inverseOf, .node (.iri p)⟩] ++ []) := hR
      have htells := hR'.tells (Supply.covers_nil .refl) (Supply.covers_nil .refl)
      have hobject := htells.object?_eq (p := .owl .inverseOf) (o := .node (.iri p)) (by decide)
        (by simp) (by simp)
      exact (yields_required hobject).bind (yields_named.map (g := ObjectPropertyExpr.inverse))
    · intro t ht
      obtain rfl := List.mem_singleton.1 ht
      exact mute_inverseOf rfl
    · intro R hR _
      have hmem : ⟨d.supply.head, .owl .inverseOf, .node (.iri p)⟩ ∈ R.triples :=
        hR.mem _ (by simp)
      have hyes := TripleSet.hasProperty_iff.2 ⟨_, hmem⟩
      unfold Supply.head at hyes ⊢
      simp [sortOf?, hyes]

/-- Object property expressions that were written one by one read back. -/
theorem recovers_objectProperties {es : List ObjectPropertyExpr} {d d' : Draft} {ns : List Term}
    (h : ObjectPropertyExpr.encodeAll es d = .ok (ns, d')) :
    ∃ ts, d.Grows d' ts ∧ ns.length = es.length ∧
      Recovers d.supply d'.supply none ts (fun _ => True)
        (fun R _ => ns.mapM R.objectProperty) es := by
  induction es generalizing d ns with
  | nil =>
    obtain ⟨rfl, rfl⟩ := pure_eq_ok_iff.1 h
    exact ⟨[], (.refl _), rfl, fun R _ _ _ => ⟨fun _ _ => yields_pure, by simp⟩⟩
  | cons e es ih =>
    obtain ⟨n, d₁, hn, h⟩ := bind_eq_ok_iff.1 h
    obtain ⟨ns, d₂, hns, h⟩ := bind_eq_ok_iff.1 h
    obtain ⟨rfl, rfl⟩ := pure_eq_ok_iff.1 h
    obtain ⟨ts, hts, -, hread, -⟩ := recovers_objectProperty hn
    obtain ⟨us, hus, hlen, hreads⟩ := ih hns
    have hcons := (hread none).mapM_cons hts hus hreads
    exact ⟨ts ++ us, hts.append hus, by simp [hlen],
      fun R hnil _ => hcons R hnil ⟨trivial, trivial⟩⟩

/-! ## Nodes with operands -/

/-- The triples of a cell are read as no axiom. -/
theorem mute_of_cell {t : Triple} (h : t.predicate = .rdf .first ∨ t.predicate = .rdf .rest) :
    R.Mute t := by
  refine mute_of_mem_encodingPredicates ?_
  rcases h with h | h
  · rw [h]
    decide
  · rw [h]
    decide

/-- A predicate of encodings is no type, attaches to no node from outside, and makes no node stand
for a triple. -/
theorem encodingPredicates_are_own : ∀ p ∈ encodingPredicates,
    p ≠ .rdf .type ∧ p.attaches = false ∧ p ≠ .owl .annotatedSource := by
  decide

/-- A node with a list of operands, written after the operands: they are read through the list,
and what is said of the node is its type and its list. -/
theorem exists_list_of_encode {xs : List Term} {d d₁ d' : Draft} {early : List Triple}
    (hearly : d.Grows d₁ early) (hc : c ∈ encodingTypes) (hp : p ∈ encodingPredicates)
    (h : (do
      let node ← freshOf c
      let list ← encodeList xs
      emit node p list
      return node : Drafting Node) d₁ = .ok (n, d')) :
    n = d₁.supply.head ∧ d₁.supply.tail.Precedes d'.supply ∧ ∃ list cells,
      d.Grows d' (early ++ [.typing n c, ⟨n, p, list⟩] ++ cells) ∧
      ∀ R : Source, R.triples.NilEnds → xs.length ≤ R.settings.listLimit →
        R.triples.Holds d.supply d'.supply (some n)
          (early ++ [.typing n c, ⟨n, p, list⟩] ++ cells) →
        R.triples.Holds d.supply d₁.supply none early ∧
        R.triples.Tells n [.typing n c, ⟨n, p, list⟩] ∧
        (∀ t ∈ [.typing n c, ⟨n, p, list⟩] ++ cells, R.Mute t) ∧
        ∀ {α : Type} (inner : Term → Reading α) (as : List α),
          Yields (xs.mapM inner) as early →
            Yields (R.operandsOf inner n p) as (⟨n, p, list⟩ :: (cells ++ early)) := by
  obtain ⟨_, d₂, hnode, h⟩ := bind_eq_ok_iff.1 h
  obtain ⟨rfl, rfl⟩ := freshOf_eq_ok_iff.1 hnode
  obtain ⟨list, d₃, hlist, h⟩ := bind_eq_ok_iff.1 h
  obtain ⟨_, d₄, hemit, h⟩ := bind_eq_ok_iff.1 h
  obtain rfl := emit_eq_ok_iff.1 hemit
  obtain ⟨rfl, rfl⟩ := pure_eq_ok_iff.1 h
  obtain ⟨cells, hcells, hpred, hread⟩ := yields_list_of_encodeList hlist
  have hown : ∀ t ∈ [Triple.typing d₁.supply.head c] ++ [⟨d₁.supply.head, p, list⟩],
      t.subject = d₁.supply.head := by simp
  have hreifies : ∀ t ∈ [Triple.typing d₁.supply.head c] ++ [⟨d₁.supply.head, p, list⟩],
      t.reifies = false := by
    simp [Triple.reifies, (encodingPredicates_are_own p hp).2.2]
  refine ⟨rfl, hcells.toPrecedes, list, cells, hearly.build hcells hown hreifies,
    fun R hnil hlen hR => ?_⟩
  have htells := hR.tells hearly.toCovers hcells.toCovers
  refine ⟨hR.before hearly.toCovers hown hcells.toCovers, htells, ?_, ?_⟩
  · intro t ht
    simp only [List.mem_append, List.mem_cons, List.not_mem_nil, or_false] at ht
    rcases ht with (rfl | rfl) | ht
    · exact mute_typing rfl hc
    · exact mute_of_mem_encodingPredicates hp
    · exact mute_of_cell (hpred t ht)
  · intro α inner as has
    obtain ⟨htype, hrel, -⟩ := encodingPredicates_are_own p hp
    have hobject := htells.object?_eq hrel (o := list) (by simp) (by simp [htype])
    unfold operandsOf
    refine (yields_required hobject).bind ?_
    exact (hread R hnil (hR.inside hearly.toCovers hown) hlen).bind has

/-- A node whose operands, in a list, read back. -/
theorem recovers_operands {α β : Type} {xs : List Term} {as : List α} {b : β}
    {d d₁ d' : Draft} {early : List Triple} {readable : Source → Prop}
    {item : Source → List Node → Term → Reading α} {read : Source → List Node → Reading β}
    (hearly : d.Grows d₁ early)
    (hrec : Recovers d.supply d₁.supply none early readable
      (fun R within => xs.mapM (item R within)) as)
    (hc : c ∈ encodingTypes) (hp : p ∈ encodingPredicates)
    (h : (do
      let node ← freshOf c
      let list ← encodeList xs
      emit node p list
      return node : Drafting Node) d₁ = .ok (n, d'))
    (hread : ∀ (R : Source) (within : List Node) (list : Term) (ts : List Triple),
      n.isBlank = true → n ∉ within → R.triples.Tells n [.typing n c, ⟨n, p, list⟩] →
      Yields (R.operandsOf (item R (n :: within)) n p) as ts →
      Yields (read R within) b ([.typing n c] ++ ts)) :
    d.supply.Makes d'.supply n ∧ ∃ ts, d.Grows d' ts ∧
      Recovers d.supply d'.supply (some n) ts
        (fun R => xs.length ≤ R.settings.listLimit ∧ readable R) read b := by
  obtain ⟨rfl, hafter, list, cells, hgrows, hnode⟩ := exists_list_of_encode hearly hc hp h
  have hmade := (Supply.makes_head hafter).mono hearly.toPrecedes .refl
  refine ⟨hmade, _, hgrows, fun R hnil hfits hR => ?_⟩
  obtain ⟨hearly', htells, hmute, hoperands⟩ := hnode R hnil hfits.1 hR
  obtain ⟨hyields, hmute'⟩ := hrec R hnil hfits.2 hearly'
  refine ⟨fun within hwithin => ?_, fun t ht => ?_⟩
  · obtain ⟨hnew, hwithin'⟩ := Supply.head_notMem hearly.toPrecedes hafter hwithin
    have hitems := hoperands (item R (_ :: within)) as (hyields _ hwithin')
    refine Yields.congr _ (hread R within list _ rfl hnew htells hitems) fun t => ?_
    simp only [List.mem_append, List.mem_cons, List.not_mem_nil, or_false]
    tauto
  · rw [List.append_assoc] at ht
    exact (List.mem_append.1 ht).elim (hmute' t) (hmute t)

/-- A node whose one operand reads back. -/
theorem recovers_operand {α β : Type} {a : α} {b : β} {d d₁ d' : Draft} {early : List Triple}
    {readable : Source → Prop} {item : Source → List Node → Reading α}
    {read : Source → List Node → Reading β} (hearly : d.Grows d₁ early)
    (hrec : Recovers d.supply d₁.supply none early readable item a)
    (hc : c ∈ encodingTypes) (hp : p ∈ encodingPredicates)
    (h : (do
      let node ← freshOf c
      emit node p o
      return node : Drafting Node) d₁ = .ok (n, d'))
    (hread : ∀ (R : Source) (within : List Node) (ts : List Triple),
      n.isBlank = true → n ∉ within → R.triples.Tells n [.typing n c, ⟨n, p, o⟩] →
      Yields (item R (n :: within)) a ts →
      Yields (read R within) b ([.typing n c] ++ ([⟨n, p, o⟩] ++ ts))) :
    d.supply.Makes d'.supply n ∧ ∃ ts, d.Grows d' ts ∧
      Recovers d.supply d'.supply (some n) ts readable read b := by
  obtain ⟨_, d₂, hnode, h⟩ := bind_eq_ok_iff.1 h
  obtain ⟨rfl, rfl⟩ := freshOf_eq_ok_iff.1 hnode
  obtain ⟨_, d₃, hemit, h⟩ := bind_eq_ok_iff.1 h
  obtain rfl := emit_eq_ok_iff.1 hemit
  obtain ⟨rfl, rfl⟩ := pure_eq_ok_iff.1 h
  have hown : ∀ t ∈ [Triple.typing d₁.supply.head c, ⟨d₁.supply.head, p, o⟩],
      t.subject = d₁.supply.head := by simp
  have hreifies : ∀ t ∈ [Triple.typing d₁.supply.head c, ⟨d₁.supply.head, p, o⟩],
      t.reifies = false := by
    simp [Triple.reifies, (encodingPredicates_are_own p hp).2.2]
  have hmade := Supply.makes_head_tail.mono hearly.toPrecedes .refl
  rw [List.append_assoc]
  refine ⟨hmade, _, hearly.node hown hreifies, fun R hnil hfits hR => ?_⟩
  obtain ⟨hearly', htells⟩ := hR.node hearly.toCovers hown
  obtain ⟨hyields, hmute⟩ := hrec R hnil hfits hearly'
  refine ⟨fun within hwithin => ?_, fun t ht => ?_⟩
  · obtain ⟨hnew, hwithin'⟩ := Supply.head_notMem hearly.toPrecedes .refl hwithin
    refine Yields.congr _ (hread R within _ rfl hnew htells (hyields _ hwithin')) fun t => ?_
    simp only [List.mem_append, List.mem_cons, List.not_mem_nil, or_false]
    tauto
  · simp only [List.mem_append, List.mem_cons, List.not_mem_nil, or_false] at ht
    rcases ht with ht | rfl | rfl
    · exact hmute t ht
    · exact mute_typing rfl hc
    · exact mute_of_mem_encodingPredicates hp

/-! ## Data ranges -/

/-- Facets that were written read back. -/
theorem recovers_facets {fs : List (Iri × Literal)} {d d' : Draft} {ns : List Term}
    (h : encodeFacets fs d = .ok (ns, d')) :
    ∃ ts, d.Grows d' ts ∧ ns.length = fs.length ∧
      Recovers d.supply d'.supply none ts (fun R => ∀ f ∈ fs, R.KeepsQuiet f.1)
        (fun R _ => ns.mapM R.facet) fs := by
  induction fs generalizing d ns with
  | nil =>
    obtain ⟨rfl, rfl⟩ := pure_eq_ok_iff.1 h
    exact ⟨[], (.refl _), rfl, fun R _ _ _ => ⟨fun _ _ => yields_pure, by simp⟩⟩
  | cons f fs ih =>
    obtain ⟨f, v⟩ := f
    obtain ⟨_, d₁, hnode, h⟩ := bind_eq_ok_iff.1 h
    obtain ⟨rfl, rfl⟩ := fresh_eq_ok_iff.1 hnode
    obtain ⟨_, d₂, hemit, h⟩ := bind_eq_ok_iff.1 h
    obtain rfl := emit_eq_ok_iff.1 hemit
    obtain ⟨ns, d₃, hns, h⟩ := bind_eq_ok_iff.1 h
    obtain ⟨rfl, rfl⟩ := pure_eq_ok_iff.1 h
    obtain ⟨us, hus, hlen, hreads⟩ := ih hns
    have hgrows := Draft.grows_node (d := d) [⟨d.supply.head, f, .literal v⟩] (by simp)
      (by simp [Triple.reifies, Term.isLiteral])
    refine ⟨[_] ++ us, hgrows.append hus, by simp [hlen], fun R hnil hquiet hR => ?_⟩
    have hmem : ⟨d.supply.head, f, .literal v⟩ ∈ R.triples := hR.mem _ (by simp)
    have honly : ∀ u ∈ R.triples, u.subject = d.supply.head →
        u = ⟨d.supply.head, f, .literal v⟩ := by
      intro u hu hn
      rw [← List.nil_append [_]] at hR
      have hown := hR.at_head (Supply.covers_nil .refl) hus.toCovers hu hn
      simpa using hown
    have hfacet : Yields (R.facet (.node d.supply.head)) (f, v)
        [⟨d.supply.head, f, .literal v⟩] := by
      unfold facet
      refine yields_individual.bind_nil ?_
      rw [TripleSet.outgoing_eq_singleton hmem honly]
      refine yields_literal.bind_nil ?_
      exact yields_gather.map (g := fun _ => (f, v))
    obtain ⟨hyields, hmute⟩ := hreads R hnil (fun g hg => hquiet g (List.mem_cons_of_mem _ hg))
      (hR.right hgrows.toCovers (by simp))
    refine ⟨fun within _ => hfacet.mapM_cons (hyields [] (by simp)), fun t ht => ?_⟩
    rcases List.mem_append.1 ht with ht | ht
    · obtain rfl := List.mem_singleton.1 ht
      exact mute_facet honly (hquiet _ List.mem_cons_self)
    · exact hmute t ht

/-- A data range is read from a described blank node that it is not inside of. -/
theorem yields_dataRangeIn {e : DataRange} {within : List Node} {ts : List Triple} {t : Triple}
    (ht : t ∈ R.triples) (hn : t.subject.isBlank = true) (hwithin : t.subject ∉ within)
    (h : Yields (R.dataRangeAt (fun x => R.dataRangeIn (t.subject :: within) x) t.subject) e ts) :
    Yields (R.dataRangeIn within (.node t.subject)) e ts := by
  obtain ⟨n, p, o⟩ := t
  cases n with
  | iri i => cases hn
  | blank b =>
    rw [dataRangeIn, dif_pos ⟨TripleSet.describes_iff.2 ⟨_, ht, rfl⟩, hwithin⟩]
    exact h

section DataRangeAt

variable {inner : Term → Reading DataRange} {list : Term} {ts : List Triple}

/-- A node with a list of operands is read as an intersection or a union of data ranges. -/
theorem yields_dataRangeAt_junction {j : Junction} {es : List DataRange}
    (htells : R.triples.Tells n [.typing n (.rdfs .Datatype), ⟨n, j.predicate, list⟩])
    (h : Yields (R.operandsOf inner n j.predicate) es ts) :
    Yields (R.dataRangeAt inner n) (.junction j es) ([.typing n (.rdfs .Datatype)] ++ ts) := by
  have htype := htells.mem _ List.mem_cons_self
  unfold dataRangeAt
  refine (yields_noteType htype).bind ?_
  cases j with
  | intersection =>
    have hyes := htells.hasProperty (p := .owl .intersectionOf) (o := list)
      (by simp [Junction.predicate])
    rw [if_pos hyes]
    exact h.map
  | union =>
    have hyes := htells.hasProperty (p := .owl .unionOf) (o := list)
      (by simp [Junction.predicate])
    have hno := htells.not_hasProperty (p := .owl .intersectionOf) (by decide)
      (by simp [Junction.predicate])
    rw [if_neg hno, if_pos hyes]
    exact h.map

/-- A node with a complement is read as the complement of that data range. -/
theorem yields_dataRangeAt_complement {e : DataRange}
    (htells : R.triples.Tells n [.typing n (.rdfs .Datatype), ⟨n, .owl .datatypeComplementOf, o⟩])
    (h : Yields (inner o) e ts) :
    Yields (R.dataRangeAt inner n) (.complement e)
      ([.typing n (.rdfs .Datatype)] ++ ([⟨n, .owl .datatypeComplementOf, o⟩] ++ ts)) := by
  have htype := htells.mem _ List.mem_cons_self
  have hobject := htells.object?_eq (p := .owl .datatypeComplementOf) (o := o) (by decide)
    (by simp) (by simp)
  have hyes := htells.hasProperty (p := .owl .datatypeComplementOf) (o := o) (by simp)
  unfold dataRangeAt
  refine (yields_noteType htype).bind ?_
  rw [if_neg (htells.not_hasProperty (by decide) (by simp)),
    if_neg (htells.not_hasProperty (by decide) (by simp)), if_pos hyes]
  exact (yields_required hobject).bind h.map

/-- A node with a list of literals is read as their enumeration. -/
theorem yields_dataRangeAt_oneOf {values : List Literal}
    (htells : R.triples.Tells n [.typing n (.rdfs .Datatype), ⟨n, .owl .oneOf, list⟩])
    (h : Yields (R.operandsOf literal n (.owl .oneOf)) values ts) :
    Yields (R.dataRangeAt inner n) (.oneOf values) ([.typing n (.rdfs .Datatype)] ++ ts) := by
  have htype := htells.mem _ List.mem_cons_self
  have hyes := htells.hasProperty (p := .owl .oneOf) (o := list) (by simp)
  unfold dataRangeAt
  refine (yields_noteType htype).bind ?_
  rw [if_neg (htells.not_hasProperty (by decide) (by simp)),
    if_neg (htells.not_hasProperty (by decide) (by simp)),
    if_neg (htells.not_hasProperty (by decide) (by simp)), if_pos hyes]
  exact h.map

/-- A restriction is what is left when a node has no operands of another kind. -/
theorem yields_dataRangeAt_restriction {i : Iri} {fs : List (Iri × Literal)}
    (htells : R.triples.Tells n [.typing n (.rdfs .Datatype),
      ⟨n, .owl .onDatatype, .node (.iri i)⟩, ⟨n, .owl .withRestrictions, list⟩])
    (h : Yields (R.list list >>= fun xs => xs.mapM R.facet) fs ts) :
    Yields (R.dataRangeAt inner n) (.restriction i fs)
      ([.typing n (.rdfs .Datatype)] ++ ([⟨n, .owl .onDatatype, .node (.iri i)⟩] ++
        ([⟨n, .owl .withRestrictions, list⟩] ++ ts))) := by
  have htype := htells.mem _ List.mem_cons_self
  have hdatatype := htells.object?_eq (p := .owl .onDatatype) (o := .node (.iri i)) (by decide)
    (by simp) (by simp)
  have hlist := htells.object?_eq (p := .owl .withRestrictions) (o := list) (by decide) (by simp)
    (by simp)
  unfold dataRangeAt
  refine (yields_noteType htype).bind ?_
  rw [if_neg (htells.not_hasProperty (by decide) (by simp)),
    if_neg (htells.not_hasProperty (by decide) (by simp)),
    if_neg (htells.not_hasProperty (by decide) (by simp)),
    if_neg (htells.not_hasProperty (by decide) (by simp))]
  refine (yields_required hdatatype).bind (yields_named.bind_nil (Yields.map ?_))
  unfold operandsOf
  exact (yields_required hlist).bind h

end DataRangeAt

/-! ## The constructors of data ranges -/

/-- However the data range is written, it reads back from its node. -/
def DataRangeReadsBack (e : DataRange) : Prop :=
  ∀ ⦃d d' : Draft⦄ ⦃n : Node⦄, e.encode d = .ok (n, d') → ∃ ts, d.Grows d' ts ∧
    Recovers d.supply d'.supply (some n) ts (fun R => e.ReadableIn R)
      (fun R within => R.dataRangeIn within (.node n)) e

/-- However the data ranges are written one by one, they read back. -/
def DataRangesReadBack (es : List DataRange) : Prop :=
  ∀ ⦃d d' : Draft⦄ ⦃ns : List Term⦄, DataRange.encodeAll es d = .ok (ns, d') →
    ∃ ts, d.Grows d' ts ∧ ns.length = es.length ∧
      Recovers d.supply d'.supply none ts (fun R => DataRange.AllReadableIn R es)
        (fun R within => ns.mapM fun x => R.dataRangeIn within x) es

section Constructors

variable {e : DataRange} {es : List DataRange}

/-- A datatype is its own node, and nothing is written for it. -/
theorem recovers_datatype {i : Iri} : DataRangeReadsBack (.named i) := by
  intro d d' n h
  obtain ⟨rfl, rfl⟩ := pure_eq_ok_iff.1 h
  refine ⟨[], (.refl _), fun R _ _ _ => ⟨fun within _ => ?_, by simp⟩⟩
  show Yields (R.dataRangeIn within (.node (.iri i))) _ _
  rw [dataRangeIn]
  exact yields_pure

/-- An intersection or a union of data ranges reads back if its operands do. -/
theorem recovers_dataJunction {j : Junction} (hes : DataRangesReadBack es) :
    DataRangeReadsBack (.junction j es) := by
  intro d d' n h
  rw [DataRange.encode] at h
  obtain ⟨_, _, hleast, h⟩ := bind_eq_ok_iff.1 h
  obtain ⟨-, rfl⟩ := atLeast_eq_ok_iff.1 hleast
  obtain ⟨ns, d₁, hns, h⟩ := bind_eq_ok_iff.1 h
  obtain ⟨early, hearly, hlen, hreads⟩ := hes hns
  have hp : j.predicate ∈ encodingPredicates := by cases j <;> decide
  obtain ⟨-, ts, hgrows, hrec⟩ := recovers_operands hearly hreads (by decide) hp h
    fun R within list ts hblank hnew htells hoperands =>
      yields_dataRangeIn (htells.mem _ List.mem_cons_self) hblank hnew
        (yields_dataRangeAt_junction htells hoperands)
  exact ⟨ts, hgrows, fun R hnil hfits => hrec R hnil ⟨hlen ▸ hfits.1, hfits.2⟩⟩

/-- The complement of a data range reads back if the data range does. -/
theorem recovers_dataComplement (he : DataRangeReadsBack e) :
    DataRangeReadsBack (.complement e) := by
  intro d d' n h
  rw [DataRange.encode] at h
  obtain ⟨m, d₁, hm, h⟩ := bind_eq_ok_iff.1 h
  obtain ⟨early, hearly, hread⟩ := he hm
  obtain ⟨-, hrec⟩ := recovers_operand hearly
    (fun R hnil hfits hR => hread R hnil hfits hR.except) (by decide) (by decide) h
    fun R within ts hblank hnew htells hoperand =>
      yields_dataRangeIn (htells.mem _ List.mem_cons_self) hblank hnew
        (yields_dataRangeAt_complement htells hoperand)
  exact hrec

/-- An enumeration of literals reads back. -/
theorem recovers_dataOneOf {vs : List Literal} : DataRangeReadsBack (.oneOf vs) := by
  intro d d' n h
  rw [DataRange.encode] at h
  obtain ⟨_, _, hleast, h⟩ := bind_eq_ok_iff.1 h
  obtain ⟨-, rfl⟩ := atLeast_eq_ok_iff.1 hleast
  have hvalues : Recovers d.supply d.supply none [] (fun _ => True)
      (fun _ _ => (vs.map Term.literal).mapM literal) vs :=
    fun R _ _ _ => ⟨fun _ _ => yields_mapM_map fun _ => yields_literal, by simp⟩
  obtain ⟨-, ts, hgrows, hrec⟩ := recovers_operands (.refl d) hvalues (by decide) (by decide) h
    fun R within list ts hblank hnew htells hoperands =>
      yields_dataRangeIn (htells.mem _ List.mem_cons_self) hblank hnew
        (yields_dataRangeAt_oneOf htells hoperands)
  refine ⟨ts, hgrows, fun R hnil hfits => hrec R hnil ⟨?_, trivial⟩⟩
  rw [List.length_map]
  exact hfits

/-- A restriction of a datatype reads back: its facets are written after its node. -/
theorem recovers_datatypeRestriction {i : Iri} {fs : List (Iri × Literal)} :
    DataRangeReadsBack (.restriction i fs) := by
  intro d d' n h
  rw [DataRange.encode] at h
  obtain ⟨_, _, hleast, h⟩ := bind_eq_ok_iff.1 h
  obtain ⟨-, rfl⟩ := atLeast_eq_ok_iff.1 hleast
  obtain ⟨_, d₂, hnode, h⟩ := bind_eq_ok_iff.1 h
  obtain ⟨rfl, rfl⟩ := freshOf_eq_ok_iff.1 hnode
  obtain ⟨_, d₃, hemit, h⟩ := bind_eq_ok_iff.1 h
  obtain rfl := emit_eq_ok_iff.1 hemit
  rw [List.append_assoc] at h
  obtain ⟨ns, d₄, hns, h⟩ := bind_eq_ok_iff.1 h
  obtain ⟨facets, hfacets, hlen, hreads⟩ := recovers_facets hns
  obtain ⟨list, d₅, hlist, h⟩ := bind_eq_ok_iff.1 h
  obtain ⟨cells, hcells, hpred, hread⟩ := yields_list_of_encodeList hlist
  obtain ⟨_, d₆, hemit, h⟩ := bind_eq_ok_iff.1 h
  obtain rfl := emit_eq_ok_iff.1 hemit
  obtain ⟨rfl, rfl⟩ := pure_eq_ok_iff.1 h
  have hown : ∀ t ∈ [Triple.typing d.supply.head (.rdfs .Datatype),
      ⟨d.supply.head, .owl .onDatatype, .node (.iri i)⟩] ++
      [⟨d.supply.head, .owl .withRestrictions, list⟩], t.subject = d.supply.head := by simp
  have hinner := hfacets.append hcells
  have hgrows := (Draft.Grows.refl d).build hinner hown (by simp [Triple.reifies])
  refine ⟨_, hgrows, fun R hnil hfits hR => ?_⟩
  have htells := hR.tells (Supply.covers_nil .refl) hinner.toCovers
  have hinside := hR.inside (Supply.covers_nil .refl) hown
  obtain ⟨hyields, hmute⟩ := hreads R hnil hfits.2
    (hinside.left hfacets.toCovers hcells.toCovers)
  have hcells' := hread R hnil (hinside.right hfacets.toCovers (by simp)) (hlen ▸ hfits.1)
  refine ⟨fun within hwithin => ?_, fun t ht => ?_⟩
  · obtain ⟨hnew, -⟩ := Supply.head_notMem .refl hinner.toPrecedes hwithin
    have htype := htells.mem _ List.mem_cons_self
    have hfs := hcells'.bind (hyields [] (by simp))
    have hat := yields_dataRangeIn htype rfl hnew (yields_dataRangeAt_restriction htells hfs)
    refine Yields.congr _ hat fun t => ?_
    simp only [List.mem_append, List.mem_cons, List.not_mem_nil, or_false, false_or]
    tauto
  · simp only [List.mem_append, List.mem_cons, List.not_mem_nil, or_false, false_or] at ht
    rcases ht with ((rfl | rfl) | rfl) | ht | ht
    · exact mute_typing rfl (by decide)
    · exact mute_of_mem_encodingPredicates (by simp [encodingPredicates])
    · exact mute_of_mem_encodingPredicates (by simp [encodingPredicates])
    · exact hmute t ht
    · exact mute_of_cell (hpred t ht)

/-- No data ranges read back from no nodes. -/
theorem recovers_dataRanges_nil : DataRangesReadBack [] := by
  intro d d' ns h
  obtain ⟨rfl, rfl⟩ := pure_eq_ok_iff.1 h
  exact ⟨[], (.refl _), rfl, fun R _ _ _ => ⟨fun _ _ => yields_pure, by simp⟩⟩

/-- Data ranges read back one by one if the first does and the others do. -/
theorem recovers_dataRanges_cons (he : DataRangeReadsBack e) (hes : DataRangesReadBack es) :
    DataRangesReadBack (e :: es) := by
  intro d d' ns h
  rw [DataRange.encodeAll] at h
  obtain ⟨n, d₁, hn, h⟩ := bind_eq_ok_iff.1 h
  obtain ⟨ns, d₂, hns, h⟩ := bind_eq_ok_iff.1 h
  obtain ⟨rfl, rfl⟩ := pure_eq_ok_iff.1 h
  obtain ⟨ts, hts, hread⟩ := he hn
  obtain ⟨us, hus, hlen, hreads⟩ := hes hns
  exact ⟨ts ++ us, hts.append hus, by simp [hlen], hread.mapM_cons hts hus hreads⟩

end Constructors

/-! ## All data ranges -/

mutual

/-- A data range that was written reads back from its node. -/
theorem recovers_dataRange : ∀ e : DataRange, DataRangeReadsBack e
  | .named _ => recovers_datatype
  | .junction _ es => recovers_dataJunction (recovers_dataRanges es)
  | .complement e => recovers_dataComplement (recovers_dataRange e)
  | .oneOf _ => recovers_dataOneOf
  | .restriction _ _ => recovers_datatypeRestriction

/-- Data ranges that were written one by one read back. -/
theorem recovers_dataRanges : ∀ es : List DataRange, DataRangesReadBack es
  | [] => recovers_dataRanges_nil
  | e :: es => recovers_dataRanges_cons (recovers_dataRange e) (recovers_dataRanges es)

end

end Source

end Ontograph
