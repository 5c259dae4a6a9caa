import Ontograph.Proofs.Canonical.Rewriting

/-!
# Normalization loses nothing

What a normalization takes out of the base is said by something else in the end.  A type is taken
out only where one of its *successors* is there (`Iri.successors`), and a successor that is taken
out later leaves one of its own behind, which is a successor of the first type too.  So a triple
that was superseded once stays superseded (`Graph.Superseded.remove`), through all passes and
rounds, and it does not matter whether the last round changed nothing.

The passes are compared with the graph before them by one relation (`Graph.Preserves`), which is
reflexive and transitive.  Merging several headers renames nodes and is left out: the base has at
most one header here, and then every pass keeps it so.
-/

namespace Ontograph

/-! ## Types and their successors -/

/-- The types one of which says what a type said before it was taken out. -/
def Iri.successors : Iri → List Iri
  | .owl .OntologyProperty => [.owl .AnnotationProperty]
  | .owl .DataRange => [.rdfs .Datatype]
  | .owl .DeprecatedClass => [.owl .Class, .owl .Restriction]
  | .owl .DeprecatedProperty => .rdf .Property :: propertyTypes
  | .owl .Class => [.owl .Restriction]
  | .rdfs .Class => [.owl .Class, .rdfs .Datatype, .owl .Restriction]
  | .rdf .Property => propertyTypes
  | _ => []

/-- The types that meant deprecation. -/
def deprecatedTypes : List Iri := [.owl .DeprecatedClass, .owl .DeprecatedProperty]

/-- The types that normalization gives to nodes. -/
def modernTypes : List Iri := [.owl .Class, .rdfs .Datatype, .rdf .Property] ++ propertyTypes

/-- The types that have successors. -/
def succeededTypes : List Iri :=
  legacyTypes.map LegacyType.legacy ++ TripleSet.lesserTypes.map Prod.fst

namespace Iri

variable {c d e : Iri}

/-- A type with a successor is one of those that have successors. -/
theorem mem_succeededTypes_of_successors (h : d ∈ c.successors) : c ∈ succeededTypes := by
  unfold successors at h
  split at h
  case h_8 => cases h
  all_goals decide

/-- A successor of a successor is a successor. -/
theorem successors_trans (hd : d ∈ c.successors) (he : e ∈ d.successors) : e ∈ c.successors := by
  have htrans : ∀ c ∈ succeededTypes, ∀ d ∈ c.successors, ∀ e ∈ d.successors,
      e ∈ c.successors := by decide
  exact htrans c (mem_succeededTypes_of_successors hd) d hd e he

/-- No type succeeds itself. -/
theorem ne_of_mem_successors (hd : d ∈ c.successors) : d ≠ c := by
  have hne : ∀ c ∈ succeededTypes, ∀ d ∈ c.successors, d ≠ c := by decide
  exact hne c (mem_succeededTypes_of_successors hd) d hd

end Iri

/-! ## Superseded triples -/

namespace Graph

variable {g g' g'' : Graph} {t u : Triple} {e : Edit} {es es' : List Edit} {n : Node}

/-- The union says with other triples what a triple says: its node has a successor of the type, and
is deprecated if the type meant that; or the distinct members of a node are its members. -/
inductive Superseded (g : Graph) : Triple → Prop
  | members {n : Node} {o : Term} (h : ⟨n, .owl .members, o⟩ ∈ g) :
      Superseded g ⟨n, .owl .distinctMembers, o⟩
  | type {n : Node} {c d : Iri} (hd : d ∈ c.successors) (h : Triple.typing n d ∈ g)
      (hdeprecated : c ∈ deprecatedTypes → ⟨n, .owl .deprecated, Literal.yes⟩ ∈ g) :
      Superseded g (.typing n c)

/-- What is superseded stays so as triples are added. -/
theorem Superseded.mono (h : g.Superseded u) (hle : ∀ t, t ∈ g → t ∈ g') : g'.Superseded u := by
  cases h with
  | members h => exact .members (hle _ h)
  | type hd h hdeprecated => exact .type hd (hle _ h) fun hc => hle _ (hdeprecated hc)

/-- Taking out a superseded triple leaves all superseded triples superseded. -/
theorem Superseded.remove (h : g.Superseded u) (ht : g.Superseded t) :
    (g.remove t).2.Superseded u := by
  cases h with
  | members h =>
    refine .members ((mem_remove_of_ne ?_).2 h)
    rintro rfl
    cases ht
  | @type n c d hd h hdeprecated =>
    have hkept : c ∈ deprecatedTypes →
        ⟨n, .owl .deprecated, Literal.yes⟩ ∈ (g.remove t).2 := by
      intro hc
      refine (mem_remove_of_ne ?_).2 (hdeprecated hc)
      rintro rfl
      cases ht
    by_cases hsame : Triple.typing n d = t
    · -- the successor itself is taken out, so it has a successor that is there
      subst hsame
      cases ht with
      | type hd' h' =>
        refine .type (Iri.successors_trans hd hd') ((mem_remove_of_ne ?_).2 h') hkept
        intro he
        have heq := congrArg Triple.object he
        simp only [Term.node.injEq, Node.iri.injEq] at heq
        exact Iri.ne_of_mem_successors hd' heq
    · exact .type hd ((mem_remove_of_ne hsame).2 h) hkept

/-- A header has no successor. -/
theorem not_superseded_header : ¬ g.Superseded (.typing n (.owl .Ontology)) := by
  intro h
  cases h with
  | type hd => cases hd

/-- A triple that normalization may write, given the graph before it. -/
inductive Grants (g : Graph) : Triple → Prop
  | type {n : Node} {c : Iri} (hc : c ∈ modernTypes) : Grants g (.typing n c)
  | deprecated {n : Node} {c : Iri} (hc : c ∈ deprecatedTypes) (h : Triple.typing n c ∈ g) :
      Grants g ⟨n, .owl .deprecated, Literal.yes⟩
  | members {n : Node} {o : Term} (h : ⟨n, .owl .distinctMembers, o⟩ ∈ g) :
      Grants g ⟨n, .owl .members, o⟩
  | header {n : Node} (hn : n.isBlank = true) (hnone : g.headers = []) :
      Grants g (.typing n (.owl .Ontology))

/-- A graph became another one without a loss: what is missing from the base is superseded, what
was superseded still is, and what is new may be written. -/
structure Preserves (g g' : Graph) : Prop where
  imports : g'.imports = g.imports
  kept : ∀ t ∈ g.base, t ∈ g'.base ∨ g'.Superseded t
  superseded : ∀ t, g.Superseded t → g'.Superseded t
  added : ∀ t ∈ g'.base, t ∈ g.base ∨ g.Grants t

/-- A graph without a change has no loss. -/
theorem Preserves.refl : g.Preserves g :=
  ⟨rfl, fun _ h => Or.inl h, fun _ h => h, fun _ h => Or.inl h⟩

/-- A triple that normalization never writes is older than it. -/
theorem Preserves.mem_of_not_grants (h : g.Preserves g') (ht : ¬ g.Grants t) (hmem : t ∈ g') :
    t ∈ g := by
  rcases hmem with hbase | himported
  · exact Or.inl ((h.added t hbase).resolve_right ht)
  · rw [h.imports] at himported
    exact Or.inr himported

/-- What may be written after some changes without a loss could be written before them. -/
theorem Preserves.grants (h : g.Preserves g') (ht : g'.Grants t) : g.Grants t := by
  cases ht with
  | type hc => exact .type hc
  | @deprecated n c hc hmem =>
    refine .deprecated hc (h.mem_of_not_grants ?_ hmem)
    have hnew : ∀ c ∈ deprecatedTypes, c ∉ modernTypes ∧ c ≠ .owl .Ontology := by decide
    intro hgrants
    cases hgrants with
    | type hc' => exact (hnew c hc).1 hc'
    | header => exact (hnew _ hc).2 rfl
  | members hmem =>
    refine .members (h.mem_of_not_grants ?_ hmem)
    intro hgrants
    cases hgrants
  | @header n hn hnone =>
    refine .header hn (List.eq_nil_iff_forall_not_mem.2 fun m hm => ?_)
    rcases h.kept _ (mem_headers.1 hm) with hkept | hlost
    · have hheader : m ∈ g'.headers := mem_headers.2 hkept
      rw [hnone] at hheader
      cases hheader
    · exact not_superseded_header hlost

/-- Two changes without a loss are one. -/
theorem Preserves.trans (h : g.Preserves g') (h' : g'.Preserves g'') : g.Preserves g'' where
  imports := h'.imports.trans h.imports
  kept t ht := by
    rcases h.kept t ht with hkept | hlost
    · exact h'.kept t hkept
    · exact Or.inr (h'.superseded t hlost)
  superseded t ht := h'.superseded t (h.superseded t ht)
  added t ht := by
    rcases h'.added t ht with hold | hnew
    · exact h.added t hold
    · exact Or.inr (h.grants hnew)

/-! ## Lists of edits -/

/-- Edits one after another take out superseded triples only. -/
def Lossless (g : Graph) : List Edit → Prop
  | [] => True
  | e :: es => (∀ t, e = .delete t → g.Superseded t) ∧ (g.edit e).2.Lossless es

/-- Edits that lose nothing may be followed by others that lose nothing. -/
theorem lossless_append (h : g.Lossless es) (h' : (g.edits es).2.Lossless es') :
    g.Lossless (es ++ es') := by
  induction es generalizing g with
  | nil => exact h'
  | cons e es ih =>
    obtain ⟨hfirst, hrest⟩ := h
    exact ⟨hfirst, ih hrest h'⟩

/-- Groups of edits, each of which loses nothing on any graph. -/
theorem lossless_flatMap {α : Type} {xs : List α} {f : α → List Edit}
    (h : ∀ x ∈ xs, ∀ g : Graph, g.Lossless (f x)) : g.Lossless (xs.flatMap f) := by
  induction xs generalizing g with
  | nil => trivial
  | cons x xs ih =>
    obtain ⟨hx, hxs⟩ := List.forall_mem_cons.1 h
    exact lossless_append (hx g) (ih hxs)

/-- Only additions. -/
theorem lossless_of_add (h : ∀ e ∈ es, ∃ t, .add t = e) : g.Lossless es := by
  induction es generalizing g with
  | nil => trivial
  | cons e es ih =>
    obtain ⟨⟨t, rfl⟩, hes⟩ := List.forall_mem_cons.1 h
    exact ⟨fun _ he => (by cases he), ih hes⟩

/-- Removals of triples that were superseded beforehand, in any order. -/
theorem lossless_of_superseded (h : ∀ e ∈ es, ∃ t, g.Superseded t ∧ .delete t = e) :
    g.Lossless es := by
  induction es generalizing g with
  | nil => trivial
  | cons e es ih =>
    obtain ⟨⟨t, ht, rfl⟩, hes⟩ := List.forall_mem_cons.1 h
    refine ⟨fun u hu => ?_, ih fun e he => ?_⟩
    · cases hu
      exact ht
    · obtain ⟨u, hu, rfl⟩ := hes e he
      exact ⟨u, hu.remove ht, rfl⟩

/-- What is in the base after edits was there or was written. -/
theorem mem_base_of_edits (h : t ∈ (g.edits es).2.base) : t ∈ g.base ∨ .add t ∈ es := by
  induction es generalizing g with
  | nil => exact Or.inl h
  | cons e es ih =>
    have hrest : t ∈ ((g.edit e).2.edits es).2.base := h
    rcases ih hrest with hbase | hadded
    · cases e with
      | add u =>
        by_cases hu : t = u
        · exact Or.inr (hu ▸ List.mem_cons_self)
        · exact Or.inl ((mem_base_insert_of_ne hu).1 hbase)
      | delete u => exact Or.inl (mem_base_remove.1 hbase).1
    · exact Or.inr (List.mem_cons_of_mem _ hadded)

/-- A superseded triple stays so if the edit takes out nothing but superseded triples: what it takes
out has a successor in turn. -/
theorem Superseded.edit (h : g.Superseded u) (hlossless : ∀ t, e = .delete t → g.Superseded t) :
    (g.edit e).2.Superseded u := by
  cases e with
  | add t => exact h.mono fun _ hu => mem_insert.2 (Or.inl hu)
  | delete t => exact h.remove (hlossless t rfl)

/-- A superseded triple stays superseded, and what is taken out is superseded. -/
theorem superseded_of_edits (hlossless : g.Lossless es) :
    (∀ t, g.Superseded t → (g.edits es).2.Superseded t) ∧
      ∀ t ∈ g.base, t ∈ (g.edits es).2.base ∨ (g.edits es).2.Superseded t := by
  induction es generalizing g with
  | nil => exact ⟨fun _ h => h, fun _ h => Or.inl h⟩
  | cons e es ih =>
    obtain ⟨hfirst, hrest⟩ := hlossless
    obtain ⟨hsuperseded, hkept⟩ := ih hrest
    refine ⟨fun t ht => hsuperseded t (ht.edit hfirst), fun t ht => ?_⟩
    by_cases hstays : t ∈ (g.edit e).2.base
    · exact hkept t hstays
    · right
      refine hsuperseded t (Superseded.edit ?_ hfirst)
      cases e with
      | add u => exact absurd (mem_base_insert_of_mem ht) hstays
      | delete u =>
        by_cases hu : t = u
        · exact hu ▸ hfirst u rfl
        · exact absurd (mem_base_remove.2 ⟨ht, hu⟩) hstays

/-- Edits that lose nothing and write what may be written preserve the graph. -/
theorem preserves_edits (hlossless : g.Lossless es) (hgrants : ∀ t, .add t ∈ es → g.Grants t) :
    g.Preserves (g.edits es).2 :=
  ⟨becomes_edits.imports, (superseded_of_edits hlossless).2, (superseded_of_edits hlossless).1,
    fun t ht => (mem_base_of_edits ht).imp_right (hgrants t)⟩

/-! ## Passes -/

/-- The sorts of properties are among the types that normalization gives. -/
theorem mem_modernTypes_of_propertyTypes {c : Iri} (h : c ∈ propertyTypes) : c ∈ modernTypes :=
  List.mem_append_right _ h

/-- A superseded type is taken out after what replaces it was written. -/
theorem lossless_legacyEdits {S : TripleSet} : g.Lossless S.legacyEdits := by
  have htype : ∀ l ∈ legacyTypes, l.modern ∈ l.legacy.successors ∧
      (l.legacy ∈ deprecatedTypes → l.deprecates = true) := by decide
  refine lossless_append (lossless_flatMap fun l hl g => lossless_flatMap fun n _ g => ?_)
    (lossless_flatMap fun t ht g => ?_)
  · obtain ⟨hmodern, hdeprecates⟩ := htype l hl
    unfold LegacyType.edits
    refine lossless_append (lossless_of_add ?_) ⟨fun t ht => ?_, trivial⟩
    · intro e he
      cases hd : l.deprecates <;> rw [hd] at he <;> simp at he
      · exact ⟨_, he.symm⟩
      · rcases he with rfl | rfl
        · exact ⟨_, rfl⟩
        · exact ⟨_, rfl⟩
    · cases ht
      refine .type hmodern ?_ fun hc => ?_
      · cases hd : l.deprecates <;> simp [edits, edit]
      · rw [hdeprecates hc]
        simp [edits, edit]
  · refine ⟨fun _ he => (by cases he), fun u hu => ?_, trivial⟩
    cases hu
    obtain ⟨n, p, o⟩ := t
    obtain ⟨-, rfl⟩ := TripleSet.mem_uses.1 ht
    exact .members (mem_insert.2 (Or.inr rfl))

/-- Replacing superseded vocabulary writes what may be written. -/
theorem grants_of_legacyEdits (h : .add t ∈ g.union.legacyEdits) : g.Grants t := by
  have htype : ∀ l ∈ legacyTypes, l.modern ∈ modernTypes ∧
      (l.deprecates = true → l.legacy ∈ deprecatedTypes) := by decide
  rcases TripleSet.mem_legacyEdits_iff.1 h with
    ⟨l, hl, n, hn, he | ⟨hd, he⟩ | he⟩ | ⟨n, o, ho, he | he⟩
  · cases he
    exact .type (htype l hl).1
  · cases he
    exact .deprecated ((htype l hl).2 hd) (mem_union.1 hn)
  · cases he
  · cases he
    exact .members (mem_union.1 ho)
  · cases he

/-- Replacing superseded vocabulary loses nothing. -/
theorem preserves_legacyEdits : g.Preserves (g.edits g.union.legacyEdits).2 :=
  preserves_edits lossless_legacyEdits fun _ => grants_of_legacyEdits

/-- Typing the subjects of characteristics loses nothing. -/
theorem preserves_characteristicEdits : g.Preserves (g.edits g.union.characteristicEdits).2 := by
  refine preserves_edits (lossless_of_add fun e he => ?_) fun t ht => ?_
  · obtain ⟨_, -, n, -, rfl⟩ := TripleSet.mem_characteristicEdits_iff.1 he
    exact ⟨_, rfl⟩
  · obtain ⟨_, -, n, -, he⟩ := TripleSet.mem_characteristicEdits_iff.1 ht
    cases he
    exact .type (by decide)

/-- Settling the sorts of properties loses nothing. -/
theorem preserves_sortEdits {budget : Option Nat} :
    g.Preserves (g.edits (g.union.sortEdits budget)).2 := by
  refine preserves_edits (lossless_of_add fun e he => ?_) fun t ht => ?_
  · obtain ⟨n, c, -, -, rfl⟩ := TripleSet.mem_sortEdits_iff.1 he
    exact ⟨_, rfl⟩
  · obtain ⟨n, c, -, hc, he⟩ := TripleSet.mem_sortEdits_iff.1 ht
    cases he
    exact .type (mem_modernTypes_of_propertyTypes
      (TripleSet.mem_propertyTypes_of_impliedSort? hc))

/-- The types that say less are superseded when they are taken out. -/
theorem preserves_redundancyEdits : g.Preserves (g.edits g.union.redundancyEdits).2 := by
  have htype : ∀ p ∈ TripleSet.lesserTypes, p.1 ∉ deprecatedTypes ∧
      ∀ d ∈ p.2, d ∈ p.1.successors := by decide
  refine preserves_edits (lossless_of_superseded fun e he => ?_) fun t ht => ?_
  · obtain ⟨p, hp, n, -, ⟨d, hd, hn⟩, rfl⟩ := TripleSet.mem_redundancyEdits_iff.1 he
    refine ⟨_, .type ((htype p hp).2 d hd) (mem_union.1 hn) fun hc => ?_, rfl⟩
    exact absurd hc (htype p hp).1
  · obtain ⟨p, hp, n, -, -, he⟩ := TripleSet.mem_redundancyEdits_iff.1 ht
    cases he

/-- Rounds that settle the sorts of properties lose nothing. -/
theorem preserves_settleWithin {budget : Option Nat} {rounds : Nat} :
    g.Preserves (g.settleWithin budget rounds).2 := by
  induction rounds generalizing g with
  | zero => exact .refl
  | succ rounds ih =>
    unfold settleWithin
    dsimp only
    split
    case isTrue => exact preserves_sortEdits
    case isFalse => exact preserves_sortEdits.trans ih

/-- Settling types loses nothing: a redundant type has a successor. -/
theorem preserves_settleTypes {budget : Option Nat} : g.Preserves (g.settleTypes budget).2 := by
  unfold settleTypes settleSorts
  dsimp only
  exact preserves_characteristicEdits.trans
    (preserves_settleWithin.trans preserves_redundancyEdits)

/-- Declaring what the graph implies loses nothing. -/
theorem preserves_declarationEdits {s : Settings} :
    g.Preserves (g.edits (Pipeline.declarationEdits s g)).2 := by
  have hadd : ∀ e ∈ Pipeline.declarationEdits s g, ∃ n c, c ∈ modernTypes ∧
      .add (.typing n c) = e := by
    intro e he
    rcases List.mem_append.1 he with he | he
    · obtain ⟨i, -, -, rfl⟩ := TripleSet.mem_classDeclarations_iff.1 he
      exact ⟨i, _, by decide, rfl⟩
    · obtain ⟨i, c, -, -, hc, rfl⟩ := TripleSet.mem_propertyDeclarations_iff.1 he
      exact ⟨i, c, mem_modernTypes_of_propertyTypes
        (TripleSet.mem_propertyTypes_of_onlySort? hc), rfl⟩
  refine preserves_edits (lossless_of_add fun e he => ?_) fun t ht => ?_
  · obtain ⟨n, c, -, rfl⟩ := hadd e he
    exact ⟨_, rfl⟩
  · obtain ⟨n, c, hc, he⟩ := hadd _ ht
    cases he
    exact .type hc

/-! ## One header -/

/-- All headers of the base are one node. -/
def OneHeader (g : Graph) : Prop := ∀ n ∈ g.headers, ∀ m ∈ g.headers, n = m

/-- At most one header means that all headers are one node. -/
theorem oneHeader_of_length (h : g.headers.length ≤ 1) : g.OneHeader := by
  intro n hn m hm
  match g.headers, h, hn, hm with
  | [a], _, hn, hm => rw [List.mem_singleton.1 hn, List.mem_singleton.1 hm]

/-- Passes that leave the headers alone leave one header. -/
theorem Frames.oneHeader (h : g.Frames g') (hone : g.OneHeader) : g'.OneHeader := by
  unfold OneHeader
  rw [h.headers_eq]
  exact hone

end Graph

open Ontograph.Graph

/-- With at most one header, the header pass writes one where there is none, and no more. -/
theorem Workbench.preserves_mergeHeaders {w : Workbench} (hone : w.graph.OneHeader) :
    w.graph.Preserves w.mergeHeaders.2.graph ∧ w.mergeHeaders.2.graph.OneHeader := by
  unfold mergeHeaders
  cases hfullest : w.graph.fullest? w.graph.headers with
  | none =>
    have hnone : w.graph.headers = [] := fullest?_eq_none_iff.1 hfullest
    dsimp only
    refine ⟨preserves_edits (lossless_of_add fun e he => ?_) fun t ht => ?_, ?_⟩
    · rw [List.mem_singleton] at he
      exact ⟨_, he.symm⟩
    · rw [List.mem_singleton] at ht
      cases ht
      exact .header rfl hnone
    · have hnew : ∀ n ∈ (w.graph.edits
          [.add (.typing w.supply.head (.owl .Ontology))]).2.headers, n = w.supply.head := by
        intro n hn
        rcases mem_base_of_edits (mem_headers.1 hn) with hold | hadded
        · have hheader : n ∈ w.graph.headers := mem_headers.2 hold
          rw [hnone] at hheader
          cases hheader
        · rw [List.mem_singleton] at hadded
          cases hadded
          rfl
      exact fun n hn m hm => (hnew n hn).trans (hnew m hm).symm
  -- the only header has nothing to take over
  | some winner =>
    have hwinner : winner ∈ w.graph.headers := mem_of_fullest? hfullest
    have hlosers : w.graph.headers.filter (· != winner) = [] := by
      refine List.filter_eq_nil_iff.2 fun n hn => ?_
      simp [hone n hn winner hwinner]
    dsimp only
    rw [hlosers]
    exact ⟨.refl, hone⟩

/-! ## Runs -/

namespace Pipeline

variable {p : Pass} {ps : Pipeline} {s : Settings} {w : Workbench} {number left : Nat}
  {before : List PassReport}

/-- Each pass preserves a graph with at most one header, and keeps it so. -/
theorem preserves_run (hp : p ∈ standard) (hone : w.graph.OneHeader) :
    w.graph.Preserves (p.run s w).2.graph ∧ (p.run s w).2.graph.OneHeader := by
  by_cases hheader : p = headerPass
  · rw [hheader, run_headerPass]
    exact Workbench.preserves_mergeHeaders hone
  · refine ⟨?_, (frames_run hp hheader).oneHeader hone⟩
    rcases mem_standard_iff.1 hp with rfl | rfl | rfl | rfl
    · rw [run_legacyPass]
      dsimp only
      exact preserves_legacyEdits
    · rw [run_typingPass]
      dsimp only
      exact preserves_settleTypes
    · exact absurd rfl hheader
    · rw [run_declarationPass]
      dsimp only
      exact preserves_declarationEdits

/-- With one header a round loses nothing and leaves one header. -/
theorem preserves_round (hps : ∀ p ∈ ps, p ∈ standard) (hone : w.graph.OneHeader) :
    w.graph.Preserves (round s number ps w).2.graph ∧
      (round s number ps w).2.graph.OneHeader := by
  induction ps generalizing w with
  | nil => exact ⟨.refl, hone⟩
  | cons p ps ih =>
    obtain ⟨hp, hrest⟩ := List.forall_mem_cons.1 hps
    unfold round
    split
    case isTrue =>
      obtain ⟨hpreserves, hone'⟩ := preserves_run hp hone
      obtain ⟨hlater, hone''⟩ := ih hrest hone'
      exact ⟨hpreserves.trans hlater, hone''⟩
    case isFalse => exact ih hrest hone

/-- With one header a run loses nothing. -/
theorem preserves_runFrom (hps : ∀ p ∈ ps, p ∈ standard) (hone : w.graph.OneHeader) :
    w.graph.Preserves (runFrom ps s number before left w).2.graph := by
  induction left generalizing number before w with
  | zero => exact .refl
  | succ left ih =>
    obtain ⟨hpreserves, hone'⟩ := preserves_round hps hone
    unfold runFrom
    dsimp only
    split
    case isTrue => exact hpreserves
    case isFalse => exact hpreserves.trans (ih hone')

/-- **Nothing is lost.** A standard normalization of a graph whose base has at most one header, run
for any number of rounds with any settings, leaves the imports alone; every triple that it took
out of the base is superseded in the end; and every triple that it wrote is a modern type, a word
on the deprecation of a node that had a type meaning it, the members of a node that had distinct
members, or the header of a graph without one. -/
theorem normalize_loses_nothing (s : Settings) (w : Workbench)
    (hone : w.graph.headers.length ≤ 1) :
    (standard.normalize s w).2.graph.imports = w.graph.imports ∧
      (∀ t ∈ w.graph.base, t ∉ (standard.normalize s w).2.graph.base →
        (standard.normalize s w).2.graph.Superseded t) ∧
      ∀ t ∈ (standard.normalize s w).2.graph.base, t ∉ w.graph.base → w.graph.Grants t := by
  have h : w.graph.Preserves (standard.normalize s w).2.graph :=
    preserves_runFrom (fun _ hp => hp) (oneHeader_of_length hone)
  refine ⟨h.imports, fun t ht hgone => ?_, fun t ht hnew => ?_⟩
  · exact (h.kept t ht).resolve_left hgone
  · exact (h.added t ht).resolve_left hnew

/-- A restriction with a superseded type under an import: its class type is written in the first
round and taken out again, and the type of a restriction stays. -/
theorem normalize_loses_nothing_restriction :
    let r : Node := .blank ⟨"r"⟩
    let legacy : Triple := .typing r (.owl .DeprecatedClass)
    let w : Workbench :=
      ⟨{ base := .ofList [legacy, .typing r (.owl .Class)]
         imports := [⟨0, .ofList [.typing r (.owl .Restriction)]⟩] }, ⟨"n", 0⟩⟩
    w.graph.headers.length ≤ 1 ∧ legacy ∉ (standard.normalize {} w).2.graph.base ∧
      (standard.normalize {} w).2.graph.Superseded legacy := by
  intro r legacy w
  have hone : w.graph.headers.length ≤ 1 := by decide +kernel
  have hgone : legacy ∉ (standard.normalize {} w).2.graph.base := by decide +kernel
  have hbase : legacy ∈ w.graph.base := by decide +kernel
  exact ⟨hone, hgone, (normalize_loses_nothing {} w hone).2.1 legacy hbase hgone⟩

end Pipeline

end Ontograph
