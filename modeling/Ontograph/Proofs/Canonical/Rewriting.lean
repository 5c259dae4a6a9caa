import Ontograph.Proofs.Canonical.Accounting

/-!
# What the passes write and take out

Each list of edits that a pass makes, as an equivalence: which edits are in it, and what in the
graph each of them comes from.  All these edits are of triples that normalization works on
(`Triple.isWorked`): the superseded vocabulary, what replaces it, and the types of classes,
datatypes and properties.  So a pass that makes such edits leaves all other triples in their order
(`Graph.Frames`), and what is read from other triples alone is read as before.
-/

namespace Ontograph

/-! ## Lists of edits -/

/-- A triple with a word that normalization replaces. -/
inductive Triple.IsLegacy : Triple → Prop
  | type {n : Node} {l : LegacyType} (hl : l ∈ legacyTypes) : IsLegacy (.typing n l.legacy)
  | members {n : Node} {o : Term} : IsLegacy ⟨n, .owl .distinctMembers, o⟩

namespace TripleSet

variable {S : TripleSet} {n : Node} {c : Iri} {e : Edit} {s : Settings} {budget : Option Nat}

/-- The nodes typed with a class are those that a triple types so. -/
@[simp] theorem mem_typed : n ∈ S.typed c ↔ Triple.typing n c ∈ S := mem_subjects

/-- A node has a type of property if some triple gives it a sort. -/
theorem hasPropertyType_iff :
    S.hasPropertyType n = true ↔ ∃ c ∈ propertyTypes, Triple.typing n c ∈ S := by
  simp [hasPropertyType]

/-- The promoter applies where there is superseded vocabulary. -/
theorem hasLegacy_iff : S.hasLegacy = true ↔ ∃ t ∈ S, t.IsLegacy := by
  simp only [hasLegacy, Bool.or_eq_true, List.any_eq_true, hasSubject_iff, isUsed_iff]
  constructor
  · rintro (⟨l, hl, n, ht⟩ | ⟨⟨n, p, o⟩, ht, rfl⟩)
    · exact ⟨_, ht, .type hl⟩
    · exact ⟨_, ht, .members⟩
  · rintro ⟨t, ht, hlegacy⟩
    cases hlegacy with
    | type hl => exact Or.inl ⟨_, hl, _, ht⟩
    | members => exact Or.inr ⟨_, ht, rfl⟩

/-- A superseded type is replaced, with a word on deprecation if it meant that, and is taken out;
so is a list of distinct members. -/
theorem mem_legacyEdits_iff : e ∈ S.legacyEdits ↔
    (∃ l ∈ legacyTypes, ∃ n, Triple.typing n l.legacy ∈ S ∧
      (e = .add (.typing n l.modern) ∨
        l.deprecates = true ∧ e = .add ⟨n, .owl .deprecated, Literal.yes⟩ ∨
        e = .delete (.typing n l.legacy))) ∨
    ∃ n o, ⟨n, .owl .distinctMembers, o⟩ ∈ S ∧
      (e = .add ⟨n, .owl .members, o⟩ ∨ e = .delete ⟨n, .owl .distinctMembers, o⟩) := by
  have hedits : ∀ (l : LegacyType) n, e ∈ l.edits n ↔ e = .add (.typing n l.modern) ∨
      l.deprecates = true ∧ e = .add ⟨n, .owl .deprecated, Literal.yes⟩ ∨
      e = .delete (.typing n l.legacy) := by
    intro l n
    unfold LegacyType.edits
    cases l.deprecates <;> simp
  unfold legacyEdits
  simp only [List.mem_append, List.mem_flatMap, mem_typed, mem_uses, hedits, List.mem_cons,
    List.not_mem_nil, or_false]
  refine or_congr Iff.rfl ?_
  constructor
  · rintro ⟨⟨n, _, o⟩, ⟨ht, rfl⟩, he⟩
    exact ⟨n, o, ht, he⟩
  · rintro ⟨n, o, ht, he⟩
    exact ⟨_, ⟨ht, rfl⟩, he⟩

/-- The subject of a characteristic of object properties is made one. -/
theorem mem_characteristicEdits_iff : e ∈ S.characteristicEdits ↔
    ∃ c ∈ Characteristic.objectOnly, ∃ n, Triple.typing n c.type ∈ S ∧
      .add (.typing n (.owl .ObjectProperty)) = e := by
  simp only [characteristicEdits, List.mem_flatMap, List.mem_map, mem_typed]

/-- An unsorted property is said to be functional, or to be a property, and has no sort. -/
theorem mem_unsortedProperties_iff : n ∈ S.unsortedProperties ↔
    (Triple.typing n (.owl .FunctionalProperty) ∈ S ∨ Triple.typing n (.rdf .Property) ∈ S) ∧
      S.hasPropertyType n = false := by
  simp only [unsortedProperties, List.mem_eraseDups, List.mem_filter, List.mem_append, mem_typed,
    Bool.not_eq_true']

/-- What the graph implies for an unsorted property is a sort. -/
theorem mem_propertyTypes_of_impliedSort? (h : S.impliedSort? budget n = some c) :
    c ∈ propertyTypes := by
  unfold impliedSort? at h
  split at h
  case isTrue =>
    cases h
    decide
  case isFalse =>
    split at h
    case isTrue =>
      cases h
      decide
    case isFalse =>
      split at h
      case isTrue =>
        cases h
        decide
      case isFalse => cases h

/-- A property without a sort is typed with the sort that the graph implies. -/
theorem mem_sortEdits_iff : e ∈ S.sortEdits budget ↔
    ∃ n c, n ∈ S.unsortedProperties ∧ S.impliedSort? budget n = some c ∧
      .add (.typing n c) = e := by
  simp only [sortEdits, List.mem_filterMap, Option.map_eq_some_iff]
  constructor
  · rintro ⟨n, hn, c, hc, he⟩
    exact ⟨n, c, hn, hc, he⟩
  · rintro ⟨n, c, hn, hc, he⟩
    exact ⟨n, hn, c, hc, he⟩

/-- The types that say less than others, with the others. -/
def lesserTypes : List (Iri × List Iri) :=
  [(.owl .Class, [.owl .Restriction]), (.rdfs .Class, [.owl .Class, .rdfs .Datatype]),
    (.rdf .Property, propertyTypes)]

/-- A type is taken out where one that says more is there. -/
theorem mem_redundancyEdits_iff : e ∈ S.redundancyEdits ↔
    ∃ p ∈ lesserTypes, ∃ n, Triple.typing n p.1 ∈ S ∧ (∃ d ∈ p.2, Triple.typing n d ∈ S) ∧
      .delete (.typing n p.1) = e := by
  have hone : ∀ c others, e ∈ redundancyEdits.redundant S c others ↔
      ∃ n, Triple.typing n c ∈ S ∧ (∃ d ∈ others, Triple.typing n d ∈ S) ∧
        .delete (.typing n c) = e := by
    intro c others
    simp only [redundancyEdits.redundant, List.mem_map, List.mem_filter, mem_typed,
      List.any_eq_true, hasType_iff, and_assoc]
  simp only [redundancyEdits, List.mem_append, hone, lesserTypes, List.exists_mem_cons_iff,
    List.not_mem_nil, false_and, exists_false, or_false, or_assoc]

/-- An IRI in the place of a class is declared as a class. -/
theorem mem_classDeclarations_iff : e ∈ S.classDeclarations s ↔
    ∃ i : Iri, i.isReserved = false ∧ .node (.iri i) ∈ S.classPlaces s ∧
      .add (.typing i (.owl .Class)) = e := by
  have hiri : ∀ i : Iri, (∃ x ∈ S.classPlaces s, x.iri? = some i) ↔
      .node (.iri i) ∈ S.classPlaces s := by
    intro i
    constructor
    · rintro ⟨x, hx, hi⟩
      match x, hi with
      | .node (.iri j), hi => exact (Option.some.inj hi) ▸ hx
    · exact fun hx => ⟨_, hx, rfl⟩
  simp only [classDeclarations, List.mem_map, List.mem_eraseDups, List.mem_filter,
    List.mem_filterMap, hiri, Bool.not_eq_true']
  refine exists_congr fun i => ?_
  tauto

/-- What an IRI is alone is a sort. -/
theorem mem_propertyTypes_of_onlySort? {i : Iri} (h : S.onlySort? budget i = some c) :
    c ∈ propertyTypes := by
  unfold onlySort? at h
  dsimp only at h
  split at h
  case h_1 =>
    cases h
    decide
  case h_2 =>
    cases h
    decide
  case h_3 => cases h

/-- An IRI that a restriction is on is declared as the one sort of property that it is. -/
theorem mem_propertyDeclarations_iff : e ∈ S.propertyDeclarations s ↔
    ∃ (i : Iri) (c : Iri), i.isReserved = false ∧ (∃ r, ⟨r, .owl .onProperty, (i : Node)⟩ ∈ S) ∧
      S.onlySort? s.budget i = some c ∧ .add (.typing i c) = e := by
  have hiri : ∀ i : Iri, (∃ t, (t ∈ S ∧ t.predicate = .owl .onProperty) ∧ t.object.iri? = some i) ↔
      ∃ r, ⟨r, .owl .onProperty, (i : Node)⟩ ∈ S := by
    intro i
    constructor
    · rintro ⟨⟨r, _, o⟩, ⟨ht, rfl⟩, hi⟩
      match o, hi with
      | .node (.iri j), hi => exact ⟨r, (Option.some.inj hi) ▸ ht⟩
    · rintro ⟨r, hr⟩
      exact ⟨_, ⟨hr, rfl⟩, rfl⟩
  simp only [propertyDeclarations, List.mem_filterMap, List.mem_filter, mem_uses, hiri,
    Option.map_eq_some_iff, Bool.not_eq_true']
  constructor
  · rintro ⟨i, ⟨hr, hi⟩, c, hc, he⟩
    exact ⟨i, c, hi, hr, hc, he⟩
  · rintro ⟨i, c, hi, hr, hc, he⟩
    exact ⟨i, ⟨hr, hi⟩, c, hc, he⟩

end TripleSet
/-! ## Triples that normalization works on -/

/-- The triple that an edit is of. -/
def Edit.triple : Edit → Triple
  | .add t | .delete t => t

/-- The predicates that normalization writes or takes out. -/
def workedPredicates : List Iri := [.owl .members, .owl .distinctMembers, .owl .deprecated]

/-- The types that normalization writes or takes out. -/
def workedTypes : List Iri :=
  legacyTypes.map LegacyType.legacy ++
    [.owl .Class, .rdfs .Class, .rdfs .Datatype, .rdf .Property] ++ propertyTypes

/-- Is the triple one of those that normalization works on? -/
def Triple.isWorked (t : Triple) : Bool :=
  workedPredicates.contains t.predicate ||
    (t.predicate == .rdf .type && workedTypes.any fun c => t.object == .node (.iri c))

/-- Normalization works on a typing if it works on its type. -/
theorem isWorked_typing {n : Node} {c : Iri} :
    (Triple.typing n c).isWorked = true ↔ c ∈ workedTypes := by
  simp [Triple.isWorked, workedPredicates]

/-- Normalization leaves a typing alone if it does not work on its type. -/
theorem isWorked_typing_eq_false {n : Node} {c : Iri} (h : c ∉ workedTypes) :
    (Triple.typing n c).isWorked = false := by
  rw [← Bool.not_eq_true, isWorked_typing]
  exact h

/-- Normalization works on the sorts of properties. -/
theorem mem_workedTypes_of_propertyTypes {c : Iri} (h : c ∈ propertyTypes) : c ∈ workedTypes :=
  List.mem_append_right _ h

namespace TripleSet

variable {S : TripleSet} {e : Edit} {s : Settings} {budget : Option Nat}

/-- Replacing superseded vocabulary edits triples that normalization works on. -/
theorem isWorked_of_legacyEdits (h : e ∈ S.legacyEdits) : e.triple.isWorked = true := by
  rcases mem_legacyEdits_iff.1 h with ⟨l, hl, n, -, rfl | ⟨-, rfl⟩ | rfl⟩ | ⟨n, o, -, rfl | rfl⟩
  · have hmodern : ∀ l ∈ legacyTypes, l.modern ∈ workedTypes := by decide
    exact isWorked_typing.2 (hmodern l hl)
  · rfl
  · exact isWorked_typing.2 (List.mem_append_left _ (List.mem_append_left _
      (List.mem_map_of_mem hl)))
  · rfl
  · rfl

/-- Typing the subjects of characteristics edits what normalization works on. -/
theorem isWorked_of_characteristicEdits (h : e ∈ S.characteristicEdits) :
    e.triple.isWorked = true := by
  obtain ⟨_, _, n, -, rfl⟩ := mem_characteristicEdits_iff.1 h
  exact isWorked_typing.2 (by decide)

/-- Settling the sorts of properties edits what normalization works on. -/
theorem isWorked_of_sortEdits (h : e ∈ S.sortEdits budget) : e.triple.isWorked = true := by
  obtain ⟨n, c, -, hc, rfl⟩ := mem_sortEdits_iff.1 h
  exact isWorked_typing.2
    (mem_workedTypes_of_propertyTypes (mem_propertyTypes_of_impliedSort? hc))

/-- Taking out redundant types edits what normalization works on. -/
theorem isWorked_of_redundancyEdits (h : e ∈ S.redundancyEdits) : e.triple.isWorked = true := by
  obtain ⟨p, hp, n, -, -, rfl⟩ := mem_redundancyEdits_iff.1 h
  have hlesser : ∀ p ∈ lesserTypes, p.1 ∈ workedTypes := by decide
  exact isWorked_typing.2 (hlesser p hp)

/-- Declaring classes edits what normalization works on. -/
theorem isWorked_of_classDeclarations (h : e ∈ S.classDeclarations s) :
    e.triple.isWorked = true := by
  obtain ⟨i, -, -, rfl⟩ := mem_classDeclarations_iff.1 h
  exact isWorked_typing.2 (by decide)

/-- Declaring properties edits what normalization works on. -/
theorem isWorked_of_propertyDeclarations (h : e ∈ S.propertyDeclarations s) :
    e.triple.isWorked = true := by
  obtain ⟨i, c, -, -, hc, rfl⟩ := mem_propertyDeclarations_iff.1 h
  exact isWorked_typing.2
    (mem_workedTypes_of_propertyTypes (mem_propertyTypes_of_onlySort? hc))

end TripleSet

namespace Graph

open TripleSet

variable {g g' g'' : Graph} {t : Triple} {e : Edit} {es : List Edit} {budget : Option Nat}

/-- A graph has the imports of another one, and the triples of its base that normalization does
not work on, in their order. -/
structure Frames (g g' : Graph) : Prop where
  imports : g'.imports = g.imports
  base : (g'.base.toList.filter fun t => !t.isWorked) = g.base.toList.filter fun t => !t.isWorked

/-- A graph frames what it frames itself. -/
theorem Frames.refl : g.Frames g := ⟨rfl, rfl⟩

/-- What two normalizations leave alone, one after the other leaves alone. -/
theorem Frames.trans (h : g.Frames g') (h' : g'.Frames g'') : g.Frames g'' :=
  ⟨h'.imports.trans h.imports, h'.base.trans h.base⟩

/-- The triples of the base that normalization does not work on stay. -/
theorem Frames.mem_base_iff (h : g.Frames g') (ht : t.isWorked = false) :
    t ∈ g'.base ↔ t ∈ g.base := by
  have hiff : t ∈ (g'.base.toList.filter fun t => !t.isWorked) ↔
      t ∈ g.base.toList.filter fun t => !t.isWorked := by rw [h.base]
  simpa only [List.mem_filter, ht, Bool.not_false, and_true, ← TripleSet.mem_def] using hiff

/-- The triples of the graph that normalization does not work on stay. -/
theorem Frames.mem_iff (h : g.Frames g') (ht : t.isWorked = false) : t ∈ g' ↔ t ∈ g := by
  rw [mem_def, mem_def, h.mem_base_iff ht, h.imports]

/-- The other types are left alone. -/
theorem Frames.mem_typing_iff (h : g.Frames g') {n : Node} {c : Iri} (hc : c ∉ workedTypes) :
    Triple.typing n c ∈ g' ↔ Triple.typing n c ∈ g := h.mem_iff (isWorked_typing_eq_false hc)

/-- The imports stay, so what is imported stays imported. -/
theorem Frames.isImported (h : g.Frames g') : g'.isImported t = g.isImported t := by
  unfold Graph.isImported
  rw [h.imports]

/-- The headers are among what is left alone. -/
theorem Frames.headers_eq (h : g.Frames g') : g'.headers = g.headers := by
  have hskip : ∀ S : TripleSet, S.subjects (.rdf .type) (.iri (.owl .Ontology) : Node) =
      (S.toList.filter fun t => !t.isWorked).filterMap fun t =>
        if t.predicate == .rdf .type && t.object == .node (.iri (.owl .Ontology)) then
          some t.subject else none := by
    intro S
    rw [List.filterMap_filter]
    refine List.filterMap_congr fun t _ => ?_
    split
    case isTrue ht =>
      simp only [Bool.and_eq_true, beq_iff_eq] at ht
      obtain ⟨n, p, o⟩ := t
      obtain ⟨rfl, rfl⟩ := ht
      have hkeep : (!(Triple.typing n (.owl .Ontology)).isWorked) = true := by
        rw [isWorked_typing_eq_false (by decide), Bool.not_false]
      exact (if_pos hkeep).symm
    case isFalse => exact (ite_self none).symm
  unfold headers
  rw [hskip, hskip, h.base]

/-- An edit of what normalization works on leaves the rest alone. -/
theorem frames_edit (h : e.triple.isWorked = true) : g.Frames (g.edit e).2 := by
  have hskip : (!e.triple.isWorked) = false := by rw [h, Bool.not_true]
  refine ⟨becomes_edit.imports, ?_⟩
  cases e with
  | add t => exact filter_base_insert hskip
  | delete t => exact filter_base_remove hskip

/-- Several edits of what normalization works on leave the rest alone. -/
theorem frames_edits (h : ∀ e ∈ es, e.triple.isWorked = true) : g.Frames (g.edits es).2 := by
  induction es generalizing g with
  | nil => exact .refl
  | cons e es ih =>
    obtain ⟨he, hes⟩ := List.forall_mem_cons.1 h
    exact (frames_edit he).trans (ih hes)

/-- Rounds that settle the sorts of properties leave alone what normalization does not work on. -/
theorem frames_settleWithin {rounds : Nat} : g.Frames (g.settleWithin budget rounds).2 := by
  induction rounds generalizing g with
  | zero => exact .refl
  | succ rounds ih =>
    have hedits : g.Frames (g.edits (g.union.sortEdits budget)).2 :=
      frames_edits fun _ => isWorked_of_sortEdits
    unfold settleWithin
    dsimp only
    split
    case isTrue => exact hedits
    case isFalse => exact hedits.trans ih

/-- Settling types leaves alone what normalization does not work on. -/
theorem frames_settleTypes : g.Frames (g.settleTypes budget).2 := by
  unfold settleTypes settleSorts
  dsimp only
  have hfirst : g.Frames (g.edits g.union.characteristicEdits).2 :=
    frames_edits fun _ => isWorked_of_characteristicEdits
  have hlast : ∀ h : Graph, h.Frames (h.edits h.union.redundancyEdits).2 :=
    fun _ => frames_edits fun _ => isWorked_of_redundancyEdits
  exact hfirst.trans (frames_settleWithin.trans (hlast _))

end Graph

namespace Pipeline

open Ontograph.Graph TripleSet

variable {p : Pass} {s : Settings} {w : Workbench}

/-- All passes but the one that merges headers leave the other triples alone. -/
theorem frames_run (hp : p ∈ standard) (hheader : p ≠ headerPass) :
    w.graph.Frames (p.run s w).2.graph := by
  rcases mem_standard_iff.1 hp with rfl | rfl | rfl | rfl
  · rw [run_legacyPass]
    dsimp only
    exact frames_edits fun _ => isWorked_of_legacyEdits
  · rw [run_typingPass]
    dsimp only
    exact frames_settleTypes
  · exact absurd rfl hheader
  · rw [run_declarationPass]
    dsimp only
    refine frames_edits fun e he => ?_
    rcases List.mem_append.1 he with he | he
    · exact isWorked_of_classDeclarations he
    · exact isWorked_of_propertyDeclarations he

end Pipeline

end Ontograph
