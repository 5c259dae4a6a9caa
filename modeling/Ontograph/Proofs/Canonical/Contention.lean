import Ontograph.Proofs.Canonical.Rewriting
import Ontograph.Proofs.Classify.Completeness
import Ontograph.Proofs.Graph.Cells

/-!
# What passes contend for

Two passes may be at odds over a type of a node (`Graph.Contested`): one writes the type in every
round and the other takes it out again.  This happens to `owl:Class` on a restriction that is in
the place of a class, or that an import calls a deprecated class, and to `rdf:Property` on a
property with a sort that an import calls a deprecated property.  An import that holds the type
settles the matter, because nothing is written then.

A node that is contested stays so as long as the header of the base is left alone, since the passes
write none of the triples that make it contested except the sorts of properties, and never take
those out (`Graph.Contested.of_keepsSorts`).  A round that changes nothing meets no contested node.
-/

namespace Ontograph

/-! ## The place of a class -/

namespace TripleSet

variable {S T : TripleSet} {s : Settings} {c : Category} {n : Node} {x : Term}

/-- A question that the node settles is answered with that, if the budget allows one step. -/
theorem isA_of_settled? {answer : Bool} {budget : Option Nat}
    (h : S.settled? ⟨c, n⟩ = some answer) :
    S.isA budget c n = (!(budget.any (· ≤ 0)) && answer) := by
  have hdepth : S.questionBound = (S.questionBound - 1) + 1 := by
    unfold questionBound
    omega
  have hspend : Search.spend? { budget } =
      if budget.any (· ≤ 0) then none else some { steps := 1, budget } := rfl
  unfold isA decideIn TripleSet.answer
  dsimp only
  rw [hdepth, answerWithin, hspend]
  cases budget.any (· ≤ 0) <;> simp [Search.known?, h]

/-- A restriction is a class. -/
theorem settled?_of_restriction (hn : n.isReserved = false)
    (h : Triple.typing n (.owl .Restriction) ∈ S) : S.settled? ⟨.owlClass, n⟩ = some true := by
  have hshows : S.looksLikeClass n = true := by
    have htype : S.hasType n (.owl .Restriction) = true := hasType_iff.2 h
    simp [looksLikeClass, htype]
  refine settled?_eq_true_iff.2 (Or.inr ⟨?_, hshows⟩)
  rintro ⟨-, hreserved | hfalse⟩
  · rw [hn] at hreserved
    cases hreserved
  · exact hfalse

/-- The predicates whose subject is a class. -/
def classSubjects : List Iri := [.rdfs .subClassOf, .owl .disjointWith, .owl .disjointUnionOf]

/-- The predicates whose object is a class. -/
def classObjects : List Iri :=
  [.rdfs .subClassOf, .owl .disjointWith, .owl .complementOf, .owl .onClass, .rdf .type]

/-- The rules that put a term in the place of a class. -/
inductive PlacesClass (S : TripleSet) (s : Settings) : Term → Prop
  | subject {t : Triple} (ht : t ∈ S) (hp : t.predicate ∈ classSubjects) : PlacesClass S s t.subject
  | object {t : Triple} (ht : t ∈ S) (hp : t.predicate ∈ classObjects) : PlacesClass S s t.object
  | member {t : Triple} {xs : List Term} {x : Term} (ht : t ∈ S)
      (hp : t.predicate = .owl .disjointUnionOf)
      (hxs : S.readCells (some s.listLimit) [] t.object = .ok xs) (hx : x ∈ xs) : PlacesClass S s x
  | equivalent {t : Triple} (ht : t ∈ S) (hp : t.predicate = .owl .equivalentClass)
      (hclass : S.isA s.budget .owlClass t.subject = true) : PlacesClass S s t.subject
  | operand {t : Triple} (ht : t ∈ S)
      (hp : t.predicate = .owl .equivalentClass ∨ t.predicate = .rdfs .domain)
      (hclass : S.isA s.budget .owlClass t.object = true) : PlacesClass S s t.object

/-- The terms that are listed as being in the place of a class are in one. -/
theorem mem_classPlaces_iff : x ∈ S.classPlaces s ↔ S.PlacesClass s x := by
  simp only [classPlaces, List.mem_append, List.mem_flatMap, List.mem_map, List.mem_filter,
    mem_uses]
  constructor
  · rintro ((((⟨p, hp, t, ⟨ht, rfl⟩, hx⟩ | ⟨p, hp, t, ⟨ht, rfl⟩, rfl⟩) | ⟨t, ⟨ht, hp⟩, hx⟩) |
      ⟨t, ⟨ht, hp⟩, rfl⟩) | ⟨⟨t, ⟨ht, hp⟩, hx⟩ | ⟨t, ⟨ht, hp⟩, rfl⟩, hclass⟩)
    · have hsides : ∀ p, p ∈ [Iri.rdfs .subClassOf, .owl .disjointWith] →
          p ∈ classSubjects ∧ p ∈ classObjects := by decide
      rcases List.mem_cons.1 hx with rfl | hx
      · exact .subject ht (hsides _ hp).1
      · rw [List.mem_singleton.1 hx]
        exact .object ht (hsides _ hp).2
    · have hobjects : ∀ p, p ∈ [Iri.owl .complementOf, .owl .onClass] → p ∈ classObjects := by
        decide
      exact .object ht (hobjects _ hp)
    · rcases List.mem_cons.1 hx with rfl | hx
      · exact .subject ht (by rw [hp]; decide)
      · unfold readList at hx
        cases hxs : S.readCells (some s.listLimit) [] t.object with
        | error _ => simp [hxs, Except.mapError] at hx
        | ok xs =>
          rw [hxs] at hx
          exact .member ht hp hxs hx
    · exact .object ht (by rw [hp]; decide)
    · rcases List.mem_cons.1 hx with rfl | hx
      · exact .equivalent ht hp hclass
      · rw [List.mem_singleton.1 hx] at hclass ⊢
        exact .operand ht (.inl hp) hclass
    · exact .operand ht (.inr hp) hclass
  · intro h
    cases h with
    | @subject t ht hp =>
      simp only [classSubjects, List.mem_cons, List.not_mem_nil, or_false] at hp
      rcases hp with hp | hp | hp
      · exact .inl (.inl (.inl (.inl ⟨_, by simp, t, ⟨ht, hp⟩, by simp⟩)))
      · exact .inl (.inl (.inl (.inl ⟨_, by simp, t, ⟨ht, hp⟩, by simp⟩)))
      · exact .inl (.inl (.inr ⟨t, ⟨ht, hp⟩, by simp⟩))
    | @object t ht hp =>
      simp only [classObjects, List.mem_cons, List.not_mem_nil, or_false] at hp
      rcases hp with hp | hp | hp | hp | hp
      · exact .inl (.inl (.inl (.inl ⟨_, by simp, t, ⟨ht, hp⟩, by simp⟩)))
      · exact .inl (.inl (.inl (.inl ⟨_, by simp, t, ⟨ht, hp⟩, by simp⟩)))
      · exact .inl (.inl (.inl (.inr ⟨_, by simp, t, ⟨ht, hp⟩, rfl⟩)))
      · exact .inl (.inl (.inl (.inr ⟨_, by simp, t, ⟨ht, hp⟩, rfl⟩)))
      · exact .inl (.inr ⟨t, ⟨ht, hp⟩, rfl⟩)
    | @member t xs _ ht hp hxs hx =>
      refine .inl (.inl (.inr ⟨t, ⟨ht, hp⟩, List.mem_cons_of_mem _ ?_⟩))
      unfold readList
      rw [hxs]
      exact hx
    | @equivalent t ht hp hclass => exact .inr ⟨.inl ⟨t, ⟨ht, hp⟩, by simp⟩, hclass⟩
    | @operand t ht hp hclass =>
      rcases hp with hp | hp
      · exact .inr ⟨.inl ⟨t, ⟨ht, hp⟩, by simp⟩, hclass⟩
      · exact .inr ⟨.inr ⟨t, ⟨ht, hp⟩, rfl⟩, hclass⟩

end TripleSet

/-! ## What passes leave alone -/

/-- An edit of what normalization works on that takes out no sort of a property. -/
structure Edit.KeepsSorts (e : Edit) : Prop where
  isWorked : e.triple.isWorked = true
  sorts : ∀ n, ∀ c ∈ propertyTypes, e ≠ .delete (.typing n c)

namespace Graph

open TripleSet

variable {g g' g'' : Graph} {n : Node} {i : Iri} {t : Triple} {e : Edit} {es : List Edit}
  {s : Settings}

/-- Triples with other predicates than those that normalization writes are left alone, and so are
types outside the reserved namespaces. -/
theorem isWorked_eq_false (hp : t.predicate ∉ workedPredicates)
    (htype : t.predicate = .rdf .type →
      ∃ i : Iri, i.isReserved = false ∧ t.object = .node (.iri i)) : t.isWorked = false := by
  have hreserved : ∀ c ∈ workedTypes, c.isReserved = true := by decide
  rw [← Bool.not_eq_true]
  simp only [Triple.isWorked, Bool.or_eq_true, List.contains_iff_mem, hp, false_or,
    Bool.and_eq_true, beq_iff_eq, List.any_eq_true]
  rintro ⟨ht, c, hc, ho⟩
  obtain ⟨i, hi, ho'⟩ := htype ht
  rw [ho'] at ho
  cases ho
  rw [hreserved c hc] at hi
  cases hi

/-- Lists are read as before. -/
theorem Frames.readCells_eq_ok_iff (h : g.Frames g') {limit : Option Nat} {visited : List Node}
    {c : Term} {xs : List Term} : g'.union.readCells limit visited c = .ok xs ↔
      g.union.readCells limit visited c = .ok xs := by
  have hcell : ∀ p, p ∉ workedPredicates → p ≠ .rdf .type → ∀ n,
      g'.union.object? n p = g.union.object? n p := by
    intro p hp htype n
    refine object?_congr (q := fun t => !t.isWorked) (fun t ht => ?_)
      (filter_union_congr h.imports h.base) n
    subst ht
    rw [isWorked_eq_false hp fun e => absurd e htype, Bool.not_false]
  exact readCells_eq_ok_congr (hcell _ (by decide) (by decide)) (hcell _ (by decide) (by decide))

/-- A restriction is a class before and after normalization, so neither of the two searches goes on
from there. -/
theorem Frames.isA_restriction (h : g.Frames g') {budget : Option Nat} (hi : i.isReserved = false)
    (hrestriction : Triple.typing i (.owl .Restriction) ∈ g) :
    g'.union.isA budget .owlClass (i : Node) = g.union.isA budget .owlClass (i : Node) := by
  have hmem' : Triple.typing i (.owl .Restriction) ∈ g' :=
    (h.mem_typing_iff (by decide)).2 hrestriction
  have hnode : (Node.iri i).isReserved = false := hi
  rw [isA_of_settled? (settled?_of_restriction hnode (mem_union.2 hmem')),
    isA_of_settled? (settled?_of_restriction hnode (mem_union.2 hrestriction))]

/-- The triples that say where the classes are stand in both graphs, whatever was typed. -/
theorem Frames.mem_union_iff (h : g.Frames g') (hi : i.isReserved = false)
    (hp : t.predicate ∉ workedPredicates)
    (htype : t.predicate = .rdf .type → t.object = .node (.iri i)) :
    t ∈ g'.union ↔ t ∈ g.union := by
  rw [mem_union, mem_union]
  exact h.mem_iff (isWorked_eq_false hp fun e => ⟨i, hi, htype e⟩)

/-- A restriction with a name stays in the place of a class. -/
theorem Frames.placesClass (h : g.Frames g') (hi : i.isReserved = false)
    (hrestriction : Triple.typing i (.owl .Restriction) ∈ g)
    (hplaced : g.union.PlacesClass s (i : Node)) : g'.union.PlacesClass s (i : Node) := by
  have hkept : ∀ t ∈ g.union, t.predicate ∉ workedPredicates →
      (t.predicate = .rdf .type → t.object = .node (.iri i)) → t ∈ g'.union :=
    fun t ht hp htype => (h.mem_union_iff hi hp htype).2 ht
  have hother : ∀ p ∈ classSubjects ++ classObjects ++ [.owl .equivalentClass, .rdfs .domain],
      p ∉ workedPredicates := by decide
  have hclass : g.union.isA s.budget .owlClass (i : Node) = true →
      g'.union.isA s.budget .owlClass (i : Node) = true := by
    rw [h.isA_restriction hi hrestriction]
    exact id
  generalize hx : (Term.node (.iri i)) = x at hplaced hkept hclass ⊢
  cases hplaced with
  | subject ht hp =>
    have hsubject : ∀ p ∈ classSubjects, p ≠ .rdf .type := by decide
    exact .subject (hkept _ ht (hother _ (by simp [hp])) fun e => absurd e (hsubject _ hp)) hp
  | object ht hp =>
    exact .object (hkept _ ht (hother _ (by simp [hp])) fun _ => rfl) hp
  | member ht hp hxs hm =>
    refine .member (hkept _ ht ?_ ?_) hp (h.readCells_eq_ok_iff.2 hxs) hm
    · rw [hp]
      decide
    · rw [hp]
      exact fun e => nomatch e
  | equivalent ht hp hc =>
    refine .equivalent (hkept _ ht ?_ ?_) hp (hclass hc)
    · rw [hp]
      decide
    · rw [hp]
      exact fun e => nomatch e
  | operand ht hp hc =>
    refine .operand (hkept _ ht ?_ fun _ => rfl) hp (hclass hc)
    rcases hp with hp | hp <;> rw [hp] <;> decide

/-- An IRI in the place of a class is a node of the graph from before. -/
theorem Frames.mem_positions_of_placesClass (h : g.Frames g') (hi : i.isReserved = false)
    (hplaced : g'.union.PlacesClass s (i : Node)) : .iri i ∈ g.union.positions := by
  have hold : ∀ t ∈ g'.union, t.predicate ∉ workedPredicates →
      (t.predicate = .rdf .type → t.object = .node (.iri i)) → t ∈ g.union :=
    fun t ht hp htype => (h.mem_union_iff hi hp htype).1 ht
  have hsubjects : ∀ p ∈ classSubjects ++ [.owl .equivalentClass], p ∉ workedPredicates ∧
      p ≠ .rdf .type := by decide
  have hobjects : ∀ p ∈ classObjects ++ [.owl .equivalentClass, .rdfs .domain],
      p ∉ workedPredicates := by decide
  have hsubject : ∀ t ∈ g'.union, t.predicate ∈ classSubjects ++ [.owl .equivalentClass] →
      t.subject ∈ g.union.positions := by
    intro t ht hp
    obtain ⟨hother, htype⟩ := hsubjects _ hp
    exact subject_mem_positions (hold t ht hother fun e => absurd e htype)
  have hobject : ∀ t ∈ g'.union,
      t.predicate ∈ classObjects ++ [.owl .equivalentClass, .rdfs .domain] →
      t.object = .node (.iri i) → .iri i ∈ g.union.positions := by
    intro t ht hp ho
    exact mem_positions_iff.2 ⟨t, hold t ht (hobjects _ hp) fun _ => ho, Or.inr (Or.inr ho)⟩
  generalize hx : Term.node (.iri i) = x at hplaced
  cases hplaced with
  | subject ht hp =>
    rw [Term.node.inj hx]
    exact hsubject _ ht (List.mem_append_left _ hp)
  | object ht hp => exact hobject _ ht (List.mem_append_left _ hp) hx.symm
  | member ht hp hxs hm =>
    subst hx
    obtain ⟨cell, hcell⟩ := exists_first_of_mem_readCells hxs hm
    have hfirst : Iri.rdf .first ∉ workedPredicates := by decide
    exact object_mem_positions (hold _ hcell hfirst fun e => nomatch e)
  | equivalent ht hp =>
    rw [Term.node.inj hx]
    exact hsubject _ ht (by simp [hp])
  | operand ht hp =>
    refine hobject _ ht ?_ hx.symm
    rcases hp with hp | hp <;> simp [hp]

/-! ## Types that only grow -/

/-- Normalization works on the types of a graph, and takes out no sort of a property. -/
structure KeepsSorts (g g' : Graph) : Prop where
  frames : g.Frames g'
  sorts : ∀ n, ∀ c ∈ propertyTypes, Triple.typing n c ∈ g → Triple.typing n c ∈ g'

/-- A graph keeps its own sorts. -/
theorem KeepsSorts.refl : g.KeepsSorts g := ⟨.refl, fun _ _ _ h => h⟩

/-- What two normalizations keep, one after the other keeps. -/
theorem KeepsSorts.trans (h : g.KeepsSorts g') (h' : g'.KeepsSorts g'') : g.KeepsSorts g'' :=
  ⟨h.frames.trans h'.frames, fun n c hc ht => h'.sorts n c hc (h.sorts n c hc ht)⟩

/-- Edits that each keep the sorts of properties do so one after another. -/
theorem keepsSorts_edits (h : ∀ e ∈ es, e.KeepsSorts) : g.KeepsSorts (g.edits es).2 := by
  refine ⟨frames_edits fun e he => (h e he).isWorked, fun n c hc ht => ?_⟩
  induction es generalizing g with
  | nil => exact ht
  | cons e es ih =>
    obtain ⟨he, hes⟩ := List.forall_mem_cons.1 h
    refine ih hes ?_
    cases e with
    | add t => exact mem_insert.2 (Or.inl ht)
    | delete t =>
      refine (mem_remove_of_ne ?_).2 ht
      rintro rfl
      exact he.sorts n c hc rfl

/-- No sort of a property is superseded vocabulary. -/
theorem keepsSorts_of_legacyEdits {S : TripleSet} (h : e ∈ S.legacyEdits) : e.KeepsSorts := by
  refine ⟨isWorked_of_legacyEdits h, fun n c hc he => ?_⟩
  subst he
  have hlegacy : ∀ l ∈ legacyTypes, l.legacy ∉ propertyTypes := by decide
  rcases mem_legacyEdits_iff.1 h with ⟨l, hl, m, -, he | ⟨-, he⟩ | he⟩ | ⟨m, o, -, he | he⟩
  · cases he
  · cases he
  · cases he
    exact hlegacy l hl hc
  · cases he
  · cases he

/-- No sort of a property says less than another type. -/
theorem keepsSorts_of_redundancyEdits {S : TripleSet} (h : e ∈ S.redundancyEdits) :
    e.KeepsSorts := by
  refine ⟨isWorked_of_redundancyEdits h, fun n c hc he => ?_⟩
  subst he
  have hlesser : ∀ p ∈ lesserTypes, p.1 ∉ propertyTypes := by decide
  obtain ⟨p, hp, m, -, -, he⟩ := mem_redundancyEdits_iff.1 h
  cases he
  exact hlesser p hp hc

/-- Typing the subjects of characteristics takes nothing out. -/
theorem keepsSorts_of_characteristicEdits {S : TripleSet} (h : e ∈ S.characteristicEdits) :
    e.KeepsSorts := by
  refine ⟨isWorked_of_characteristicEdits h, fun n c _ he => ?_⟩
  subst he
  obtain ⟨_, _, _, _, he⟩ := mem_characteristicEdits_iff.1 h
  cases he

/-- Settling the sorts of properties takes nothing out. -/
theorem keepsSorts_of_sortEdits {S : TripleSet} {budget : Option Nat} (h : e ∈ S.sortEdits budget) :
    e.KeepsSorts := by
  refine ⟨isWorked_of_sortEdits h, fun n c _ he => ?_⟩
  subst he
  obtain ⟨_, _, _, _, he⟩ := mem_sortEdits_iff.1 h
  cases he

/-- Declaring what the graph implies takes nothing out. -/
theorem keepsSorts_of_declarationEdits (h : e ∈ Pipeline.declarationEdits s g) : e.KeepsSorts := by
  rcases List.mem_append.1 h with h | h
  · refine ⟨isWorked_of_classDeclarations h, fun n c _ he => ?_⟩
    subst he
    obtain ⟨_, _, _, he⟩ := mem_classDeclarations_iff.1 h
    cases he
  · refine ⟨isWorked_of_propertyDeclarations h, fun n c _ he => ?_⟩
    subst he
    obtain ⟨_, _, _, _, _, he⟩ := mem_propertyDeclarations_iff.1 h
    cases he

/-! ## Contested nodes -/

/-- Two passes are at odds over a type of a node: `owl:Class` is written and taken out on a
restriction, or `rdf:Property` on a property with a sort. -/
inductive Contested (s : Settings) (g : Graph) (n : Node) : Prop
  | restriction (hrestriction : Triple.typing n (.owl .Restriction) ∈ g)
      (hgiven : g.isImported (.typing n (.owl .DeprecatedClass)) = true ∨
        .add (.typing n (.owl .Class)) ∈ g.union.classDeclarations s)
      (hown : g.isImported (.typing n (.owl .Class)) = false)
  | property (hsort : g.union.hasPropertyType n = true)
      (hgiven : g.isImported (.typing n (.owl .DeprecatedProperty)) = true)
      (hown : g.isImported (.typing n (.rdf .Property)) = false)

/-- A contested node stays contested. -/
theorem Contested.of_keepsSorts (h : g.Contested s n) (hkeeps : g.KeepsSorts g') :
    g'.Contested s n := by
  cases h with
  | restriction hrestriction hgiven hown =>
    have hmem : Triple.typing n (.owl .Restriction) ∈ g' :=
      (hkeeps.frames.mem_typing_iff (by decide)).2 hrestriction
    refine .restriction hmem ?_ ((hkeeps.frames.isImported).trans hown)
    refine hgiven.imp (hkeeps.frames.isImported).trans fun hdeclared => ?_
    obtain ⟨i, hi, hplaced, he⟩ := mem_classDeclarations_iff.1 hdeclared
    cases he
    refine mem_classDeclarations_iff.2 ⟨i, hi, ?_, rfl⟩
    rw [mem_classPlaces_iff] at hplaced ⊢
    exact hkeeps.frames.placesClass hi hrestriction hplaced
  | property hsort hgiven hown =>
    obtain ⟨c, hc, ht⟩ := hasPropertyType_iff.1 hsort
    refine .property (hasPropertyType_iff.2 ⟨c, hc, ?_⟩) ((hkeeps.frames.isImported).trans hgiven)
      ((hkeeps.frames.isImported).trans hown)
    exact mem_union.2 (hkeeps.sorts n c hc (mem_union.1 ht))

end Graph

namespace Pipeline

open PassReport Ontograph.Graph TripleSet

variable {p : Pass} {ps : Pipeline} {s : Settings} {w : Workbench} {number : Nat}

/-- In a round that changed nothing, each pass that applies to the graph changes nothing. -/
theorem run_eq_zero_of_round (hps : ∀ p ∈ ps, p ∈ standard) (hnew : w.NamesNew)
    (hzero : total (round s number ps w).1 = 0) (hp : p ∈ ps)
    (happlies : p.applies w.graph = true) : (p.run s w).1 = 0 := by
  induction ps generalizing w with
  | nil => cases hp
  | cons q ps ih =>
    obtain ⟨hq, hrest⟩ := List.forall_mem_cons.1 hps
    unfold round at hzero
    by_cases hq' : q.applies w.graph = true
    · rw [if_pos hq'] at hzero
      have hsum : (q.run s w).1 + total (round s number ps (q.run s w).2).1 = 0 := hzero
      have hfirst : (q.run s w).1 = 0 := by omega
      rcases List.mem_cons.1 hp with rfl | hp
      · exact hfirst
      · -- the other passes see the same graph, with names to come that may differ
        have hsame : (q.run s w).2.graph = w.graph := (becomes_run hq).eq_of_zero hfirst
        have hnew' : (q.run s w).2.NamesNew :=
          hnew.of_precedes (becomes_run hq).imports (precedes_run hq)
        have hlater := ih hrest hnew' (by omega) hp (by rw [hsame]; exact happlies)
        have hagain := run_again (hrest p hp) hnew' hlater w.supply
        rw [hsame] at hagain
        rw [hagain]
    · rw [if_neg hq'] at hzero
      rcases List.mem_cons.1 hp with rfl | hp
      · exact absurd happlies hq'
      · exact ih hrest hnew hzero hp happlies

/-- A round that changed nothing left each superseded type with the type that replaces it. -/
theorem modern_of_round (hnew : w.NamesNew) (hzero : total (round s number standard w).1 = 0)
    {l : LegacyType} (hl : l ∈ legacyTypes) {n : Node}
    (h : Triple.typing n l.legacy ∈ w.graph) : Triple.typing n l.modern ∈ w.graph := by
  have happlies : legacyPass.applies w.graph = true :=
    hasLegacy_iff.2 ⟨_, mem_union.2 h, .type hl⟩
  have hrun := run_eq_zero_of_round (fun _ hp => hp) hnew hzero
    (mem_standard_iff.2 (Or.inl rfl)) happlies
  rw [run_legacyPass] at hrun
  dsimp only at hrun
  exact edits_eq_zero_iff.1 hrun _
    (mem_legacyEdits_iff.2 (Or.inl ⟨l, hl, n, mem_union.2 h, Or.inl rfl⟩))

/-- A round that changed nothing found no type in the base that says less than another one. -/
theorem not_lesser_of_round (hnew : w.NamesNew)
    (hzero : total (round s number standard w).1 = 0) {q : Iri × List Iri} (hq : q ∈ lesserTypes)
    {n : Node} (h : ∃ d ∈ q.2, Triple.typing n d ∈ w.graph) :
    Triple.typing n q.1 ∉ w.graph.base := by
  intro hbase
  have hrun := run_eq_zero_of_round (fun _ hp => hp) hnew hzero
    (mem_standard_iff.2 (Or.inr (Or.inl rfl))) rfl
  rw [run_typingPass] at hrun
  dsimp only at hrun
  obtain ⟨d, hd, ht⟩ := h
  have hidle : w.graph.Idle (.delete (.typing n q.1)) :=
    edits_eq_zero_iff.1 (edits_redundancy_eq_zero hrun) _ (mem_redundancyEdits_iff.2
      ⟨q, hq, n, mem_union.2 (Or.inl hbase), ⟨d, hd, mem_union.2 ht⟩, rfl⟩)
  exact hidle hbase

/-- A round that changed nothing declared no class. -/
theorem declared_of_round (hnew : w.NamesNew) (hzero : total (round s number standard w).1 = 0)
    {t : Triple} (h : .add t ∈ declarationEdits s w.graph) : t ∈ w.graph := by
  have hrun := run_eq_zero_of_round (fun _ hp => hp) hnew hzero
    (mem_standard_iff.2 (Or.inr (Or.inr (Or.inr rfl)))) rfl
  rw [run_declarationPass] at hrun
  dsimp only at hrun
  exact edits_eq_zero_iff.1 hrun _ h

/-- A round that changed nothing met no contested node. -/
theorem not_contested_of_round (hnew : w.NamesNew)
    (hzero : total (round s number standard w).1 = 0) (n : Node) : ¬ w.graph.Contested s n := by
  have hbase : ∀ t, t ∈ w.graph → w.graph.isImported t = false → t ∈ w.graph.base := by
    intro t ht hown
    refine ht.resolve_right fun himported => ?_
    rw [isImported_iff.2 himported] at hown
    cases hown
  intro h
  -- a contested type is there once some pass has written it, and is taken out by the typing pass
  cases h with
  | restriction hrestriction hgiven hown =>
    have hclass : Triple.typing n (.owl .Class) ∈ w.graph := by
      rcases hgiven with himported | hdeclared
      · exact modern_of_round hnew hzero
          (show ⟨.owl .DeprecatedClass, .owl .Class, true⟩ ∈ legacyTypes by decide)
          (Or.inr (isImported_iff.1 himported))
      · exact declared_of_round hnew hzero (List.mem_append_left _ hdeclared)
    exact not_lesser_of_round hnew hzero
      (show (.owl .Class, [.owl .Restriction]) ∈ lesserTypes by decide)
      ⟨_, List.mem_singleton_self _, hrestriction⟩ (hbase _ hclass hown)
  | property hsort hgiven hown =>
    have hproperty : Triple.typing n (.rdf .Property) ∈ w.graph :=
      modern_of_round hnew hzero
        (show ⟨.owl .DeprecatedProperty, .rdf .Property, true⟩ ∈ legacyTypes by decide)
        (Or.inr (isImported_iff.1 hgiven))
    obtain ⟨c, hc, ht⟩ := hasPropertyType_iff.1 hsort
    exact not_lesser_of_round hnew hzero
      (show (.rdf .Property, propertyTypes) ∈ lesserTypes by decide)
      ⟨c, hc, mem_union.1 ht⟩ (hbase _ hproperty hown)

/-- A round that changed nothing found one header. -/
theorem headers_of_round (hnew : w.NamesNew) (hzero : total (round s number standard w).1 = 0) :
    w.graph.headers.length = 1 := by
  by_contra hlength
  have happlies : headerPass.applies w.graph = true := bne_iff_ne.2 hlength
  have hrun := run_eq_zero_of_round (fun _ hp => hp) hnew hzero
    (mem_standard_iff.2 (Or.inr (Or.inr (Or.inl rfl)))) happlies
  rw [run_headerPass] at hrun
  exact hnew.mergeHeaders_ne_zero hlength hrun

end Pipeline

end Ontograph
