import Mathlib.Data.List.Nodup
import Ontograph.Owl.Expression
import Ontograph.Proofs.Graph.Cells

/-!
# Sets that hold the same triples

A look-up lists its answers in the order of the set, so two sets with the same triples may answer
differently where only the first answer is used.  They answer alike if there is no choice: if every
node has at most one object for each predicate of which one object is read (`readOnce`), and every
cell other than `rdf:nil` is the rest of at most one cell.  Then items, cell triples and heads of
lists are the same in both sets, and the answers of all other look-ups differ by their order only.
-/

namespace Ontograph

/-! ## Lists with the same members -/

section Lists

variable {α : Type} {l l' : List α} {p : α → Bool}

/-- A search that only one member can end does not depend on the order. -/
theorem find?_eq_of_mem_iff (hsame : ∀ a, a ∈ l ↔ a ∈ l')
    (huniq : ∀ a ∈ l, ∀ b ∈ l, p a = true → p b = true → a = b) : l.find? p = l'.find? p := by
  cases h : l.find? p with
  | none =>
    have hnone := List.find?_eq_none.1 h
    exact (List.find?_eq_none.2 fun a ha => hnone a ((hsame a).2 ha)).symm
  | some a =>
    have ha := List.mem_of_find?_eq_some h
    have hpa : p a = true := List.find?_some h
    cases h' : l'.find? p with
    | none => exact absurd hpa (List.find?_eq_none.1 h' a ((hsame a).1 ha))
    | some b =>
      have hb := (hsame b).2 (List.mem_of_find?_eq_some h')
      rw [huniq a ha b hb hpa (List.find?_some h')]

/-- Lists with one possible member are the same if they have the same members. -/
theorem eq_of_mem_iff_of_unique (hl : l.Nodup) (hl' : l'.Nodup) (hsame : ∀ a, a ∈ l ↔ a ∈ l')
    (huniq : ∀ a ∈ l, ∀ b ∈ l, a = b) : l = l' := by
  have hperm := (List.perm_ext_iff_of_nodup hl hl').2 hsame
  match l, huniq with
  | [], _ => exact (List.nil_perm.1 hperm).symm
  | a :: l, huniq =>
    have hone : a :: l = [a] := TripleSet.eq_singleton_of_nodup hl List.mem_cons_self
      fun b hb => huniq b hb a List.mem_cons_self
    rw [hone] at hperm ⊢
    exact List.singleton_perm.1 hperm

/-- A test passes on one of two lists with the same members if it does on the other. -/
theorem any_eq_of_mem_iff (hsame : ∀ a, a ∈ l ↔ a ∈ l') : l.any p = l'.any p := by
  rw [Bool.eq_iff_iff, List.any_eq_true, List.any_eq_true]
  exact exists_congr fun a => and_congr_left fun _ => hsame a

end Lists

namespace TripleSet

/-! ## Sets that leave no choice -/

/-- The predicates of which one object of a node is read. -/
def readOnce : List Iri :=
  [.rdf .first, .rdf .rest, .owl .oneOf, .owl .unionOf, .owl .intersectionOf, .owl .complementOf,
    .owl .datatypeComplementOf, .owl .onProperty, .owl .someValuesFrom, .owl .allValuesFrom,
    .owl .hasValue, .owl .hasSelf, .owl .onClass, .owl .onDataRange, .owl .members,
    .owl .distinctMembers, .owl .sourceIndividual, .owl .assertionProperty,
    .owl .targetIndividual, .owl .targetValue, .owl .inverseOf, .owl .onDatatype,
    .owl .withRestrictions] ++ Bound.all.map Bound.plain ++ Bound.all.map Bound.qualified

/-- Wherever one object is read there is at most one, and every cell is in one list only. -/
structure Unambiguous (S : TripleSet) : Prop where
  object : ∀ p ∈ readOnce, ∀ n o o', ⟨n, p, o⟩ ∈ S → ⟨n, p, o'⟩ ∈ S → o = o'
  rest : ∀ c : Node, c ≠ .iri (.rdf .nil) →
    ∀ n m, ⟨n, .rdf .rest, c⟩ ∈ S → ⟨m, .rdf .rest, c⟩ ∈ S → n = m
  nilEnds : S.NilEnds

/-- The two triples do not leave a choice: they agree on the object where one object is read, and on
the cell that an inner cell of a list is the rest of. -/
def Agree (t u : Triple) : Prop :=
  (t.predicate ∈ readOnce ∧ t.subject = u.subject ∧ t.predicate = u.predicate →
    t.object = u.object) ∧
  (t.predicate = .rdf .rest ∧ u.predicate = .rdf .rest ∧ t.object = u.object ∧
    t.object.isLiteral = false ∧ t.object ≠ .node (.iri (.rdf .nil)) → t.subject = u.subject)

instance (t u : Triple) : Decidable (Agree t u) := inferInstanceAs (Decidable (_ ∧ _))

/-- Whether a set leaves a choice is seen by comparing its triples two by two. -/
theorem unambiguous_iff_forall_mem {S : TripleSet} : S.Unambiguous ↔
    (∀ t ∈ S.toList, ∀ u ∈ S.toList, Agree t u) ∧
    ∀ t ∈ S.toList, t.subject = .iri (.rdf .nil) →
      t.predicate ≠ .rdf .first ∧ t.predicate ≠ .rdf .rest := by
  constructor
  · intro h
    refine ⟨?_, ?_⟩
    · rintro ⟨n, p, o⟩ ht ⟨m, q, o'⟩ hu
      refine ⟨?_, ?_⟩
      · rintro ⟨hp, rfl, rfl⟩
        exact h.object p hp n o o' ht hu
      · rintro ⟨rfl, rfl, rfl, hnode, hnil⟩
        cases o with
        | literal l => cases hnode
        | node c => exact h.rest c (fun hc => hnil (congrArg _ hc)) n m ht hu
    · rintro ⟨_, p, o⟩ ht ⟨⟩
      exact ⟨fun hp => (h.nilEnds o).1 (hp ▸ ht), fun hp => (h.nilEnds o).2 (hp ▸ ht)⟩
  · rintro ⟨hagree, hnil⟩
    refine ⟨?_, ?_, ?_⟩
    · exact fun p hp n o o' ho ho' => (hagree _ ho _ ho').1 ⟨hp, rfl, rfl⟩
    · intro c hc n m hn hm
      exact (hagree _ hn _ hm).2 ⟨rfl, rfl, rfl, rfl, fun h => hc (by simpa using h)⟩
    · exact fun o => ⟨fun ho => (hnil _ ho rfl).1 rfl, fun ho => (hnil _ ho rfl).2 rfl⟩

instance (S : TripleSet) : Decidable S.Unambiguous :=
  decidable_of_iff _ unambiguous_iff_forall_mem.symm

/-- The sets hold the same triples, which leave no choice. -/
structure Alike (S T : TripleSet) : Prop where
  mem : ∀ t, t ∈ S ↔ t ∈ T
  unambiguous : S.Unambiguous

namespace Alike

variable {S T : TripleSet} {n : Node} {p c : Iri} {o x : Term} {t : Triple}

/-- Two sets that hold the same triples do so either way round. -/
theorem symm (h : S.Alike T) : T.Alike S where
  mem t := (h.mem t).symm
  unambiguous :=
    { object := fun p hp n o o' ho ho' =>
        h.unambiguous.object p hp n o o' ((h.mem _).2 ho) ((h.mem _).2 ho')
      rest := fun c hc n m hn hm => h.unambiguous.rest c hc n m ((h.mem _).2 hn) ((h.mem _).2 hm)
      nilEnds := fun o => ⟨fun ho => (h.unambiguous.nilEnds o).1 ((h.mem _).2 ho),
        fun ho => (h.unambiguous.nilEnds o).2 ((h.mem _).2 ho)⟩ }

/-! ## Look-ups that only ask whether there is a triple -/

/-- Typing does not depend on the order of triples. -/
theorem hasType (h : S.Alike T) : S.hasType n c = T.hasType n c := by
  rw [Bool.eq_iff_iff, hasType_iff, hasType_iff, h.mem]

/-- Whether a node has a property does not depend on the order. -/
theorem hasProperty (h : S.Alike T) : S.hasProperty n p = T.hasProperty n p := by
  rw [Bool.eq_iff_iff, hasProperty_iff, hasProperty_iff]
  exact exists_congr fun _ => h.mem _

/-- Whether a value is used does not depend on the order. -/
theorem hasSubject (h : S.Alike T) : S.hasSubject p o = T.hasSubject p o := by
  rw [Bool.eq_iff_iff, hasSubject_iff, hasSubject_iff]
  exact exists_congr fun _ => h.mem _

/-- Whether a node is described does not depend on the order. -/
theorem describes (h : S.Alike T) : S.describes n = T.describes n := by
  rw [Bool.eq_iff_iff, describes_iff, describes_iff]
  exact exists_congr fun _ => and_congr_left fun _ => h.mem _

/-- The nodes with a value are the same in whatever order. -/
theorem mem_subjects (h : S.Alike T) (m : Node) : m ∈ S.subjects p o ↔ m ∈ T.subjects p o := by
  rw [TripleSet.mem_subjects, TripleSet.mem_subjects, h.mem]

/-- The values of a property are the same in whatever order. -/
theorem mem_objects (h : S.Alike T) (o : Term) : o ∈ S.objects n p ↔ o ∈ T.objects n p := by
  rw [TripleSet.mem_objects, TripleSet.mem_objects, h.mem]

/-- A node has the same triples in whatever order. -/
theorem mem_outgoing (h : S.Alike T) (t : Triple) : t ∈ S.outgoing n ↔ t ∈ T.outgoing n := by
  rw [TripleSet.mem_outgoing, TripleSet.mem_outgoing, h.mem]

/-- The triples of a node are the same, up to their order. -/
theorem outgoing_perm (h : S.Alike T) : (S.outgoing n).Perm (T.outgoing n) :=
  (List.perm_ext_iff_of_nodup (S.nodup.filter _) (T.nodup.filter _)).2 h.mem_outgoing

/-! ## Look-ups for one object -/

/-- Of the predicates that one object is read of, both sets have the same object. -/
theorem object? (h : S.Alike T) (hp : p ∈ readOnce) : S.object? n p = T.object? n p := by
  refine congrArg _ (find?_eq_of_mem_iff h.mem ?_)
  rintro ⟨_, _, o⟩ ht ⟨_, _, o'⟩ hu hpt hpu
  simp only [Bool.and_eq_true, beq_iff_eq] at hpt hpu
  obtain ⟨rfl, rfl⟩ := hpt
  obtain ⟨rfl, rfl⟩ := hpu
  rw [h.unambiguous.object _ hp _ _ _ ht hu]

/-- A property that has one value has the same statements in whatever order. -/
theorem statements (h : S.Alike T) (hp : p ∈ readOnce) : S.statements n p = T.statements n p := by
  refine eq_of_mem_iff_of_unique (S.nodup.filter _) (T.nodup.filter _) (fun t => ?_) ?_
  · rw [mem_statements, mem_statements, h.mem]
  · rintro ⟨m, q, o⟩ ht ⟨m', q', o'⟩ hu
    obtain ⟨hmem, rfl, rfl⟩ := mem_statements.1 ht
    obtain ⟨hmem', hq, hm⟩ := mem_statements.1 hu
    obtain rfl : q' = q := hq
    obtain rfl : m' = m := hm
    rw [h.unambiguous.object _ hp _ _ _ hmem hmem']

/-! ## Lists -/

/-- Lists are read alike in whatever order of the triples. -/
theorem toOption_readList (h : S.Alike T) {limit : Nat} :
    (S.readList limit x).toOption = (T.readList limit x).toOption :=
  toOption_readList_congr (fun _ => h.object? (by simp [readOnce]))
    fun _ => h.object? (by simp [readOnce])

/-- Lists have the same items in whatever order of the triples. -/
theorem items (h : S.Alike T) : S.items x = T.items x :=
  items_congr (fun _ => h.object? (by simp [readOnce])) fun _ => h.object? (by simp [readOnce])

/-- Lists have the same triples in whatever order. -/
theorem listTriples (h : S.Alike T) {limit : Nat} :
    S.listTriples limit x = T.listTriples limit x :=
  cellTriples_congr (fun _ => h.statements (by simp [readOnce]))
    fun _ => h.statements (by simp [readOnce])

end Alike

/-! ## Heads of lists -/

/-- Links in which a cell is the rest of one other, and `rdf:nil` has no rest. -/
structure Linked (links : List Triple) : Prop where
  single : ∀ c : Node, c ≠ .iri (.rdf .nil) → ∀ t ∈ links, ∀ u ∈ links,
    leadsTo c t = true → leadsTo c u = true → t = u
  fromCell : ∀ c, ∀ t ∈ links, leadsTo c t = true → t.subject ≠ .iri (.rdf .nil)

/-- Where every cell is in one list, the links of the set leave no choice. -/
theorem Unambiguous.linked {S : TripleSet} (h : S.Unambiguous) : Linked S.toList where
  single := by
    rintro c hc ⟨n, _, _⟩ ht ⟨m, _, _⟩ hu hleads hleads'
    simp only [leadsTo, Bool.and_eq_true, beq_iff_eq] at hleads hleads'
    obtain ⟨rfl, rfl⟩ := hleads
    obtain ⟨rfl, rfl⟩ := hleads'
    rw [h.rest c hc n m ht hu]
  fromCell := by
    rintro c ⟨n, _, o⟩ ht hleads rfl
    simp only [leadsTo, Bool.and_eq_true, beq_iff_eq] at hleads
    obtain ⟨rfl, rfl⟩ := hleads
    exact (h.nilEnds _).2 ht

/-- Taking links out leaves no more choice than there was. -/
theorem Linked.unlink {links : List Triple} {cell : Node} (h : Linked links) :
    Linked (unlink links cell) where
  single c hc t ht u hu := h.single c hc t (List.mem_of_mem_filter ht) u (List.mem_of_mem_filter hu)
  fromCell c t ht := h.fromCell c t (List.mem_of_mem_filter ht)

/-- Walking back along the links, there is one way to go from each cell. -/
theorem Linked.headOf_eq {links links' : List Triple} {cell : Node} (h : Linked links)
    (hsame : ∀ t, t ∈ links ↔ t ∈ links') (hcell : cell ≠ .iri (.rdf .nil)) :
    headOf links cell = headOf links' cell := by
  induction links, cell using headOf.induct generalizing links' with
  | case1 links cell hnone =>
    have hfind := find?_eq_of_mem_iff hsame (h.single cell hcell)
    rw [TripleSet.headOf_eq, TripleSet.headOf_eq, ← hfind, hnone]
  | case2 links cell t ht _ ih =>
    -- both walks take the only link to the cell, and its subject is an inner cell again
    have hfind := find?_eq_of_mem_iff hsame (h.single cell hcell)
    rw [TripleSet.headOf_eq, TripleSet.headOf_eq, ← hfind, ht]
    dsimp only
    refine ih h.unlink (fun u => ?_) ?_
    · rw [TripleSet.unlink, TripleSet.unlink, List.mem_filter, List.mem_filter, hsame]
    · exact h.fromCell cell t (List.mem_of_find?_eq_some ht) (List.find?_some ht)

/-- The triples that point at a list with a given item are the same in both sets. -/
theorem Alike.mem_listLinks {S T : TripleSet} {x : Term} (h : S.Alike T) (t : Triple) :
    t ∈ S.listLinks x ↔ t ∈ T.listLinks x := by
  have hhead : ∀ cell, cell ∈ S.subjects (.rdf .first) x →
      headOf S.toList cell = headOf T.toList cell := by
    intro cell hcell
    refine h.unambiguous.linked.headOf_eq h.mem ?_
    -- a cell with an item is not the end of a list
    rintro rfl
    exact (h.unambiguous.nilEnds x).1 (TripleSet.mem_subjects.1 hcell)
  simp only [listLinks, List.mem_flatMap, List.mem_filter, mem_incoming, ← h.mem_subjects, ← h.mem]
  refine exists_congr fun cell => and_congr_right fun hcell => ?_
  rw [hhead cell hcell]

end TripleSet

end Ontograph
