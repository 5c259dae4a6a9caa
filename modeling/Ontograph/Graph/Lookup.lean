import Ontograph.Graph.Layered

/-!
# Look-ups layer by layer

A graph looks things up in its layers, one after another, and not in their union.  In each layer a
pattern is looked up by the positions that it gives.  A triple that several layers hold is found
once: what is found is put together without repetitions, which is left out where there is only the
base.  Look-ups that ask for one thing stop at the first layer that has it.

What is found is what is found in the union, in the same order (`Graph.find_eq`), and the other
look-ups answer what the same look-ups of the union answer.  So it does not matter that everything
that is read from a graph is read from its union.
-/

namespace Ontograph

namespace TripleSet

variable {S : TripleSet} {q : Pattern}

/-- The pattern of one triple. -/
def Pattern.only (t : Triple) : Pattern := ⟨some t.subject, some t.predicate, some t.object⟩

/-- The triples of a pattern, looked up by the positions that it gives. -/
def search (S : TripleSet) (q : Pattern) : List Triple :=
  match q.subject?, q.predicate?, q.object? with
  | some s, some p, some o => if ⟨s, p, o⟩ ∈ S then [⟨s, p, o⟩] else []
  | some s, some p, none => (S.objects s p).map fun o => ⟨s, p, o⟩
  | some s, none, _ => (S.outgoing s).filter q.admits
  | none, some p, some o => (S.subjects p o).map fun s => ⟨s, p, o⟩
  | none, none, some o => (S.incoming o).filter q.admits
  | none, some p, none => S.uses p
  | none, none, none => S.toList

/-- A pattern admits the triples that have the terms that it gives. -/
theorem Pattern.admits_iff {t : Triple} :
    q.admits t = true ↔ (∀ s, q.subject? = some s → t.subject = s) ∧
      (∀ p, q.predicate? = some p → t.predicate = p) ∧ ∀ o, q.object? = some o → t.object = o := by
  obtain ⟨s?, p?, o?⟩ := q
  cases s? <;> cases p? <;> cases o? <;> simp only [admits] <;> grind

/-- A test that passes the triples that a pattern admits finds them. -/
theorem filter_eq_find {f : Triple → Bool} (hf : ∀ t, f t = true ↔ q.admits t = true) :
    S.toList.filter f = S.find q := List.filter_congr fun t _ => Bool.eq_iff_iff.2 (hf t)

/-- The pattern made for a triple admits that triple alone. -/
@[simp] theorem Pattern.admits_only {t u : Triple} : (only t).admits u = true ↔ u = t := by
  obtain ⟨s, p, o⟩ := t
  obtain ⟨s', p', o'⟩ := u
  simp [admits_iff, only]

/-- Where a triple is looked up, it is found once. -/
theorem filter_beq_eq {t : Triple} :
    S.toList.filter (· == t) = if t ∈ S then [t] else [] := by
  rw [List.filter_beq]
  split
  case isTrue h => rw [List.Nodup.count S.nodup]; simp [mem_def.1 h]
  case isFalse h => rw [List.count_eq_zero.2 h]; rfl

/-- What is read off the triples that pass a test and put back together is those triples. -/
theorem map_filterMap_ite {α : Type} {ts : List Triple} {p : Triple → Bool} {f : Triple → α}
    {h : α → Triple} (hp : ∀ t, p t = true → h (f t) = t) :
    (ts.filterMap fun t => if p t = true then some (f t) else none).map h = ts.filter p := by
  induction ts with
  | nil => rfl
  | cons t ts ih =>
    by_cases ht : p t = true
    · simp [ht, hp t ht, ih]
    · simp [ht, ih]

/-- Looking up by the positions that are given finds the triples of the pattern. -/
theorem search_eq : S.search q = S.find q := by
  obtain ⟨s?, p?, o?⟩ := q
  match s?, p?, o? with
  | none, none, none => exact (List.filter_eq_self.2 fun _ _ => rfl).symm
  | none, none, some o =>
    refine (List.filter_filter ..).trans (filter_eq_find fun t => ?_)
    simp [Pattern.admits_iff]
  | none, some p, none => exact filter_eq_find fun t => by simp [Pattern.admits_iff]
  | none, some p, some o =>
    refine (map_filterMap_ite fun t ht => ?_).trans (filter_eq_find fun t => ?_)
    · simp only [Bool.and_eq_true, beq_iff_eq] at ht
      rw [← ht.1, ← ht.2]
    · simp [Pattern.admits_iff]
  | some s, none, o? =>
    refine (List.filter_filter ..).trans (filter_eq_find fun t => ?_)
    simp +contextual [Pattern.admits_iff]
  | some s, some p, none =>
    refine (map_filterMap_ite fun t ht => ?_).trans (filter_eq_find fun t => ?_)
    · simp only [Bool.and_eq_true, beq_iff_eq] at ht
      rw [← ht.1, ← ht.2]
    · simp [Pattern.admits_iff, and_comm]
  | some s, some p, some o =>
    refine filter_beq_eq.symm.trans (filter_eq_find fun t => ?_)
    rw [beq_iff_eq]
    exact Pattern.admits_only.symm

/-! ## Look-ups and patterns -/

section Patterns

variable {s : Node} {p : Iri} {o : Term}

/-- Some triple passes a test iff a pattern for this test finds something. -/
theorem any_eq_find {f : Triple → Bool} (hf : ∀ t, f t = true ↔ q.admits t = true) :
    S.toList.any f = !(S.find q).isEmpty := by
  rw [← filter_eq_find hf, Bool.eq_iff_iff]
  simp

/-- The uses of a predicate are a look-up by predicate. -/
theorem uses_eq_find : S.uses p = S.find ⟨none, some p, none⟩ :=
  filter_eq_find fun t => by simp [Pattern.admits_iff]

/-- The triples with an object are a look-up by object. -/
theorem incoming_eq_find : S.incoming o = S.find ⟨none, none, some o⟩ :=
  filter_eq_find fun t => by simp [Pattern.admits_iff]

/-- The triples about a node are a look-up by subject. -/
theorem outgoing_eq_find : S.outgoing s = S.find ⟨some s, none, none⟩ :=
  filter_eq_find fun t => by simp [Pattern.admits_iff]

/-- The values of a property are the objects of a look-up by subject and predicate. -/
theorem objects_eq_find : S.objects s p = (S.find ⟨some s, some p, none⟩).map Triple.object := by
  simp [← search_eq, search, Function.comp_def]

/-- The nodes with a value are the subjects of a look-up by predicate and object. -/
theorem subjects_eq_find : S.subjects p o = (S.find ⟨none, some p, some o⟩).map Triple.subject := by
  simp [← search_eq, search, Function.comp_def]

/-- The one value that is asked for is the first that a look-up finds. -/
theorem object?_eq_find :
    S.object? s p = (S.find ⟨some s, some p, none⟩).head?.map Triple.object := by
  have hfind : S.toList.filter (fun t => t.predicate == p && t.subject == s) =
      S.find ⟨some s, some p, none⟩ :=
    filter_eq_find fun t => by simp [Pattern.admits_iff, and_comm]
  rw [← hfind, List.head?_filter, object?]

/-- Some node has the value if a look-up finds a triple that says so. -/
theorem hasSubject_eq_find : S.hasSubject p o = !(S.find ⟨none, some p, some o⟩).isEmpty :=
  any_eq_find fun t => by simp [Pattern.admits_iff]

/-- A node has the property if a look-up finds a triple that says so. -/
theorem hasProperty_eq_find : S.hasProperty s p = !(S.find ⟨some s, some p, none⟩).isEmpty :=
  any_eq_find fun t => by simp [Pattern.admits_iff, and_comm]

end Patterns

end TripleSet

namespace Graph

open TripleSet

variable {g : Graph} {q : Pattern}

/-- The layers: the base, then the imports in their order. -/
def layers (g : Graph) : List TripleSet := g.base :: g.imports.map Import.triples

/-- A triple is in a graph if it is in one of its layers. -/
theorem mem_iff_layers {t : Triple} : t ∈ g ↔ ∃ L ∈ g.layers, t ∈ L := by
  rw [mem_def]
  constructor
  · rintro (h | ⟨i, hi, h⟩)
    · exact ⟨_, List.mem_cons_self, h⟩
    · exact ⟨_, List.mem_cons_of_mem _ (List.mem_map_of_mem hi), h⟩
  · rintro ⟨L, hL, h⟩
    rcases List.mem_cons.1 hL with rfl | hL
    · exact Or.inl h
    · obtain ⟨i, hi, rfl⟩ := List.mem_map.1 hL
      exact Or.inr ⟨i, hi, h⟩

/-- The triples of a pattern, each once. -/
def find (g : Graph) (q : Pattern) : List Triple :=
  let found := g.layers.flatMap fun L => L.search q
  if g.imports.isEmpty then found else found.eraseDups

/-- The number of triples. -/
def size (g : Graph) : Nat :=
  if g.imports.isEmpty then g.base.size else (g.find ⟨none, none, none⟩).length

/-- Is there no triple? -/
def isEmpty (g : Graph) : Bool := g.layers.all fun L => L.toList.isEmpty

/-- The objects that a subject has for a predicate. -/
def objects (g : Graph) (s : Node) (p : Iri) : List Term :=
  (g.find ⟨some s, some p, none⟩).map Triple.object

/-- The first object that a subject has for a predicate. -/
def object? (g : Graph) (s : Node) (p : Iri) : Option Term :=
  g.layers.findSome? fun L => L.object? s p

/-- The subjects that have an object for a predicate. -/
def subjects (g : Graph) (p : Iri) (o : Term) : List Node :=
  (g.find ⟨none, some p, some o⟩).map Triple.subject

/-- The IRIs a node is typed with. -/
def types (g : Graph) (s : Node) : List Iri := (g.objects s (.rdf .type)).filterMap Term.iri?

/-- Does the object have a subject for the predicate? -/
def hasSubject (g : Graph) (p : Iri) (o : Term) : Bool := g.layers.any fun L => L.hasSubject p o

/-- Does the subject have an object for the predicate? -/
def hasProperty (g : Graph) (s : Node) (p : Iri) : Bool := g.layers.any fun L => L.hasProperty s p

/-- Is the node typed with the class? -/
def hasType (g : Graph) (s : Node) (c : Iri) : Bool := g.contains ⟨s, .rdf .type, c⟩

/-- Does a triple with the predicate pass the test? -/
def anyUsing (g : Graph) (p : Iri) (f : Triple → Bool) : Bool :=
  g.layers.any fun L => (L.uses p).any f

/-- Does a triple with the object pass the test? -/
def anyWithObject (g : Graph) (o : Term) (f : Triple → Bool) : Bool :=
  g.layers.any fun L => (L.incoming o).any f

/-- Is the IRI the predicate of a triple? -/
def isUsed (g : Graph) (p : Iri) : Bool := g.anyUsing p fun _ => true

/-- The triples with a term in any position: first as object, then as subject, then as predicate. -/
def mentioning (g : Graph) (x : Term) : List Triple :=
  g.find ⟨none, none, some x⟩ ++
    match x with
    | .node (.iri i) => g.find ⟨some (.iri i), none, none⟩ ++ g.find ⟨none, some i, none⟩
    | .node (.blank b) => g.find ⟨some (.blank b), none, none⟩
    | .literal _ => []

/-! ## Look-ups in the layers and in the union -/

/-- What passes a test and is kept once is what is kept once and passes the test. -/
theorem eraseDups_filter {α : Type} [DecidableEq α] (f : α → Bool) (as : List α) :
    (as.filter f).eraseDups = as.eraseDups.filter f := by
  induction hn : as.length using Nat.strongRecOn generalizing as with
  | ind n ih =>
    subst hn
    cases as with
    | nil => rfl
    | cons a as =>
      have hshort := List.length_filter_le (fun b => !b == a) as
      have hrest := ih _ (Nat.lt_succ_of_le hshort) _ rfl
      rw [List.eraseDups_cons, List.filter_cons, List.filter_cons, ← hrest, List.filter_filter]
      split
      case isTrue => rw [List.eraseDups_cons, List.filter_filter]; simp only [Bool.and_comm]
      case isFalse hfa =>
        congr 1
        refine List.filter_congr fun b _ => ?_
        by_cases hba : b = a
        · simp [hba, hfa]
        · simp [hba]

/-- What is kept once is there once. -/
theorem nodup_eraseDups {α : Type} [DecidableEq α] (as : List α) : as.eraseDups.Nodup := by
  induction hn : as.length using Nat.strongRecOn generalizing as with
  | ind n ih =>
    subst hn
    cases as with
    | nil => exact List.nodup_nil
    | cons a as =>
      rw [List.eraseDups_cons, List.nodup_cons, List.mem_eraseDups, List.mem_filter]
      refine ⟨by simp, ih _ ?_ _ rfl⟩
      exact Nat.lt_succ_of_le (List.length_filter_le _ _)

/-- What is there once is kept. -/
theorem eraseDups_of_nodup {α : Type} [DecidableEq α] {as : List α} (h : as.Nodup) :
    as.eraseDups = as := by
  induction as with
  | nil => rfl
  | cons a as ih =>
    obtain ⟨ha, hnodup⟩ := List.nodup_cons.1 h
    have hother : as.filter (fun b => !b == a) = as := by
      refine List.filter_eq_self.2 fun b hb => ?_
      have hba : b ≠ a := fun e => ha (e ▸ hb)
      simp [hba]
    rw [List.eraseDups_cons, hother, ih hnodup]

/-- The union lists the triples of the layers, each once. -/
theorem toList_union : g.union.toList = (g.layers.flatMap TripleSet.toList).eraseDups := by
  have h : ∀ (is : List Import) (S : TripleSet),
      (is.foldl (fun S i => S.followedBy i.triples) S).toList =
        (S.toList ++ is.flatMap fun i => i.triples.toList).eraseDups := by
    intro is
    induction is with
    | nil => exact fun S => by simp [eraseDups_of_nodup S.nodup]
    | cons i is ih =>
      intro S
      rw [List.foldl_cons, ih, List.flatMap_cons, followedBy, List.append_assoc,
        List.eraseDups_append, List.eraseDups_append]
      simp only [List.removeAll, List.filter_append, List.filter_filter]
      congr 4
      funext t
      simp [TripleSet.mem_def]
  rw [union, h]
  simp [layers, List.flatMap_map]

/-- The layers find what the union finds. -/
theorem find_eq : g.find q = g.union.find q := by
  have hfilter : g.union.find q = (g.layers.flatMap fun L => L.search q).eraseDups := by
    simp only [TripleSet.find, toList_union, search_eq, ← eraseDups_filter, List.filter_flatMap]
  unfold find
  split
  case isTrue h =>
    have hbase : g.union.find q = g.base.find q := by
      rw [union, List.isEmpty_iff.1 h]
      rfl
    simp [layers, List.isEmpty_iff.1 h, search_eq, hbase]
  case isFalse => exact hfilter.symm

/-- A look-up lists a triple once, however many layers have it. -/
theorem nodup_find : (g.find q).Nodup := by
  rw [find_eq]
  exact g.union.nodup.filter _

/-- A look-up finds the triples of the graph that fit its pattern, and no others. -/
@[simp] theorem mem_find {t : Triple} : t ∈ g.find q ↔ t ∈ g ∧ q.admits t = true := by
  rw [find_eq, TripleSet.mem_find, mem_union]

/-- The first triple that is found is the first one that a layer finds. -/
theorem head?_find : (g.find q).head? = g.layers.findSome? fun L => (L.find q).head? := by
  have hfound : (g.layers.flatMap fun L => L.search q).head? =
      g.layers.findSome? fun L => (L.find q).head? := by
    simp only [search_eq, List.head?_flatMap]
  have hfirst : ∀ ts : List Triple, ts.eraseDups.head? = ts.head? := by
    intro ts
    cases ts with
    | nil => rfl
    | cons t ts => rw [List.eraseDups_cons, List.head?_cons, List.head?_cons]
  unfold find
  split
  case isTrue => exact hfound
  case isFalse => rw [hfirst, hfound]

/-- A layer has a triple that passes a test iff the union has one. -/
theorem any_layers {f : Triple → Bool} :
    (g.layers.any fun L => L.toList.any f) = g.union.toList.any f := by
  rw [Bool.eq_iff_iff]
  simp only [List.any_eq_true, ← TripleSet.mem_def, mem_union, mem_iff_layers]
  constructor
  · rintro ⟨L, hL, t, ht, hf⟩
    exact ⟨t, ⟨L, hL, ht⟩, hf⟩
  · rintro ⟨t, ⟨L, hL, ht⟩, hf⟩
    exact ⟨L, hL, t, ht, hf⟩

section Lookups

variable {s : Node} {p : Iri} {o x : Term} {f : Triple → Bool}

/-- Triples that several layers have are counted once. -/
theorem size_eq : g.size = g.union.size := by
  have hall : (g.find ⟨none, none, none⟩).length = g.union.size := by
    rw [find_eq, ← search_eq]
    rfl
  unfold size
  split
  case isTrue h =>
    rw [union, List.isEmpty_iff.1 h]
    rfl
  case isFalse => exact hall

/-- A graph is empty if all of its layers are. -/
theorem isEmpty_eq : g.isEmpty = g.union.toList.isEmpty := by
  have hempty : ∀ ts : List Triple, ts.isEmpty = !(ts.any fun _ => true) := by
    intro ts
    cases ts <;> rfl
  simp only [isEmpty, hempty, ← List.not_any_eq_all_not]
  exact congrArg not any_layers

/-- The layers together list the values of a property as their union does. -/
theorem objects_eq : g.objects s p = g.union.objects s p := by
  rw [objects, find_eq, objects_eq_find]

/-- The first layer with a value of the property answers as the union does. -/
theorem object?_eq : g.object? s p = g.union.object? s p := by
  simp only [object?, object?_eq_find, ← find_eq, head?_find, List.map_findSome?]
  rfl

/-- The layers together list the nodes with a value as their union does. -/
theorem subjects_eq : g.subjects p o = g.union.subjects p o := by
  rw [subjects, find_eq, subjects_eq_find]

/-- The layers together list the types of a node as their union does. -/
theorem types_eq : g.types s = g.union.types s := by
  rw [types, objects_eq, TripleSet.types]

/-- Some layer has a node with the value if the union has one. -/
theorem hasSubject_eq : g.hasSubject p o = g.union.hasSubject p o := any_layers

/-- Some layer has the property of the node if the union has it. -/
theorem hasProperty_eq : g.hasProperty s p = g.union.hasProperty s p := any_layers

/-- Some layer types the node if the union does. -/
theorem hasType_eq {c : Iri} : g.hasType s c = g.union.hasType s c := by
  rw [Bool.eq_iff_iff, hasType, contains_iff, hasType_iff, mem_union]

/-- A test of the uses of a predicate passes in some layer if it does in the union. -/
theorem anyUsing_eq : g.anyUsing p f = (g.union.uses p).any f := by
  simp only [anyUsing, uses, List.any_filter]
  exact any_layers

/-- A test of the triples with an object passes in some layer if it does in the union. -/
theorem anyWithObject_eq : g.anyWithObject o f = (g.union.incoming o).any f := by
  simp only [anyWithObject, incoming, List.any_filter]
  exact any_layers

/-- Some layer uses the predicate if the union does. -/
theorem isUsed_eq : g.isUsed p = g.union.isUsed p := by
  rw [isUsed, anyUsing_eq, uses, List.any_filter, TripleSet.isUsed]
  simp only [Bool.and_true]

/-- The layers together list the triples that mention a term as their union does. -/
theorem mentioning_eq : g.mentioning x = g.union.mentioning x := by
  match x with
  | .node (.iri _) | .node (.blank _) | .literal _ =>
    simp only [mentioning, TripleSet.mentioning, find_eq, uses_eq_find, incoming_eq_find,
      outgoing_eq_find]

end Lookups

end Graph

end Ontograph
