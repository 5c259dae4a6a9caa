import Ontograph.Rdf.Rank

/-!
# Sets of triples

A set of triples is a list without repetitions. An insertion puts a triple behind those of its rank,
so a look-up lists its answers by rank. The order is a convention: any list without repetitions is a
set, and what is proved of an insertion is only that it permutes the triples (`place_perm`). The
look-ups of this module read one position of the triples given the others; each of them has a law
saying which triples it answers from.
-/

namespace Ontograph

/-- A finite set of triples. -/
structure TripleSet where
  toList : List Triple
  nodup : toList.Nodup
  deriving DecidableEq

namespace TripleSet

variable {S : TripleSet} {t : Triple} {s : Node} {p : Iri} {o : Term}

instance : Membership Triple TripleSet := ⟨fun S t => t ∈ S.toList⟩

instance : Decidable (t ∈ S) := inferInstanceAs (Decidable (t ∈ S.toList))

/-- The elements of a set of triples are those of its list. -/
theorem mem_def : t ∈ S ↔ t ∈ S.toList := Iff.rfl

/-! ## Building sets -/

/-- The set without triples. -/
def empty : TripleSet := ⟨[], List.nodup_nil⟩

instance : EmptyCollection TripleSet := ⟨empty⟩
instance : Inhabited TripleSet := ⟨∅⟩

/-- The empty set has no triples. -/
theorem not_mem_empty : t ∉ (∅ : TripleSet) := List.not_mem_nil

/-- The triples of a list with one more, behind those that it does not precede. -/
def place (t : Triple) (ts : List Triple) : List Triple :=
  ts.takeWhile (fun u => !t.precedes u) ++ t :: ts.dropWhile fun u => !t.precedes u

/-- Wherever a triple is placed, no other is lost or added. -/
theorem place_perm {ts : List Triple} : (place t ts).Perm (t :: ts) := by
  refine List.perm_middle.trans ?_
  rw [List.takeWhile_append_dropWhile]

/-- The set with one more triple. -/
def insert (S : TripleSet) (t : Triple) : TripleSet :=
  if h : t ∈ S then S
  else ⟨place t S.toList, place_perm.nodup_iff.2 (List.nodup_cons.2 ⟨h, S.nodup⟩)⟩

/-- An insertion adds its triple and nothing else. -/
@[simp] theorem mem_insert {u : Triple} : u ∈ S.insert t ↔ u ∈ S ∨ u = t := by
  unfold insert
  split
  case isTrue h => exact ⟨Or.inl, fun hu => hu.elim id fun e => e ▸ h⟩
  case isFalse =>
    refine place_perm.mem_iff.trans ?_
    rw [List.mem_cons, or_comm, mem_def]

/-- The set without a triple. -/
def erase (S : TripleSet) (t : Triple) : TripleSet :=
  ⟨S.toList.filter fun u => decide (u ≠ t), List.Pairwise.filter _ S.nodup⟩

/-- A removal takes its triple away and nothing else. -/
@[simp] theorem mem_erase {u : Triple} : u ∈ S.erase t ↔ u ∈ S ∧ u ≠ t := by
  simp [erase, mem_def]

/-- The set with further triples. -/
def insertMany (S : TripleSet) (ts : List Triple) : TripleSet := ts.foldl insert S

/-- Inserting several triples adds each of them and nothing else. -/
@[simp] theorem mem_insertMany {ts : List Triple} {u : Triple} :
    u ∈ S.insertMany ts ↔ u ∈ S ∨ u ∈ ts := by
  unfold insertMany
  induction ts generalizing S with
  | nil => simp
  | cons t ts ih => simp [ih, or_assoc]

/-- The set of the triples of a list. -/
def ofList (ts : List Triple) : TripleSet := empty.insertMany ts

/-- The set made of a list has the triples of the list. -/
@[simp] theorem mem_ofList {ts : List Triple} : t ∈ ofList ts ↔ t ∈ ts := by
  rw [ofList, mem_insertMany]
  exact ⟨fun h => h.elim (fun h => absurd h not_mem_empty) id, Or.inr⟩

/-- The set followed by those triples of another set that it does not hold. -/
def followedBy (S T : TripleSet) : TripleSet where
  toList := S.toList ++ T.toList.filter fun t => decide (t ∉ S)
  nodup := by
    refine List.nodup_append.2 ⟨S.nodup, T.nodup.filter _, fun a ha b hb hab => ?_⟩
    exact of_decide_eq_true (List.mem_filter.1 hb).2 (hab ▸ ha)

/-- One set after another one has the triples of both. -/
@[simp] theorem mem_followedBy {T : TripleSet} : t ∈ S.followedBy T ↔ t ∈ S ∨ t ∈ T := by
  simp only [followedBy, mem_def, List.mem_append, List.mem_filter, decide_eq_true_eq]
  by_cases h : t ∈ S.toList <;> simp [h]

/-- The number of triples. -/
def size (S : TripleSet) : Nat := S.toList.length

/-! ## Patterns -/

/-- A triple with some positions left open. -/
structure Pattern where
  subject? : Option Node
  predicate? : Option Iri
  object? : Option Term

/-- Does the triple have the given terms in the positions that are not open? -/
def Pattern.admits (q : Pattern) (t : Triple) : Bool :=
  q.subject?.all (· == t.subject) && q.predicate?.all (· == t.predicate) &&
    q.object?.all (· == t.object)

/-- The triples of a given pattern. -/
def find (S : TripleSet) (q : Pattern) : List Triple := S.toList.filter q.admits

/-- A look-up finds the triples of the set that fit its pattern. -/
theorem mem_find {q : Pattern} : t ∈ S.find q ↔ t ∈ S ∧ q.admits t = true := List.mem_filter

/-! ## Look-ups -/

/-- The triples with a given subject. -/
def outgoing (S : TripleSet) (s : Node) : List Triple := S.toList.filter fun t => t.subject == s

/-- The triples with a given object. -/
def incoming (S : TripleSet) (o : Term) : List Triple := S.toList.filter fun t => t.object == o

/-- The triples with a given predicate. -/
def uses (S : TripleSet) (p : Iri) : List Triple := S.toList.filter fun t => t.predicate == p

/-- The triples with a given subject and predicate. -/
def statements (S : TripleSet) (s : Node) (p : Iri) : List Triple :=
  S.toList.filter fun t => t.predicate == p && t.subject == s

/-- The objects that a subject has for a predicate. -/
def objects (S : TripleSet) (s : Node) (p : Iri) : List Term :=
  S.toList.filterMap fun t => if t.predicate == p && t.subject == s then some t.object else none

/-- The first object that a subject has for a predicate. -/
def object? (S : TripleSet) (s : Node) (p : Iri) : Option Term :=
  (S.toList.find? fun t => t.predicate == p && t.subject == s).map Triple.object

/-- The subjects that have an object for a predicate. -/
def subjects (S : TripleSet) (p : Iri) (o : Term) : List Node :=
  S.toList.filterMap fun t => if t.predicate == p && t.object == o then some t.subject else none

/-- Does the subject have an object for the predicate? -/
def hasProperty (S : TripleSet) (s : Node) (p : Iri) : Bool :=
  S.toList.any fun t => t.predicate == p && t.subject == s

/-- Does the object have a subject for the predicate? -/
def hasSubject (S : TripleSet) (p : Iri) (o : Term) : Bool :=
  S.toList.any fun t => t.predicate == p && t.object == o

/-- Is the node the subject of a triple? -/
def describes (S : TripleSet) (s : Node) : Bool := S.toList.any fun t => t.subject == s

/-- Is the IRI the predicate of a triple? -/
def isUsed (S : TripleSet) (p : Iri) : Bool := S.toList.any fun t => t.predicate == p

/-- Is the node typed with the class? -/
def hasType (S : TripleSet) (s : Node) (c : Iri) : Bool :=
  S.toList.any fun t => t.predicate == .rdf .type && t.subject == s && t.object == c

/-- The IRIs a node is typed with. -/
def types (S : TripleSet) (s : Node) : List Iri := (S.objects s (.rdf .type)).filterMap Term.iri?

/-- The triples with a term in any position: first as object, then as subject, then as
predicate. A triple that has it in two positions is listed twice. -/
def mentioning (S : TripleSet) (x : Term) : List Triple :=
  S.incoming x ++
    match x with
    | .node (.iri i) => S.outgoing i ++ S.uses i
    | .node (.blank b) => S.outgoing b
    | .literal _ => []

/-! ## What the look-ups answer from -/

/-- The triples about a node are those whose subject it is. -/
@[simp] theorem mem_outgoing : t ∈ S.outgoing s ↔ t ∈ S ∧ t.subject = s := by
  simp [outgoing, mem_def]

/-- The triples with a term at their end are those whose object it is. -/
@[simp] theorem mem_incoming : t ∈ S.incoming o ↔ t ∈ S ∧ t.object = o := by
  simp [incoming, mem_def]

/-- The uses of a predicate are the triples that have it. -/
@[simp] theorem mem_uses : t ∈ S.uses p ↔ t ∈ S ∧ t.predicate = p := by
  simp [uses, mem_def]

/-- The statements of a property are the triples with that subject and predicate. -/
@[simp] theorem mem_statements :
    t ∈ S.statements s p ↔ t ∈ S ∧ t.predicate = p ∧ t.subject = s := by
  simp [statements, mem_def]

/-- The values of a property are the objects of its statements. -/
@[simp] theorem mem_objects : o ∈ S.objects s p ↔ ⟨s, p, o⟩ ∈ S := by
  simp only [objects, List.mem_filterMap, Option.ite_none_right_eq_some, Bool.and_eq_true,
    beq_iff_eq, Option.some.injEq, mem_def]
  constructor
  · rintro ⟨t, ht, ⟨rfl, rfl⟩, rfl⟩
    exact ht
  · exact fun h => ⟨_, h, ⟨rfl, rfl⟩, rfl⟩

/-- The nodes with a value are the subjects of the triples that say so. -/
@[simp] theorem mem_subjects : s ∈ S.subjects p o ↔ ⟨s, p, o⟩ ∈ S := by
  simp only [subjects, List.mem_filterMap, Option.ite_none_right_eq_some, Bool.and_eq_true,
    beq_iff_eq, Option.some.injEq, mem_def]
  constructor
  · rintro ⟨t, ht, ⟨rfl, rfl⟩, rfl⟩
    exact ht
  · exact fun h => ⟨_, h, ⟨rfl, rfl⟩, rfl⟩

/-- The first object is an object. -/
theorem mem_of_object? (h : S.object? s p = some o) : ⟨s, p, o⟩ ∈ S := by
  obtain ⟨t, ht, rfl⟩ := Option.map_eq_some_iff.1 h
  have hp := List.find?_some ht
  simp only [Bool.and_eq_true, beq_iff_eq] at hp
  obtain ⟨rfl, rfl⟩ := hp
  exact List.mem_of_find?_eq_some ht

/-- A node has a property if it has a value for it. -/
@[simp] theorem hasProperty_iff : S.hasProperty s p = true ↔ ∃ o, ⟨s, p, o⟩ ∈ S := by
  simp only [hasProperty, List.any_eq_true, Bool.and_eq_true, beq_iff_eq]
  constructor
  · rintro ⟨t, ht, rfl, rfl⟩
    exact ⟨t.object, ht⟩
  · rintro ⟨o, h⟩
    exact ⟨_, h, rfl, rfl⟩

/-- A value is used if some node has it. -/
@[simp] theorem hasSubject_iff : S.hasSubject p o = true ↔ ∃ s, ⟨s, p, o⟩ ∈ S := by
  simp only [hasSubject, List.any_eq_true, Bool.and_eq_true, beq_iff_eq]
  constructor
  · rintro ⟨t, ht, rfl, rfl⟩
    exact ⟨t.subject, ht⟩
  · rintro ⟨s, h⟩
    exact ⟨_, h, rfl, rfl⟩

/-- A node is described if it is the subject of a triple. -/
@[simp] theorem describes_iff : S.describes s = true ↔ ∃ t ∈ S, t.subject = s := by
  simp [describes, mem_def]

/-- A predicate is used if some triple has it. -/
@[simp] theorem isUsed_iff : S.isUsed p = true ↔ ∃ t ∈ S, t.predicate = p := by
  simp [isUsed, mem_def]

/-- A node has a type if a triple types it so. -/
@[simp] theorem hasType_iff {c : Iri} : S.hasType s c = true ↔ ⟨s, .rdf .type, c⟩ ∈ S := by
  simp only [hasType, List.any_eq_true, Bool.and_eq_true, beq_iff_eq]
  constructor
  · rintro ⟨⟨_, _, _⟩, ht, ⟨rfl, rfl⟩, rfl⟩
    exact ht
  · exact fun h => ⟨_, h, ⟨rfl, rfl⟩, rfl⟩

/-- The types of a node are those that triples give it. -/
@[simp] theorem mem_types {c : Iri} : c ∈ S.types s ↔ ⟨s, .rdf .type, c⟩ ∈ S := by
  simp only [types, List.mem_filterMap, mem_objects]
  constructor
  · rintro ⟨o, h, ho⟩
    match o, ho with
    | .node (.iri i), ho => exact (Option.some.inj ho) ▸ h
  · exact fun h => ⟨_, h, rfl⟩

/-! ## Walks that visit each subject once -/

/-- The number of triples whose subject a walk has not visited yet. -/
def unvisited (S : TripleSet) (visited : List Node) : Nat :=
  (S.toList.filter fun t => decide (t.subject ∉ visited)).length

/-- Visiting a new subject leaves fewer triples to visit. -/
theorem unvisited_cons_lt {visited : List Node} (hs : s ∉ visited) (ht : t ∈ S)
    (hts : t.subject = s) : S.unvisited (s :: visited) < S.unvisited visited := by
  have h : (S.toList.filter fun t => decide (t.subject ∉ s :: visited)) =
      (S.toList.filter fun t => decide (t.subject ∉ visited)).filter
        fun t => decide (t.subject ≠ s) := by
    rw [List.filter_filter]
    congr 1
    funext u
    simp only [List.mem_cons, not_or, Bool.decide_and]
  unfold unvisited
  rw [h, List.length_filter_lt_length_iff_exists]
  refine ⟨t, ?_, ?_⟩
  · simp only [List.mem_filter, decide_eq_true_eq]
    exact ⟨ht, hts ▸ hs⟩
  · simp [hts]

end TripleSet

end Ontograph
