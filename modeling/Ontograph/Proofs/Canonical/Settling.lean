import Mathlib.Data.List.Nodup
import Ontograph.Graph.Lookup
import Ontograph.Proofs.Canonical.Rewriting

/-!
# Settling the sorts of properties

The rounds that settle the sorts of properties stop of themselves.  `Graph.SettlesIn` is their run
with no bound on the number of rounds, and `Graph.settleSorts` is such a run: its bound is never
what stops it.

What is implied in one round is read from the types that the rounds before it wrote, and a new type
may take away as well as give evidence, so nothing is known of the sorts that are implied later.
The argument is about the nodes without a sort.  Every round gives a sort to some of them
(`Graph.Sorts`), none of them gets two, and one that has a sort is never looked at again; so there
are fewer of them after each round, and the triples written are as many as the nodes settled.
-/

namespace Ontograph

namespace TripleSet

variable {S : TripleSet} {n : Node} {budget : Option Nat}

/-- A node is listed once among the properties without a sort. -/
theorem nodup_unsortedProperties : S.unsortedProperties.Nodup := Graph.nodup_eraseDups _

/-- The types that a round writes. -/
def sortTypings (S : TripleSet) (budget : Option Nat) : List Triple :=
  S.unsortedProperties.filterMap fun n => (S.impliedSort? budget n).map (.typing n)

/-- The edits of a round add the types that the round writes. -/
theorem sortEdits_eq : S.sortEdits budget = (S.sortTypings budget).map .add := by
  unfold sortEdits sortTypings
  rw [List.map_filterMap]
  refine List.filterMap_congr fun n _ => ?_
  rw [Option.map_map]
  rfl

/-- One type is written for a node at most. -/
theorem nodup_subjects_sortTypings : ((S.sortTypings budget).map Triple.subject).Nodup := by
  unfold sortTypings
  rw [List.map_filterMap]
  refine nodup_unsortedProperties.filterMap fun n m k hn hm => ?_
  simp only [Option.map_map, Option.mem_def, Option.map_eq_some_iff] at hn hm
  obtain ⟨_, -, rfl⟩ := hn
  obtain ⟨_, -, hsame⟩ := hm
  exact hsame.symm

/-- No sort is implied for a node that is classified as no property, or as an annotation property
only, while it is said to be functional. -/
theorem impliedSort?_eq_none_iff : S.impliedSort? budget n = none ↔
    S.isA budget .objectProperty n = false ∧ S.isA budget .dataProperty n = false ∧
      (S.hasType n (.owl .FunctionalProperty) = false →
        S.isA budget .annotationProperty n = false) := by
  unfold impliedSort?
  cases S.isA budget .objectProperty n <;> cases S.isA budget .dataProperty n <;>
    cases S.hasType n (.owl .FunctionalProperty) <;>
    cases S.isA budget .annotationProperty n <;> simp

end TripleSet

namespace Graph

open TripleSet

variable {g g' g'' : Graph} {ts us : List Triple} {n : Node} {budget : Option Nat} {k m : Nat}

/-! ## Sorts that are written -/

/-- Edits that only add triples insert them. -/
theorem edits_add : (g.edits (ts.map .add)).2 = (g.insertAll ts).2 := by
  induction ts generalizing g with
  | nil => rfl
  | cons t ts ih =>
    rw [insertAll_cons, ← ih]
    rfl

/-- New triples are counted one by one. -/
theorem count_edits_add (hnew : ∀ t ∈ ts, t ∉ g) (hnodup : ts.Nodup) :
    (g.edits (ts.map .add)).1 = ts.length := by
  induction ts generalizing g with
  | nil => rfl
  | cons t ts ih =>
    obtain ⟨ht, hts⟩ := List.forall_mem_cons.1 hnew
    obtain ⟨hfresh, hnodup⟩ := List.nodup_cons.1 hnodup
    have hfirst : (g.insert t).1 = true := by
      rw [← Bool.not_eq_false]
      intro hfalse
      have hidle : g.Idle (.add t) := edit_eq_false_iff.1 hfalse
      exact ht hidle
    have hrest : ∀ u ∈ ts, u ∉ (g.insert t).2 := by
      intro u hu hmem
      rcases mem_insert.1 hmem with hmem | rfl
      · exact hts u hu hmem
      · exact hfresh hu
    have hcount : (g.edits ((t :: ts).map .add)).1 =
        (g.insert t).1.toNat + ((g.insert t).2.edits (ts.map .add)).1 := rfl
    rw [hcount, hfirst, ih hrest hnodup, List.length_cons, Bool.toNat_true, Nat.add_comm]

/-- A graph became another one by types that were written to its base: one for each of some
properties that had no sort, which is a sort. -/
structure Sorts (g : Graph) (ts : List Triple) (g' : Graph) : Prop where
  imports : g'.imports = g.imports
  base : ∀ t, t ∈ g'.base ↔ t ∈ g.base ∨ t ∈ ts
  typing : ∀ t ∈ ts, ∃ n ∈ g.union.unsortedProperties, ∃ c ∈ propertyTypes, t = .typing n c
  once : (ts.map Triple.subject).Nodup

/-- Without types nothing is settled. -/
theorem Sorts.refl : g.Sorts [] g := ⟨rfl, by simp, by simp, List.nodup_nil⟩

/-- An unsorted property has no sort in the graph. -/
theorem not_mem_of_unsorted (hn : n ∈ g.union.unsortedProperties) {c : Iri}
    (hc : c ∈ propertyTypes) : Triple.typing n c ∉ g := by
  intro ht
  have hsort : g.union.hasPropertyType n = true :=
    hasPropertyType_iff.2 ⟨c, hc, mem_union.2 ht⟩
  rw [(mem_unsortedProperties_iff.1 hn).2] at hsort
  cases hsort

/-- The types are new to all layers. -/
theorem Sorts.new (h : g.Sorts ts g') {t : Triple} (ht : t ∈ ts) : t ∉ g := by
  obtain ⟨n, hn, c, hc, rfl⟩ := h.typing t ht
  exact not_mem_of_unsorted hn hc

/-- The graph has gained the types and nothing else. -/
theorem Sorts.mem_iff (h : g.Sorts ts g') {t : Triple} : t ∈ g' ↔ t ∈ g ∨ t ∈ ts := by
  rw [mem_def, mem_def, h.base, h.imports, or_right_comm]

/-- The other types are as they were. -/
theorem Sorts.mem_typing_iff (h : g.Sorts ts g') {c : Iri} (hc : c ∉ propertyTypes) :
    Triple.typing n c ∈ g' ↔ Triple.typing n c ∈ g := by
  rw [h.mem_iff, or_iff_left]
  intro ht
  obtain ⟨_, -, d, hd, he⟩ := h.typing _ ht
  cases he
  exact hc hd

/-- The nodes with a sort are those that had one and those that were given one. -/
theorem Sorts.hasPropertyType_iff (h : g.Sorts ts g') : g'.union.hasPropertyType n = true ↔
    g.union.hasPropertyType n = true ∨ n ∈ ts.map Triple.subject := by
  simp only [TripleSet.hasPropertyType_iff, mem_union, h.mem_iff, List.mem_map]
  constructor
  · rintro ⟨c, hc, ht | ht⟩
    · exact Or.inl ⟨c, hc, ht⟩
    · exact Or.inr ⟨_, ht, rfl⟩
  · rintro (⟨c, hc, ht⟩ | ⟨t, ht, rfl⟩)
    · exact ⟨c, hc, Or.inl ht⟩
    · obtain ⟨n, -, c, hc, rfl⟩ := h.typing t ht
      exact ⟨c, hc, Or.inr ht⟩

/-- The nodes that were given a sort are no longer without one, and the others still are. -/
theorem Sorts.mem_unsortedProperties_iff (h : g.Sorts ts g') :
    n ∈ g'.union.unsortedProperties ↔
      n ∈ g.union.unsortedProperties ∧ n ∉ ts.map Triple.subject := by
  have hfunctional : Triple.typing n (.owl .FunctionalProperty) ∈ g' ↔
      Triple.typing n (.owl .FunctionalProperty) ∈ g := h.mem_typing_iff (by decide)
  have hproperty : Triple.typing n (.rdf .Property) ∈ g' ↔ Triple.typing n (.rdf .Property) ∈ g :=
    h.mem_typing_iff (by decide)
  simp only [TripleSet.mem_unsortedProperties_iff, mem_union, hfunctional, hproperty,
    ← Bool.not_eq_true, h.hasPropertyType_iff, not_or, and_assoc]

/-- There are as many properties without a sort fewer as types were written. -/
theorem Sorts.length (h : g.Sorts ts g') :
    ts.length + g'.union.unsortedProperties.length = g.union.unsortedProperties.length := by
  have hdisjoint : (ts.map Triple.subject).Disjoint g'.union.unsortedProperties :=
    fun _ hn hn' => (h.mem_unsortedProperties_iff.1 hn').2 hn
  have hperm : (ts.map Triple.subject ++ g'.union.unsortedProperties).Perm
      g.union.unsortedProperties := by
    refine (List.perm_ext_iff_of_nodup (h.once.append nodup_unsortedProperties hdisjoint)
      nodup_unsortedProperties).2 fun n => ?_
    rw [List.mem_append, h.mem_unsortedProperties_iff]
    constructor
    · rintro (hn | ⟨hn, -⟩)
      · obtain ⟨t, ht, rfl⟩ := List.mem_map.1 hn
        obtain ⟨n, hunsorted, _, -, rfl⟩ := h.typing t ht
        exact hunsorted
      · exact hn
    · intro hn
      by_cases hts : n ∈ ts.map Triple.subject
      · exact Or.inl hts
      · exact Or.inr ⟨hn, hts⟩
  have hlength := hperm.length_eq
  rw [List.length_append, List.length_map] at hlength
  exact hlength

/-- Types are written one after another, and none to a property that was given one. -/
theorem Sorts.trans (h : g.Sorts ts g') (h' : g'.Sorts us g'') : g.Sorts (ts ++ us) g'' where
  imports := h'.imports.trans h.imports
  base t := by rw [h'.base, h.base, List.mem_append, or_assoc]
  typing t ht := by
    rcases List.mem_append.1 ht with ht | ht
    · exact h.typing t ht
    · obtain ⟨n, hn, c, hc, rfl⟩ := h'.typing t ht
      exact ⟨n, (h.mem_unsortedProperties_iff.1 hn).1, c, hc, rfl⟩
  once := by
    rw [List.map_append]
    refine h.once.append h'.once fun n hn hn' => ?_
    obtain ⟨t, ht, rfl⟩ := List.mem_map.1 hn'
    obtain ⟨n, hunsorted, _, -, rfl⟩ := h'.typing t ht
    exact (h.mem_unsortedProperties_iff.1 hunsorted).2 hn

/-! ## Rounds -/

/-- One round writes a sort for each property without one that is implied to have one. -/
theorem sorts_round :
    g.Sorts (g.union.sortTypings budget) (g.edits (g.union.sortEdits budget)).2 := by
  have htyping : ∀ t ∈ g.union.sortTypings budget,
      ∃ n ∈ g.union.unsortedProperties, ∃ c ∈ propertyTypes, t = .typing n c := by
    intro t ht
    obtain ⟨n, hn, c, hc, rfl⟩ : ∃ n ∈ g.union.unsortedProperties,
        ∃ c, g.union.impliedSort? budget n = some c ∧ .typing n c = t := by
      simpa only [sortTypings, List.mem_filterMap, Option.map_eq_some_iff] using ht
    exact ⟨n, hn, c, mem_propertyTypes_of_impliedSort? hc, rfl⟩
  have hnew : ∀ t ∈ g.union.sortTypings budget, t ∉ g := by
    intro t ht
    obtain ⟨n, hn, c, hc, rfl⟩ := htyping t ht
    exact not_mem_of_unsorted hn hc
  rw [sortEdits_eq, edits_add]
  exact ⟨imports_insertAll, fun _ => mem_base_insertAll hnew, htyping, nodup_subjects_sortTypings⟩

/-- A round counts every type that it writes, as each of them is new. -/
theorem count_round : (g.edits (g.union.sortEdits budget)).1 =
    (g.union.sortTypings budget).length := by
  rw [sortEdits_eq]
  exact count_edits_add (fun _ => sorts_round.new) nodup_subjects_sortTypings.of_map

/-- After a round that wrote nothing, no sort is implied for a property without one. -/
theorem impliedSort?_eq_none_of_rest (h : (g.edits (g.union.sortEdits budget)).1 = 0)
    (hn : n ∈ g.union.unsortedProperties) : g.union.impliedSort? budget n = none := by
  cases hc : g.union.impliedSort? budget n with
  | none => rfl
  | some c =>
    have hidle : Triple.typing n c ∈ g :=
      edits_eq_zero_iff.1 h _ (mem_sortEdits_iff.2 ⟨n, c, hn, hc, rfl⟩)
    exact absurd hidle (not_mem_of_unsorted hn (mem_propertyTypes_of_impliedSort? hc))

/-- Rounds that settle the sorts of properties, up to the first one that writes nothing, with the
number of rounds and of the triples they wrote. -/
inductive SettlesIn (budget : Option Nat) : Nat → Graph → Nat → Graph → Prop
  | rest {g : Graph} (hzero : (g.edits (g.union.sortEdits budget)).1 = 0) : SettlesIn budget 1 g 0 g
  | round {g g' : Graph} {k m : Nat} (hsome : (g.edits (g.union.sortEdits budget)).1 ≠ 0)
      (hrest : SettlesIn budget k (g.edits (g.union.sortEdits budget)).2 m g') :
      SettlesIn budget (k + 1) g ((g.edits (g.union.sortEdits budget)).1 + m) g'

/-- A run writes one sort for each node that it settles, and counts them. -/
theorem SettlesIn.sorts (h : SettlesIn budget k g m g') : ∃ ts, g.Sorts ts g' ∧ ts.length = m := by
  induction h with
  | rest => exact ⟨[], .refl, rfl⟩
  | round _ _ ih =>
    obtain ⟨ts, hts, hlength⟩ := ih
    exact ⟨_, sorts_round.trans hts, by rw [List.length_append, count_round, hlength]⟩

/-- Every round but the last one writes something. -/
theorem SettlesIn.rounds_le (h : SettlesIn budget k g m g') : k ≤ m + 1 := by
  induction h with
  | rest => exact Nat.le_refl _
  | round hsome _ ih => omega

/-- Where a run ends, a round writes nothing. -/
theorem SettlesIn.rests (h : SettlesIn budget k g m g') :
    (g'.edits (g'.union.sortEdits budget)).1 = 0 := by
  induction h with
  | rest hzero => exact hzero
  | round _ _ ih => exact ih

/-- With more rounds than there are properties without a sort, the bound does not stop the run. -/
theorem settlesIn_settleWithin {rounds : Nat} (h : g.union.unsortedProperties.length < rounds) :
    ∃ k, SettlesIn budget k g (g.settleWithin budget rounds).1
      (g.settleWithin budget rounds).2 := by
  induction rounds generalizing g with
  | zero => exact absurd h (Nat.not_lt_zero _)
  | succ rounds ih =>
    have hbecomes : g.Becomes (g.edits (g.union.sortEdits budget)).1
        (g.edits (g.union.sortEdits budget)).2 := becomes_edits
    unfold settleWithin
    dsimp only
    split
    case isTrue hzero =>
      rw [hbecomes.eq_of_zero hzero]
      exact ⟨1, .rest hzero⟩
    case isFalse hsome =>
      -- the round settled a node, so the bound on those left is met with one round less
      have hround : g.Sorts (g.union.sortTypings budget) (g.edits (g.union.sortEdits budget)).2 :=
        sorts_round
      have hlength := hround.length
      rw [← count_round] at hlength
      obtain ⟨k, hk⟩ := ih (g := (g.edits (g.union.sortEdits budget)).2) (by omega)
      exact ⟨k + 1, .round hsome hk⟩

/-- Settling the sorts of properties comes to rest after one round more than there are properties
without a sort at most.  It writes new types only, one for each property that it settles, and
counts them.  When it rests, a property without a sort is neither an object property nor a data
property, and one that is not said to be functional is not an annotation property. -/
theorem settleSorts_rests (budget : Option Nat) (g : Graph) : ∃ rounds ts,
    SettlesIn budget rounds g (g.settleSorts budget).1 (g.settleSorts budget).2 ∧
    rounds ≤ g.union.unsortedProperties.length + 1 ∧
    g.Sorts ts (g.settleSorts budget).2 ∧
    (g.settleSorts budget).1 = ts.length ∧
    ∀ n : Node,
      (Triple.typing n (.owl .FunctionalProperty) ∈ (g.settleSorts budget).2 ∨
        Triple.typing n (.rdf .Property) ∈ (g.settleSorts budget).2) →
      (∀ c ∈ propertyTypes, Triple.typing n c ∉ (g.settleSorts budget).2) →
      (g.settleSorts budget).2.union.isA budget .objectProperty n = false ∧
      (g.settleSorts budget).2.union.isA budget .dataProperty n = false ∧
      (Triple.typing n (.owl .FunctionalProperty) ∉ (g.settleSorts budget).2 →
        (g.settleSorts budget).2.union.isA budget .annotationProperty n = false) := by
  obtain ⟨rounds, hrun⟩ : ∃ k, SettlesIn budget k g (g.settleSorts budget).1
      (g.settleSorts budget).2 := settlesIn_settleWithin (Nat.lt_succ_self _)
  obtain ⟨ts, hsorts, hcount⟩ := hrun.sorts
  -- each round but the last settles a property that was unsorted
  have hrounds : rounds ≤ g.union.unsortedProperties.length + 1 := by
    have hbound := hrun.rounds_le
    have hlength := hsorts.length
    omega
  refine ⟨rounds, ts, hrun, hrounds, hsorts, hcount.symm, fun n htyped hunsorted => ?_⟩
  have hn : n ∈ (g.settleSorts budget).2.union.unsortedProperties := by
    refine TripleSet.mem_unsortedProperties_iff.2 ⟨by simpa only [mem_union] using htyped, ?_⟩
    rw [← Bool.not_eq_true, TripleSet.hasPropertyType_iff]
    rintro ⟨c, hc, ht⟩
    exact hunsorted c hc (mem_union.1 ht)
  obtain ⟨hobject, hdata, hannotation⟩ :=
    impliedSort?_eq_none_iff.1 (impliedSort?_eq_none_of_rest hrun.rests hn)
  refine ⟨hobject, hdata, fun hnot => hannotation ?_⟩
  rw [← Bool.not_eq_true, hasType_iff, mem_union]
  exact hnot

end Graph

end Ontograph
