import Mathlib.Data.List.Flatten
import Mathlib.Data.List.Nodup
import Ontograph.Graph.Lookup
import Ontograph.Proofs.Index.Current

/-!
# How the tables of an index hang together

An index keeps the same facts in several tables.  `AxiomIndex.Represented` says of the tables alone
how they hang together: what is counted, filed and grouped is exactly what the entries say, nothing
is kept that says nothing, and no count is lowered below zero when main triples are read again,
whichever they are and whatever is read from them (`AxiomIndex.rereadAll?`).

Behind it stands an invariant of the index (`AxiomIndex.Regular`) that entering a footprint,
forgetting a main triple and reading main triples again preserve.
-/

namespace Ontograph

/-! ## Tables -/

namespace Table

variable {κ ν : Type} [DecidableEq κ] {k j : κ}

/-- The entries are the values under the keys. -/
theorem mem_entries_iff {T : Table κ ν} {v : ν} : (k, v) ∈ T.entries ↔ T.get? k = some v := by
  have hentries : ∀ es : List (κ × ν), (es.map Prod.fst).Nodup →
      ((k, v) ∈ es ↔ es.lookup k = some v) := by
    intro es
    induction es with
    | nil => simp
    | cons e es ih =>
      intro hnodup
      obtain ⟨i, u⟩ := e
      obtain ⟨hi, hrest⟩ := List.nodup_cons.1 hnodup
      rw [List.mem_cons, ih hrest]
      by_cases hk : k = i
      · subst hk
        have hno : es.lookup k ≠ some v := fun h =>
          hi (List.mem_map.2 ⟨(k, v), (ih hrest).2 h, rfl⟩)
        rw [List.lookup_cons_self, or_iff_left hno, Prod.mk.injEq, and_iff_right rfl,
          Option.some.injEq, eq_comm]
      · rw [List.lookup_cons, beq_false_of_ne hk]
        exact or_iff_right fun h => hk (congrArg Prod.fst h)
  exact hentries T.entries T.nodup_keys

section Buckets

variable {T : Table κ (List ν)} {vs : List ν} {v : ν}

/-- No key has an item twice. -/
def Distinct (T : Table κ (List ν)) : Prop := ∀ k, (T.bucket k).Nodup

/-- The empty table has no item twice. -/
theorem distinct_empty : (∅ : Table κ (List ν)).Distinct := fun _ => List.nodup_nil

/-- Setting a bucket to a list without repetitions leaves no item twice. -/
theorem Distinct.setBucket (h : T.Distinct) (hvs : vs.Nodup) : (T.setBucket k vs).Distinct := by
  intro j
  rw [bucket_setBucket]
  split
  case isTrue => exact hvs
  case isFalse => exact h j

/-- Erasing a key leaves no item twice. -/
theorem Distinct.erase (h : T.Distinct) : (T.erase k).Distinct := by
  intro j
  rw [bucket_erase]
  split
  case isTrue => exact List.nodup_nil
  case isFalse => exact h j

/-- Filing an item leaves none twice, as one that is there is not filed again. -/
theorem Distinct.file [DecidableEq ν] (h : T.Distinct) : (T.file k v).Distinct := by
  unfold Table.file
  split
  case isTrue => exact h
  case isFalse hv => exact h.setBucket (List.concat_eq_append ▸ (h k).concat hv)

/-- Taking an item out of a bucket leaves none twice. -/
theorem Distinct.unfile [DecidableEq ν] (h : T.Distinct) : (T.unfile k v).Distinct :=
  h.setBucket ((h k).filter _)

end Buckets

section Counts

variable {T : Table κ Nat} {ks : List κ} {n : Nat}

/-- No key has a count of zero. -/
def NoZero (T : Table κ Nat) : Prop := ∀ k, T.get? k ≠ some 0

/-- The empty table keeps no count of zero. -/
theorem noZero_empty : (∅ : Table κ Nat).NoZero := fun _ h => nomatch h

/-- Setting a count keeps none of zero: such a key is dropped. -/
theorem NoZero.setCount (h : T.NoZero) : (T.setCount k n).NoZero := by
  intro j
  rw [Table.setCount, get?_alter]
  by_cases hj : j = k
  · by_cases hn : n = 0 <;> simp [hj, hn]
  · rw [if_neg hj]
    exact h j

/-- Counting keys up keeps no count of zero. -/
theorem NoZero.foldl_increment (h : T.NoZero) : (ks.foldl increment T).NoZero := by
  induction ks generalizing T with
  | nil => exact h
  | cons k ks ih => exact ih h.setCount

/-- Counting keys down keeps no count of zero. -/
theorem NoZero.foldl_decrement (h : T.NoZero) : (ks.foldl decrement T).NoZero := by
  induction ks generalizing T with
  | nil => exact h
  | cons k ks ih => exact ih h.setCount

/-- Without counts of zero, a key is there exactly if it is counted. -/
theorem NoZero.get?_eq (h : T.NoZero) :
    T.get? k = if T.count k = 0 then none else some (T.count k) := by
  unfold count
  cases hk : T.get? k with
  | none => rfl
  | some n =>
    have hn : n ≠ 0 := fun hn => h k (hn ▸ hk)
    simp [hn]

/-- Counts a key once less; a key that is not counted cannot be. -/
def decrement? (T : Table κ Nat) (k : κ) : Option (Table κ Nat) :=
  if T.count k = 0 then none else some (T.decrement k)

/-- Keys that are counted at least as often as they occur can be counted down. -/
theorem foldlM_decrement? (h : ∀ k, ks.count k ≤ T.count k) :
    ks.foldlM decrement? T = some (ks.foldl decrement T) := by
  induction ks generalizing T with
  | nil => rfl
  | cons k ks ih =>
    have hk : T.count k ≠ 0 := by
      have hle := h k
      rw [List.count_cons_self] at hle
      omega
    have hstep : decrement? T k = some (T.decrement k) := if_neg hk
    rw [List.foldlM_cons, hstep, List.foldl_cons]
    refine ih fun j => ?_
    have hle := h j
    rw [decrement, count_setCount]
    rw [List.count_cons] at hle
    by_cases hj : j = k
    · subst hj
      rw [beq_self_eq_true, if_pos rfl] at hle
      rw [if_pos rfl]
      omega
    · rw [if_neg hj]
      omega

end Counts

end Table

/-! ## The index of axioms -/

namespace AxiomIndex

variable {I : AxiomIndex} {E : AnnotatedAxiom → Footprint → Prop} {R : Source}
  {a : AnnotatedAxiom} {f : Footprint} {m t : Triple} {ms : List Triple}

/-- The axioms with their footprints, one by one. -/
def entries (I : AxiomIndex) : List (AnnotatedAxiom × Footprint) :=
  I.footprints.entries.flatMap fun e => e.2.map (e.1, ·)

/-- The entries are the axioms with each of their footprints. -/
theorem mem_entries_iff : (a, f) ∈ I.entries ↔ f ∈ I.footprintsOf a := by
  unfold entries footprintsOf Table.bucket
  rw [List.mem_flatMap]
  constructor
  · rintro ⟨⟨b, fs⟩, he, hf⟩
    obtain ⟨g, hg, heq⟩ := List.mem_map.1 hf
    obtain ⟨rfl, rfl⟩ := Prod.mk.inj heq
    rwa [Table.mem_entries_iff.1 he]
  · intro hf
    cases ha : I.footprints.get? a with
    | none =>
      rw [ha] at hf
      cases hf
    | some fs =>
      rw [ha] at hf
      exact ⟨(a, fs), Table.mem_entries_iff.2 ha, List.mem_map_of_mem hf⟩

/-- Axioms whose footprints are told apart have entries that are told apart. -/
theorem nodup_entries (h : I.footprints.Distinct) : I.entries.Nodup := by
  refine List.nodup_flatMap.2 ⟨fun e he => ?_, ?_⟩
  · have hbucket := h e.1
    unfold Table.bucket at hbucket
    rw [Table.mem_entries_iff.1 he] at hbucket
    exact hbucket.map fun f g hfg => congrArg Prod.snd hfg
  · refine (List.pairwise_map.1 I.footprints.nodup_keys).imp fun {e e'} hne => ?_
    intro r hr hr'
    obtain ⟨f, -, rfl⟩ := List.mem_map.1 hr
    obtain ⟨g, -, heq⟩ := List.mem_map.1 hr'
    exact hne (congrArg Prod.fst heq).symm

/-- A triple is used as often as there are entries with it. -/
theorem count_usedTriples (h : ∀ r ∈ I.entries, r.2.triples.Nodup) :
    I.usedTriples.count t = I.entries.countP fun r => decide (t ∈ r.2.triples) := by
  have hitems : I.usedTriples = I.entries.flatMap fun r => r.2.triples := by
    unfold usedTriples Table.items entries
    rw [List.flatMap_assoc, List.flatMap_assoc]
    simp only [List.flatMap_map]
  rw [hitems]
  clear hitems
  revert h
  induction I.entries with
  | nil => exact fun _ => rfl
  | cons r rs ih =>
    intro h
    rw [List.flatMap_cons, List.count_append, List.countP_cons,
      ih fun r' hr' => h r' (List.mem_cons_of_mem _ hr')]
    by_cases ht : t ∈ r.2.triples
    · rw [List.count_eq_one_of_mem (h r List.mem_cons_self) ht, decide_eq_true ht, if_pos rfl]
      omega
    · rw [List.count_eq_zero_of_not_mem ht, decide_eq_false ht, if_neg Bool.false_ne_true]
      omega

/-! ### The invariant -/

/-- The tables agree on what is entered, and hold nothing twice and nothing empty. -/
structure Regular (I : AxiomIndex) : Prop where
  holds : I.Holds fun a f => f ∈ I.footprintsOf a
  footprints : I.footprints.Distinct
  byKind : I.byKind.Distinct
  byMain : I.byMain.Distinct
  uses : I.uses.NoZero
  nodup_triples : ∀ a, ∀ f ∈ I.footprintsOf a, f.triples.Nodup

/-- What an index holds is what its entries say. -/
theorem Holds.self (h : I.Holds E) : I.Holds fun a f => f ∈ I.footprintsOf a :=
  h.congr fun a f => (h.mem_footprintsOf a f).symm

/-- The empty index is regular. -/
theorem regular_empty : Regular {} where
  holds := holds_empty.self
  footprints := Table.distinct_empty
  byKind := Table.distinct_empty
  byMain := Table.distinct_empty
  uses := Table.noZero_empty
  nodup_triples _ _ hf := nomatch hf

/-- Entering a footprint without repetitions keeps the index regular. -/
theorem Regular.insert (h : I.Regular) (hf : f.triples.Nodup) : (I.insert a f).Regular := by
  refine ⟨h.holds.insert.self, ?_, ?_, ?_, ?_, fun b g hg => ?_⟩
  case refine_5 =>
    rcases (h.holds.insert.mem_footprintsOf b g).1 hg with hg | ⟨-, rfl⟩
    · exact h.nodup_triples b g hg
    · exact hf
  all_goals unfold AxiomIndex.insert; split
  · exact h.footprints
  · exact h.footprints.file
  · exact h.byKind
  · exact h.byKind.file
  · exact h.byMain
  · exact h.byMain.file
  · exact h.uses
  · exact h.uses.foldl_increment

/-- Entering footprints without repetitions keeps the index regular. -/
theorem Regular.insertAll {rs : List (AnnotatedAxiom × Footprint)} (h : I.Regular)
    (hrs : ∀ r ∈ rs, r.2.triples.Nodup) : (I.insertAll rs).Regular := by
  induction rs generalizing I with
  | nil => exact h
  | cons r rs ih =>
    exact ih (h.insert (hrs r List.mem_cons_self)) fun r' hr' => hrs r' (List.mem_cons_of_mem _ hr')

/-- An index that was just built is regular. -/
theorem regular_ofSource : (ofSource R).Regular := by
  refine regular_empty.insertAll fun r hr => ?_
  obtain ⟨m, -, hm⟩ := List.mem_flatMap.1 hr
  exact Source.nodup_triples_of_mem_axiomsAt hm

/-- The tables but that of the main triples, as `Regular` has them.  While a main triple is
forgotten the table of the main triples is ahead of the others. -/
structure Forgetting (I : AxiomIndex) : Prop where
  counts : I.Counts fun a f => f ∈ I.footprintsOf a
  footprints : I.footprints.Distinct
  byKind : I.byKind.Distinct
  uses : I.uses.NoZero
  nodup_triples : ∀ a, ∀ f ∈ I.footprintsOf a, f.triples.Nodup

/-- Forgetting an axiom at a main triple keeps the other tables regular. -/
theorem Forgetting.forget (h : I.Forgetting) : (I.forget m a).Forgetting := by
  have hcounts := h.counts.forget (m := m) (a := a)
  have hmem := hcounts.mem_footprintsOf
  refine ⟨hcounts.congr fun b g => (hmem b g).symm, ?_, ?_, ?_, fun b g hg => ?_⟩
  · rw [forget_eq]
    exact h.footprints.setBucket ((h.footprints a).filter _)
  · rw [forget_eq]
    dsimp only
    split
    case isTrue => exact h.byKind.unfile
    case isFalse => exact h.byKind
  · rw [forget_eq]
    exact h.uses.foldl_decrement
  · exact h.nodup_triples b g ((hmem b g).1 hg).1

/-- Forgetting several axioms at a main triple keeps the other tables regular. -/
theorem Forgetting.forgetAll {as : List AnnotatedAxiom} (h : I.Forgetting) :
    (as.foldl (fun I a => I.forget m a) I).Forgetting := by
  induction as generalizing I with
  | nil => exact h
  | cons a as ih => exact ih h.forget

/-- Once the main triple is out of its table, the others are still as they were. -/
theorem Regular.forgetting (h : I.Regular) :
    Forgetting { I with byMain := I.byMain.erase m } where
  counts := ⟨h.holds.mem_footprintsOf, h.holds.tidy, h.holds.mem_ofKind, h.holds.count_uses⟩
  footprints := h.footprints
  byKind := h.byKind
  uses := h.uses
  nodup_triples := h.nodup_triples

/-- Forgetting a main triple with all of its axioms keeps the index regular. -/
theorem Regular.eraseMain (h : I.Regular) : (I.eraseMain m).2.Regular := by
  have hforgotten : (I.eraseMain m).2.Forgetting := (h.forgetting (m := m)).forgetAll
  refine ⟨h.holds.eraseMain.self, hforgotten.footprints, hforgotten.byKind, ?_, hforgotten.uses,
    hforgotten.nodup_triples⟩
  have hmain : (I.eraseMain m).2.byMain = I.byMain.erase m := byMain_forgetAll
  rw [hmain]
  exact h.byMain.erase

/-- Reading a main triple again keeps the index regular. -/
theorem Regular.reread (h : I.Regular) : (I.reread R m).2.Regular :=
  h.eraseMain.insertAll fun _ => Source.nodup_triples_of_mem_axiomsAt

/-- Reading several main triples again keeps the index regular. -/
theorem Regular.rereadAll (h : I.Regular) : (rereadAll R ms I).2.Regular := by
  induction ms generalizing I with
  | nil => exact h
  | cons m ms ih => exact ih h.reread

/-! ### Counting down -/

/-- Forgets the footprints of an axiom that have a given main triple, as long as each of their
triples is counted. -/
def forget? (I : AxiomIndex) (main : Triple) (a : AnnotatedAxiom) : Option AxiomIndex := do
  let gone := (I.footprintsOf a).filter (·.main == main)
  let uses ← (gone.flatMap Footprint.triples).foldlM Table.decrement? I.uses
  return { I.forget main a with uses }

/-- Forgets every footprint with a given main triple, as long as each of their triples is
counted. -/
def eraseMain? (I : AxiomIndex) (main : Triple) : Option AxiomIndex :=
  (I.byMain.bucket main).foldlM (fun I a => I.forget? main a)
    { I with byMain := I.byMain.erase main }

/-- Reads several main triples again, as long as each triple of the footprints that are forgotten
is counted. -/
def rereadAll? (R : Source) : List Triple → AxiomIndex → Option AxiomIndex
  | [], I => some I
  | m :: ms, I => do
    let I ← I.eraseMain? m
    rereadAll? R ms (I.insertAll (R.axiomsAt m))

/-- Some of the footprints of an axiom do not use a triple more often than all do. -/
theorem Forgetting.forget?_eq (h : I.Forgetting) : I.forget? m a = some (I.forget m a) := by
  have hle : ∀ t, (((I.footprintsOf a).filter (·.main == m)).flatMap Footprint.triples).count t ≤
      I.uses.count t := by
    intro t
    have hall : ((I.footprintsOf a).flatMap Footprint.triples).count t ≤ I.usedTriples.count t := by
      have hsplit := ((Table.items_perm (T := I.footprints) (k := a)).flatMap_right
        Footprint.triples).count_eq t
      rw [List.flatMap_append, List.count_append] at hsplit
      unfold usedTriples footprintsOf
      omega
    have hsome : ((I.footprintsOf a).filter (·.main == m)).Sublist (I.footprintsOf a) :=
      List.filter_sublist
    rw [h.counts.count_uses]
    exact Nat.le_trans ((hsome.flatMap Footprint.triples).count_le t) hall
  unfold forget?
  dsimp only
  rw [Table.foldlM_decrement? hle, forget_eq]
  rfl

/-- When axioms are forgotten each triple that is counted down was counted, so nothing fails. -/
theorem Forgetting.forgetAll?_eq {as : List AnnotatedAxiom} (h : I.Forgetting) :
    as.foldlM (fun I a => I.forget? m a) I = some (as.foldl (fun I a => I.forget m a) I) := by
  induction as generalizing I with
  | nil => rfl
  | cons a as ih =>
    rw [List.foldlM_cons, h.forget?_eq]
    exact ih h.forget

/-- No count is lowered below zero when main triples are read again. -/
theorem Regular.rereadAll?_eq (h : I.Regular) :
    rereadAll? R ms I = some (AxiomIndex.rereadAll R ms I).2 := by
  induction ms generalizing I with
  | nil => rfl
  | cons m ms ih =>
    have herase : I.eraseMain? m = some (I.eraseMain m).2 := h.forgetting.forgetAll?_eq
    unfold rereadAll?
    rw [herase]
    exact ih h.reread

/-! ### What the tables say -/

/-- The tables hang together: no axiom is kept without footprints, a triple is counted as often as
there are entries with it and not kept uncounted, and the axioms are grouped by main triple and by
kind, each once.  Whatever is read again, each triple that is counted down was counted. -/
structure Represented (I : AxiomIndex) : Prop where
  nodup_entries : I.entries.Nodup
  footprints_ne_nil : ∀ a fs, I.footprints.get? a = some fs → fs ≠ []
  mem_axioms : ∀ a, a ∈ I.axioms ↔ ∃ f, (a, f) ∈ I.entries
  get?_uses : ∀ t, I.uses.get? t =
    if (∃ r ∈ I.entries, t ∈ r.2.triples) then
      some (I.entries.countP fun r => decide (t ∈ r.2.triples))
    else none
  mem_byMain : ∀ m a, a ∈ I.byMain.bucket m ↔ ∃ f, (a, f) ∈ I.entries ∧ f.main = m
  nodup_byMain : ∀ m, (I.byMain.bucket m).Nodup
  mem_ofKind : ∀ k a, a ∈ I.ofKind k ↔ a ∈ I.axioms ∧ a.kind = k
  nodup_ofKind : ∀ k, (I.ofKind k).Nodup
  rereadAll?_eq : ∀ R ms, rereadAll? R ms I = some (AxiomIndex.rereadAll R ms I).2

/-- The tables of a regular index hang together. -/
theorem Regular.represented (h : I.Regular) : I.Represented where
  nodup_entries := AxiomIndex.nodup_entries h.footprints
  footprints_ne_nil a fs hfs hnil := h.holds.tidy a (hnil ▸ hfs)
  mem_axioms a := h.holds.mem_axioms_iff.trans (exists_congr fun _ => mem_entries_iff.symm)
  get?_uses t := by
    have hcount : I.uses.count t = I.entries.countP fun r => decide (t ∈ r.2.triples) := by
      rw [h.holds.count_uses]
      exact count_usedTriples fun r hr => h.nodup_triples r.1 r.2 (mem_entries_iff.1 hr)
    have hzero : I.uses.count t = 0 ↔ ¬ ∃ r ∈ I.entries, t ∈ r.2.triples := by
      rw [hcount, List.countP_eq_zero]
      simp
    rw [h.uses.get?_eq, ← hcount]
    by_cases ht : ∃ r ∈ I.entries, t ∈ r.2.triples
    · rw [if_pos ht, if_neg fun h0 => hzero.1 h0 ht]
    · rw [if_neg ht, if_pos (hzero.2 ht)]
  mem_byMain m a := (h.holds.mem_byMain a m).trans
    (exists_congr fun _ => and_congr_left fun _ => mem_entries_iff.symm)
  nodup_byMain := h.byMain
  mem_ofKind k a := by
    rw [h.holds.mem_ofKind, h.holds.mem_axioms_iff, and_comm]
  nodup_ofKind := h.byKind
  rereadAll?_eq _ _ := h.rereadAll?_eq

end AxiomIndex

/-! ## The index of topics -/

namespace TopicIndex

variable {T : TopicIndex} {a : AnnotatedAxiom}

/-- No axiom is filed twice in one place. -/
structure Distinct (T : TopicIndex) : Prop where
  byTopic : T.byTopic.Distinct
  general : T.general.Nodup

/-- The empty index of topics files nothing twice. -/
theorem distinct_empty : Distinct {} := ⟨Table.distinct_empty, List.nodup_nil⟩

/-- Filing an axiom files nothing twice. -/
theorem Distinct.insert (h : T.Distinct) : (T.insert a).Distinct := by
  have hfile : ∀ (ns : List Node) (B : Table Node (List AnnotatedAxiom)), B.Distinct →
      (ns.foldl (fun B n => B.file n a) B).Distinct := by
    intro ns
    induction ns with
    | nil => exact fun _ h => h
    | cons n ns ih => exact fun B hB => ih _ hB.file
  refine ⟨hfile _ _ h.byTopic, ?_⟩
  unfold TopicIndex.insert
  dsimp only
  split
  case isTrue hnew =>
    rw [Bool.and_eq_true, Bool.not_eq_true', ← Bool.not_eq_true, List.contains_iff_mem] at hnew
    exact List.concat_eq_append ▸ h.general.concat hnew.2
  case isFalse => exact h.general

/-- Taking an axiom out leaves nothing filed twice. -/
theorem Distinct.erase (h : T.Distinct) : (T.erase a).Distinct := by
  have hunfile : ∀ (ns : List Node) (B : Table Node (List AnnotatedAxiom)), B.Distinct →
      (ns.foldl (fun B n => B.unfile n a) B).Distinct := by
    intro ns
    induction ns with
    | nil => exact fun _ h => h
    | cons n ns ih => exact fun B hB => ih _ hB.unfile
  exact ⟨hunfile _ _ h.byTopic, h.general.filter _⟩

/-- The index of some axioms files nothing twice. -/
theorem distinct_ofList {as : List AnnotatedAxiom} : (ofList as).Distinct := by
  have hfold : ∀ {as : List AnnotatedAxiom} {T : TopicIndex},
      T.Distinct → (as.foldl TopicIndex.insert T).Distinct := by
    intro as
    induction as with
    | nil => exact fun h => h
    | cons a as ih => exact fun h => ih h.insert
  exact hfold distinct_empty

end TopicIndex

/-! ## Both indices -/

namespace Indices

variable {I : Indices} {R : Source} {ms : List Triple}

/-- Both indices are regular, and the axioms filed by topic are those that are entered. -/
structure Regular (I : Indices) : Prop where
  axioms : I.axioms.Regular
  topics : ∀ T, I.topics? = some T →
    T.Holds (fun a => ∃ f, f ∈ I.axioms.footprintsOf a) ∧ T.Distinct

/-- The indices of a source are regular when they are built. -/
theorem regular_ofSource : (ofSource R).Regular :=
  ⟨AxiomIndex.regular_ofSource, fun _ h => nomatch h⟩

/-- Asking for topics keeps the indices regular. -/
theorem Regular.withTopics (h : I.Regular) : I.withTopics.Regular := by
  refine ⟨h.axioms, ?_⟩
  rintro T ⟨⟩
  unfold Indices.topics
  cases htopics : I.topics? with
  | none =>
    refine ⟨TopicIndex.holds_ofList.congr fun a => ?_, TopicIndex.distinct_ofList⟩
    exact h.axioms.holds.mem_axioms_iff
  | some T => exact h.topics T htopics

/-- Bringing topics in line files nothing twice. -/
theorem distinct_refile {axioms : AxiomIndex} {touched : List AnnotatedAxiom} {T : TopicIndex}
    (h : T.Distinct) : (refile axioms touched T).Distinct := by
  unfold refile
  induction touched generalizing T with
  | nil => exact h
  | cons a touched ih =>
    rw [List.foldl_cons]
    split
    case isTrue => exact ih h.insert
    case isFalse => exact ih h.erase

/-- Reading main triples again, from whatever source, keeps the indices regular. -/
theorem Regular.refresh (h : I.Regular) : (I.refresh R ms).Regular := by
  refine ⟨h.axioms.rereadAll, fun T hT => ⟨?_, ?_⟩⟩
  · have hholds : (I.refresh R ms).axioms.Holds _ := axioms_refresh h.axioms.holds
    refine (topics_refresh h.axioms.holds (fun T hT => (h.topics T hT).1) hT).congr fun a => ?_
    exact exists_congr fun f => (hholds.mem_footprintsOf a f).symm
  · obtain ⟨T', hT', rfl⟩ := Option.map_eq_some_iff.1
      (show I.topics?.map (refile _ (AxiomIndex.rereadAll R ms I.axioms).1) = some T from hT)
    exact distinct_refile (h.topics T' hT').2

/-- Both indices hang together: the axioms filed under an entity or individual are those entered
that are about it, and the general axioms those entered that are general, each once. -/
structure Represented (I : Indices) : Prop where
  axioms : I.axioms.Represented
  mem_byTopic : ∀ T, I.topics? = some T → ∀ n a,
    a ∈ T.byTopic.bucket n ↔ a ∈ I.axioms.axioms ∧ n ∈ a.base.topics
  nodup_byTopic : ∀ T, I.topics? = some T → ∀ n, (T.byTopic.bucket n).Nodup
  mem_general : ∀ T, I.topics? = some T → ∀ a,
    a ∈ T.general ↔ a ∈ I.axioms.axioms ∧ a.base.isGeneral = true
  nodup_general : ∀ T, I.topics? = some T → T.general.Nodup

/-- The tables of regular indices hang together. -/
theorem Regular.represented (h : I.Regular) : I.Represented where
  axioms := h.axioms.represented
  mem_byTopic T hT n a := by
    rw [h.axioms.holds.mem_axioms_iff]
    exact (h.topics T hT).1.mem_byTopic a n
  nodup_byTopic T hT := (h.topics T hT).2.byTopic
  mem_general T hT a := by
    rw [h.axioms.holds.mem_axioms_iff]
    exact (h.topics T hT).1.mem_general a
  nodup_general T hT := (h.topics T hT).2.general

end Indices

end Ontograph
