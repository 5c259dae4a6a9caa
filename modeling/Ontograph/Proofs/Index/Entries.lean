import Mathlib.Data.List.Perm.Basic
import Mathlib.Tactic.Tauto
import Ontograph.Index.Axioms
import Ontograph.Proofs.Mapping.Reading

/-!
# What the index of axioms holds

`AxiomIndex.Holds` says which pairs of an axiom and a footprint are entered, and that the four
tables agree on them: the kinds, the main triples, and the number of uses of each triple.  Entering
a footprint, forgetting a main triple and reading it again keep the tables in agreement, so that
after any number of them the index answers from its entries alone.
-/

namespace Ontograph

/-! ## Tables -/

namespace Table

variable {κ ν : Type} [DecidableEq κ] {k j : κ} {vs : List ν} {v : ν}

/-- No key has an empty list of items. -/
def Tidy (T : Table κ (List ν)) : Prop := ∀ k, T.get? k ≠ some []

/-- The items under all keys. -/
def items (T : Table κ (List ν)) : List ν := T.entries.flatMap Prod.snd

section Buckets

variable {T : Table κ (List ν)}

/-- The empty table has no empty lists. -/
theorem tidy_empty : (∅ : Table κ (List ν)).Tidy := fun _ h => nomatch h

/-- In a tidy table the keys are those with an item. -/
theorem Tidy.isSome_get? (h : T.Tidy) : (T.get? k).isSome = true ↔ T.bucket k ≠ [] := by
  unfold bucket
  cases hk : T.get? k with
  | none => simp
  | some vs =>
    have hne : vs ≠ [] := fun he => h k (he ▸ hk)
    simpa using hne

/-- Setting a bucket leaves no empty list: an empty bucket loses its key. -/
theorem Tidy.setBucket (h : T.Tidy) : (T.setBucket k vs).Tidy := by
  intro j
  rw [Table.setBucket, get?_alter]
  split
  case isTrue =>
    cases vs with
    | nil => simp
    | cons v vs => simp
  case isFalse => exact h j

/-- Filing an item leaves no empty list. -/
theorem Tidy.file [DecidableEq ν] (h : T.Tidy) : (T.file k v).Tidy := by
  unfold Table.file
  split
  case isTrue => exact h
  case isFalse => exact h.setBucket

/-- All items are those under other keys and those under the key. -/
theorem items_perm : T.items.Perm ((T.others k).flatMap Prod.snd ++ T.bucket k) := by
  have hentries : ∀ es : List (κ × List ν), (es.map Prod.fst).Nodup →
      (es.flatMap Prod.snd).Perm ((es.filter fun e => decide (e.1 ≠ k)).flatMap Prod.snd ++
        (es.lookup k).getD []) := by
    intro es
    induction es with
    | nil => simp
    | cons e es ih =>
      intro hnodup
      obtain ⟨i, vs⟩ := e
      obtain ⟨hi, hnodup⟩ := List.nodup_cons.1 hnodup
      by_cases hk : i = k
      · subst hk
        have hothers : es.filter (fun e => decide (e.1 ≠ i)) = es := by
          rw [List.filter_eq_self]
          intro e he
          have hne : e.1 ≠ i := by
            rintro rfl
            exact hi (List.mem_map.2 ⟨e, he, rfl⟩)
          simpa using hne
        rw [List.filter_cons_of_neg (by simp), hothers, List.flatMap_cons, List.lookup_cons_self]
        exact List.perm_append_comm
      · have hne : (k == i) = false := beq_false_of_ne (Ne.symm hk)
        rw [List.filter_cons_of_pos (by simpa using hk), List.flatMap_cons, List.flatMap_cons,
          List.lookup_cons, hne, List.append_assoc]
        exact (ih hnodup).append_left vs
  exact hentries T.entries T.nodup_keys

/-- An item under another key is found under that key. -/
theorem mem_others_iff : v ∈ (T.others k).flatMap Prod.snd ↔ ∃ j, j ≠ k ∧ v ∈ T.bucket j := by
  have hentries : ∀ es : List (κ × List ν), (es.map Prod.fst).Nodup →
      (v ∈ es.flatMap Prod.snd ↔ ∃ j, v ∈ (es.lookup j).getD []) := by
    intro es
    induction es with
    | nil => simp
    | cons e es ih =>
      intro hnodup
      obtain ⟨i, vs⟩ := e
      obtain ⟨hi, hnodup⟩ := List.nodup_cons.1 hnodup
      rw [List.flatMap_cons, List.mem_append, ih hnodup]
      constructor
      · rintro (hv | ⟨j, hv⟩)
        · exact ⟨i, by rwa [List.lookup_cons_self]⟩
        · have hne : (j == i) = false := by
            refine beq_false_of_ne fun hj => ?_
            subst hj
            have hnone : es.lookup j = none := by
              refine List.lookup_eq_none_iff.2 fun e he => ?_
              have hne : j ≠ e.1 := fun heq => hi (List.mem_map.2 ⟨e, he, heq.symm⟩)
              simpa using hne
            rw [hnone] at hv
            cases hv
          exact ⟨j, by rwa [List.lookup_cons, hne]⟩
      · rintro ⟨j, hv⟩
        by_cases hj : j = i
        · subst hj
          rw [List.lookup_cons_self] at hv
          exact Or.inl hv
        · rw [List.lookup_cons, beq_false_of_ne hj] at hv
          exact Or.inr ⟨j, hv⟩
  have hnodup : ((T.others k).map Prod.fst).Nodup :=
    T.nodup_keys.sublist (List.filter_sublist.map _)
  rw [hentries _ hnodup]
  refine exists_congr fun j => ?_
  rw [lookup_others]
  by_cases hj : j = k
  · simp [hj]
  · rw [if_neg hj]
    exact (and_iff_right hj).symm

/-- Replacing the items under a key replaces them among all items. -/
theorem items_setBucket_perm (T : Table κ (List ν)) (k : κ) (vs : List ν) :
    ((T.setBucket k vs).items ++ T.bucket k).Perm (T.items ++ vs) := by
  have hitems : (T.setBucket k vs).items = (T.others k).flatMap Prod.snd ++ vs := by
    show (T.others k ++ _).flatMap Prod.snd = _
    rw [List.flatMap_append]
    cases vs with
    | nil => simp
    | cons v vs => simp
  rw [hitems, List.append_assoc]
  refine (List.Perm.append_left _ List.perm_append_comm).trans ?_
  rw [← List.append_assoc]
  exact (items_perm (k := k)).symm.append_right vs

end Buckets

section Counts

variable {T : Table κ Nat} {ks : List κ}

/-- Keys are counted as often as they occur. -/
theorem count_foldl_increment : (ks.foldl increment T).count j = T.count j + ks.count j := by
  induction ks generalizing T with
  | nil => rfl
  | cons k ks ih =>
    rw [List.foldl_cons, ih, increment, count_setCount, List.count_cons]
    by_cases hj : j = k
    · subst hj
      rw [if_pos rfl, beq_self_eq_true, if_pos rfl]
      omega
    · rw [if_neg hj, beq_false_of_ne (Ne.symm hj), if_neg Bool.false_ne_true]
      omega

/-- Counting keys down takes from each as often as it is listed, down to zero. -/
theorem count_foldl_decrement : (ks.foldl decrement T).count j = T.count j - ks.count j := by
  induction ks generalizing T with
  | nil => rfl
  | cons k ks ih =>
    rw [List.foldl_cons, ih, decrement, count_setCount, List.count_cons]
    by_cases hj : j = k
    · subst hj
      rw [if_pos rfl, beq_self_eq_true, if_pos rfl]
      omega
    · rw [if_neg hj, beq_false_of_ne (Ne.symm hj), if_neg Bool.false_ne_true]
      omega

end Counts

end Table

/-! ## The index -/

namespace AxiomIndex

variable {I : AxiomIndex} {E : AnnotatedAxiom → Footprint → Prop} {a b : AnnotatedAxiom}
  {f : Footprint} {m t : Triple}

/-- The triples of all footprints. -/
def usedTriples (I : AxiomIndex) : List Triple := I.footprints.items.flatMap Footprint.triples

/-- The pairs entered, with the tables of kinds and uses in agreement. -/
structure Counts (I : AxiomIndex) (E : AnnotatedAxiom → Footprint → Prop) : Prop where
  mem_footprintsOf : ∀ a f, f ∈ I.footprintsOf a ↔ E a f
  tidy : I.footprints.Tidy
  mem_ofKind : ∀ a k, a ∈ I.ofKind k ↔ a.kind = k ∧ ∃ f, E a f
  count_uses : ∀ t, I.uses.count t = I.usedTriples.count t

/-- The pairs entered, with all tables in agreement. -/
structure Holds (I : AxiomIndex) (E : AnnotatedAxiom → Footprint → Prop) : Prop
    extends Counts I E where
  mem_byMain : ∀ a m, a ∈ I.byMain.bucket m ↔ ∃ f, E a f ∧ f.main = m

/-- What is entered depends on which pairs are meant, and not on how they are described. -/
theorem Holds.congr {E' : AnnotatedAxiom → Footprint → Prop} (h : I.Holds E)
    (heq : ∀ a f, E a f ↔ E' a f) : I.Holds E' := by
  obtain rfl : E = E' := by
    funext a f
    exact propext (heq a f)
  exact h

/-- The empty index holds nothing. -/
theorem holds_empty : Holds {} fun _ _ => False := by
  refine ⟨⟨fun a f => ?_, Table.tidy_empty, fun a k => ?_, fun t => rfl⟩, fun a m => ?_⟩
  · simp [footprintsOf]
  · simp [ofKind]
  · simp

/-- An axiom is in the index if a footprint of it is. -/
theorem Counts.contains_iff (h : I.Counts E) : I.contains a = true ↔ ∃ f, E a f := by
  rw [contains, h.tidy.isSome_get?]
  constructor
  · intro hne
    obtain ⟨f, hf⟩ := List.exists_mem_of_ne_nil _ hne
    exact ⟨f, (h.mem_footprintsOf a f).1 hf⟩
  · rintro ⟨f, hf⟩
    exact List.ne_nil_of_mem ((h.mem_footprintsOf a f).2 hf)

/-- The axioms of an index are those with a footprint. -/
theorem Counts.mem_axioms_iff (h : I.Counts E) : a ∈ I.axioms ↔ ∃ f, E a f := by
  rw [axioms, Table.mem_keys, ← h.contains_iff, contains]

/-- The triples that leave with an axiom are those of its footprints that no other axiom uses. -/
theorem Counts.mem_ownTriples_iff (h : I.Counts E) : t ∈ I.ownTriples a ↔
    (∃ f, E a f ∧ t ∈ f.triples) ∧ ∀ b f, E b f → t ∈ f.triples → b = a := by
  have hcount : I.uses.count t =
      (((I.footprints.others a).flatMap Prod.snd).flatMap Footprint.triples).count t +
        ((I.footprintsOf a).flatMap Footprint.triples).count t := by
    rw [h.count_uses, usedTriples, footprintsOf, ← List.count_append, ← List.flatMap_append]
    exact ((Table.items_perm (k := a)).flatMap_right Footprint.triples).count_eq t
  have hothers : I.uses.count t ≤ ((I.footprintsOf a).flatMap Footprint.triples).count t ↔
      ∀ b f, E b f → t ∈ f.triples → b = a := by
    have hzero : I.uses.count t ≤ ((I.footprintsOf a).flatMap Footprint.triples).count t ↔
        (((I.footprints.others a).flatMap Prod.snd).flatMap Footprint.triples).count t = 0 := by
      omega
    rw [hzero, List.count_eq_zero]
    constructor
    · intro hnot b f hf ht
      by_contra hb
      refine hnot (List.mem_flatMap.2 ⟨f, Table.mem_others_iff.2 ⟨b, hb, ?_⟩, ht⟩)
      exact (h.mem_footprintsOf b f).2 hf
    · intro hall hmem
      obtain ⟨f, hf, ht⟩ := List.mem_flatMap.1 hmem
      obtain ⟨b, hb, hf⟩ := Table.mem_others_iff.1 hf
      exact hb (hall b f ((h.mem_footprintsOf b f).1 hf) ht)
  unfold ownTriples
  rw [List.mem_filter, List.mem_eraseDups, List.mem_flatMap, decide_eq_true_iff, hothers]
  exact and_congr_left fun _ => exists_congr fun f => and_congr_left fun _ => h.mem_footprintsOf a f

/-! ## Entering -/

/-- A footprint is entered beside what is there. -/
theorem Holds.insert (h : I.Holds E) :
    (I.insert a f).Holds fun b g => E b g ∨ b = a ∧ g = f := by
  unfold AxiomIndex.insert
  split
  case isTrue hf =>
    refine h.congr fun b g => (or_iff_left_of_imp ?_).symm
    rintro ⟨rfl, rfl⟩
    exact (h.mem_footprintsOf _ _).1 hf
  case isFalse hf =>
    -- the footprint is new, so its triples are counted once more
    have hbucket : I.footprints.file a f =
        I.footprints.setBucket a (I.footprintsOf a ++ [f]) := if_neg hf
    refine ⟨⟨fun b g => ?_, h.tidy.file, fun b k => ?_, fun t => ?_⟩, fun b m => ?_⟩
    · rw [footprintsOf, Table.mem_bucket_file]
      exact or_congr_left (h.mem_footprintsOf b g)
    · rw [ofKind, Table.mem_bucket_file]
      have hold := h.mem_ofKind b k
      rw [ofKind] at hold
      rw [hold]
      constructor
      · rintro (⟨hk, g, hg⟩ | ⟨rfl, rfl⟩)
        · exact ⟨hk, g, Or.inl hg⟩
        · exact ⟨rfl, f, Or.inr ⟨rfl, rfl⟩⟩
      · rintro ⟨hk, g, hg | ⟨rfl, rfl⟩⟩
        · exact Or.inl ⟨hk, g, hg⟩
        · exact Or.inr ⟨hk.symm, rfl⟩
    · have hperm := Table.items_setBucket_perm I.footprints a (I.footprintsOf a ++ [f])
      have hcount := (hperm.flatMap_right Footprint.triples).count_eq t
      rw [← hbucket] at hcount
      simp only [List.flatMap_append, List.flatMap_singleton, List.count_append] at hcount
      rw [Table.count_foldl_increment, h.count_uses]
      unfold usedTriples
      unfold footprintsOf at hcount
      dsimp only
      omega
    · rw [Table.mem_bucket_file, h.mem_byMain]
      constructor
      · rintro (⟨g, hg, hm⟩ | ⟨rfl, rfl⟩)
        · exact ⟨g, Or.inl hg, hm⟩
        · exact ⟨f, Or.inr ⟨rfl, rfl⟩, rfl⟩
      · rintro ⟨g, hg | ⟨rfl, rfl⟩, hm⟩
        · exact Or.inl ⟨g, hg, hm⟩
        · exact Or.inr ⟨hm.symm, rfl⟩

/-- Entering several pairs adds each of them, in all tables. -/
theorem Holds.insertAll {rs : List (AnnotatedAxiom × Footprint)} (h : I.Holds E) :
    (I.insertAll rs).Holds fun b g => E b g ∨ (b, g) ∈ rs := by
  induction rs generalizing I E with
  | nil => exact h.congr fun b g => by simp
  | cons r rs ih =>
    refine (ih h.insert).congr fun b g => ?_
    rw [List.mem_cons, or_assoc, Prod.ext_iff]

/-- The index of a source holds what is read from the source. -/
theorem holds_ofSource (R : Source) : (ofSource R).Holds fun a f => (a, f) ∈ R.scan :=
  holds_empty.insertAll.congr fun a f => by rw [false_or]

/-! ## Forgetting -/

/-- The footprints of an axiom that have another main triple. -/
def kept (I : AxiomIndex) (m : Triple) (a : AnnotatedAxiom) : List Footprint :=
  (I.footprintsOf a).filter fun f => !(f.main == m)

/-- The footprints that are kept are those with another main triple. -/
theorem Counts.mem_kept_iff (h : I.Counts E) : f ∈ I.kept m a ↔ E a f ∧ f.main ≠ m := by
  unfold kept
  rw [List.mem_filter, h.mem_footprintsOf]
  simp

/-- Forgetting an axiom at a main triple, as a change of each table. -/
theorem forget_eq : I.forget m a = { I with
    footprints := I.footprints.setBucket a (I.kept m a)
    byKind := if (I.kept m a).isEmpty then I.byKind.unfile a.kind a else I.byKind
    uses := (((I.footprintsOf a).filter (·.main == m)).flatMap Footprint.triples).foldl
      Table.decrement I.uses } := by
  have hparts : (I.footprintsOf a).partition (·.main == m) =
      ((I.footprintsOf a).filter (·.main == m), I.kept m a) :=
    List.partition_eq_filter_filter
  unfold AxiomIndex.forget
  rw [hparts]

/-- An axiom of a kind stays among its kind unless it has no other footprint. -/
theorem Counts.mem_ofKind_forget (h : I.Counts E) {k : AxiomKind} :
    b ∈ (I.forget m a).ofKind k ↔ b ∈ I.ofKind k ∧ (b = a → ∃ f, E a f ∧ f.main ≠ m) := by
  rw [forget_eq]
  unfold ofKind
  dsimp only
  split
  case isTrue hempty =>
    rw [Table.mem_bucket_unfile]
    have hnone : ¬ ∃ f, E a f ∧ f.main ≠ m := by
      rintro ⟨f, hf⟩
      have hmem := h.mem_kept_iff.2 hf
      rw [List.isEmpty_iff.1 hempty] at hmem
      cases hmem
    refine and_congr_right fun hb => ?_
    have hkind := ((h.mem_ofKind b k).1 hb).1
    constructor
    · intro hne hba
      exact absurd ⟨hkind.symm.trans (congrArg AnnotatedAxiom.kind hba), hba⟩ hne
    · rintro hex ⟨-, hba⟩
      exact hnone (hex hba)
  case isFalse hne =>
    have hsome : ∃ f, E a f ∧ f.main ≠ m := by
      rw [List.isEmpty_iff] at hne
      obtain ⟨f, hf⟩ := List.exists_mem_of_ne_nil _ hne
      exact ⟨f, h.mem_kept_iff.1 hf⟩
    exact (and_iff_left fun _ => hsome).symm

/-- The uses that go and those that stay are all there were. -/
theorem Counts.count_uses_forget (h : I.Counts E) :
    (I.forget m a).uses.count t = (I.forget m a).usedTriples.count t := by
  have hperm := Table.items_setBucket_perm I.footprints a (I.kept m a)
  have hcount := (hperm.flatMap_right Footprint.triples).count_eq t
  have hsplit := ((List.filter_append_perm (fun f : Footprint => f.main == m)
    (I.footprintsOf a)).flatMap_right Footprint.triples).count_eq t
  simp only [List.flatMap_append, List.count_append] at hcount hsplit
  rw [forget_eq, Table.count_foldl_decrement, h.count_uses]
  unfold usedTriples
  unfold kept footprintsOf at *
  dsimp only
  omega

/-- The footprints of an axiom that have a main triple are forgotten. -/
theorem Counts.forget (h : I.Counts E) :
    (I.forget m a).Counts fun b g => E b g ∧ ¬ (b = a ∧ g.main = m) := by
  refine ⟨fun b g => ?_, ?_, fun b k => ?_, fun t => h.count_uses_forget⟩
  · have hbucket : (I.forget m a).footprintsOf b =
        if b = a then I.kept m a else I.footprintsOf b := by
      rw [forget_eq]
      exact Table.bucket_setBucket
    rw [hbucket]
    split
    case isTrue hb =>
      rw [h.mem_kept_iff, hb]
      tauto
    case isFalse hb =>
      rw [h.mem_footprintsOf]
      tauto
  · rw [forget_eq]
    exact h.tidy.setBucket
  · rw [h.mem_ofKind_forget, h.mem_ofKind]
    constructor
    · rintro ⟨⟨hk, g, hg⟩, hother⟩
      by_cases hb : b = a
      · obtain ⟨g', hg', hm⟩ := hother hb
        exact ⟨hk, g', hb ▸ hg', fun hbad => hm hbad.2⟩
      · exact ⟨hk, g, hg, fun hbad => hb hbad.1⟩
    · rintro ⟨hk, g, hg, hne⟩
      exact ⟨⟨hk, g, hg⟩, fun hb => ⟨g, hb ▸ hg, fun hm => hne ⟨hb, hm⟩⟩⟩

/-- Which pairs the tables agree on does not depend on how the pairs are described. -/
theorem Counts.congr {E' : AnnotatedAxiom → Footprint → Prop} (h : I.Counts E)
    (heq : ∀ a f, E a f ↔ E' a f) : I.Counts E' := by
  obtain rfl : E = E' := by
    funext a f
    exact propext (heq a f)
  exact h

/-- Forgetting axioms at a main triple takes out their footprints with that main triple. -/
theorem Counts.forgetAll {as : List AnnotatedAxiom} (h : I.Counts E) :
    (as.foldl (fun I a => I.forget m a) I).Counts fun b g => E b g ∧ ¬ (b ∈ as ∧ g.main = m) := by
  induction as generalizing I E with
  | nil => exact h.congr fun b g => by simp
  | cons a as ih =>
    refine ih h.forget |>.congr fun b g => ?_
    rw [List.mem_cons]
    tauto

/-- Forgetting axioms leaves the table of main triples alone. -/
theorem byMain_forgetAll {as : List AnnotatedAxiom} :
    (as.foldl (fun I a => I.forget m a) I).byMain = I.byMain := by
  induction as generalizing I with
  | nil => rfl
  | cons a as ih => exact ih

/-- Every footprint with a main triple is forgotten. -/
theorem Holds.eraseMain (h : I.Holds E) :
    (I.eraseMain m).2.Holds fun b g => E b g ∧ g.main ≠ m := by
  have hcounts : Counts { I with byMain := I.byMain.erase m } E :=
    ⟨h.mem_footprintsOf, h.tidy, h.mem_ofKind, h.count_uses⟩
  refine ⟨hcounts.forgetAll.congr fun b g => ?_, fun b m' => ?_⟩
  · refine and_congr_right fun hg => not_congr ⟨fun hm => hm.2, fun hm => ⟨?_, hm⟩⟩
    exact (h.mem_byMain b m).2 ⟨g, hg, hm⟩
  · have hmain : (I.eraseMain m).2.byMain = I.byMain.erase m := byMain_forgetAll
    rw [hmain, Table.bucket_erase]
    split
    case isTrue hm =>
      subst hm
      simp
    case isFalse hm =>
      rw [h.mem_byMain]
      constructor
      · rintro ⟨g, hg, rfl⟩
        exact ⟨g, ⟨hg, hm⟩, rfl⟩
      · rintro ⟨g, ⟨hg, -⟩, hm'⟩
        exact ⟨g, hg, hm'⟩

/-! ## Reading again -/

/-- After a main triple was read again it stands for what is read from it now. -/
theorem Holds.reread {R : Source} (h : I.Holds E) :
    (I.reread R m).2.Holds fun b g => E b g ∧ g.main ≠ m ∨ (b, g) ∈ R.axiomsAt m :=
  h.eraseMain.insertAll

/-- Main triples that were read again stand for what is read from them now, and the others for what
they stood for. -/
theorem Holds.rereadAll {R : Source} {ms : List Triple} (h : I.Holds E) :
    (rereadAll R ms I).2.Holds fun b g =>
      if g.main ∈ ms then (b, g) ∈ R.axiomsAt g.main else E b g := by
  induction ms generalizing I E with
  | nil => exact h.congr fun b g => by simp
  | cons m ms ih =>
    refine (ih (h.reread (m := m) (R := R))).congr fun b g => ?_
    by_cases hms : g.main ∈ ms
    · rw [if_pos hms, if_pos (List.mem_cons_of_mem _ hms)]
    · rw [if_neg hms]
      by_cases hm : g.main = m
      · rw [if_pos (hm ▸ List.mem_cons_self), hm]
        simp
      · rw [if_neg (by simp [hm, hms]), and_iff_left hm]
        exact or_iff_left fun hread => hm (Source.main_of_mem_axiomsAt hread)

/-- An axiom that no main triple was or is read as keeps its footprints. -/
theorem Holds.mem_rereadAll {R : Source} {ms : List Triple} (h : I.Holds E)
    (ha : a ∉ (AxiomIndex.rereadAll R ms I).1) :
    (if f.main ∈ ms then (a, f) ∈ R.axiomsAt f.main else E a f) ↔ E a f := by
  induction ms generalizing I E with
  | nil => simp
  | cons m ms ih =>
    have ha' : a ∉ (I.reread R m).1 ∧ a ∉ (AxiomIndex.rereadAll R ms (I.reread R m).2).1 := by
      rw [← not_or, ← List.mem_append]
      exact ha
    have hgone : ¬ (E a f ∧ f.main = m) := fun hf =>
      ha'.1 (List.mem_append_left _ ((h.mem_byMain a m).2 ⟨f, hf⟩))
    have hfound : (a, f) ∉ R.axiomsAt m := fun hf =>
      ha'.1 (List.mem_append_right _ (List.mem_map_of_mem hf))
    have hsame : (E a f ∧ f.main ≠ m ∨ (a, f) ∈ R.axiomsAt m) ↔ E a f := by
      rw [or_iff_left hfound]
      exact and_iff_left_of_imp fun hf hm => hgone ⟨hf, hm⟩
    have hrest := ih (h.reread (m := m) (R := R)) ha'.2
    rw [hsame] at hrest
    by_cases hms : f.main ∈ ms
    · rw [if_pos hms] at hrest
      rw [if_pos (List.mem_cons_of_mem _ hms), hrest]
    · by_cases hm : f.main = m
      · rw [if_pos (hm ▸ List.mem_cons_self), hm]
        exact iff_of_false hfound fun hf => hgone ⟨hf, hm⟩
      · rw [if_neg (by simp [hm, hms])]

end AxiomIndex

end Ontograph
