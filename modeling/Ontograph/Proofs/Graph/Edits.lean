import Mathlib.Data.List.Nodup
import Ontograph.Graph.Layered

/-!
# What edits leave in a graph

After triples are written a graph holds them beside what it held before, and after triples are
taken out of the base the imports still hold what they held.
-/

namespace Ontograph

/-- Sets that list the same triples are the same. -/
theorem TripleSet.eq_of_toList {S T : TripleSet} (h : S.toList = T.toList) : S = T := by
  obtain ⟨l, hl⟩ := S
  obtain ⟨r, hr⟩ := T
  simpa using h

/-- Writing a triple leaves the others in their order. -/
theorem TripleSet.filter_insert {S : TripleSet} {t : Triple} {q : Triple → Bool}
    (ht : q t = false) : (S.insert t).toList.filter q = S.toList.filter q := by
  unfold insert
  split
  case isTrue => rfl
  case isFalse =>
    have hskip : ¬ q t = true := by simp [ht]
    dsimp only
    rw [place, List.filter_append, List.filter_cons_of_neg hskip, ← List.filter_append,
      List.takeWhile_append_dropWhile]

namespace Graph

variable {g : Graph} {t u : Triple} {ts : List Triple}

/-- An insertion adds its triple to the graph, and nothing else. -/
@[simp] theorem mem_insert : u ∈ (g.insert t).2 ↔ u ∈ g ∨ u = t := by
  unfold insert
  split
  case isTrue h =>
    have ht : t ∈ g := contains_iff.1 h
    refine ⟨Or.inl, fun hu => ?_⟩
    rcases hu with hu | rfl
    · exact hu
    · exact ht
  case isFalse =>
    simp only [mem_def, TripleSet.mem_insert]
    exact or_right_comm

/-- An insertion leaves the imports alone. -/
@[simp] theorem imports_insert : (g.insert t).2.imports = g.imports := by
  unfold insert
  split <;> rfl

/-- Where a count runs along with a fold, what is folded does not depend on the count. -/
theorem foldl_snd_eq {f : Nat × Graph → Triple → Nat × Graph}
    (hf : ∀ n m g t, (f (n, g) t).2 = (f (m, g) t).2) (n m : Nat) :
    (ts.foldl f (n, g)).2 = (ts.foldl f (m, g)).2 := by
  induction ts generalizing n m g with
  | nil => rfl
  | cons t ts ih =>
    rw [List.foldl_cons, List.foldl_cons]
    have hstep : ∀ n, f (n, g) t = ((f (n, g) t).1, (f (n, g) t).2) := fun _ => rfl
    rw [hstep n, hstep m, hf n m]
    exact ih _ _

/-- Several insertions are the first one and then the others. -/
theorem insertAll_cons :
    (g.insertAll (t :: ts)).2 = ((g.insert t).2.insertAll ts).2 := by
  unfold insertAll
  rw [List.foldl_cons]
  apply foldl_snd_eq
  exact fun _ _ _ _ => rfl

/-- After triples are written the graph holds them too. -/
@[simp] theorem mem_insertAll : u ∈ (g.insertAll ts).2 ↔ u ∈ g ∨ u ∈ ts := by
  induction ts generalizing g with
  | nil => simp [insertAll]
  | cons t ts ih =>
    rw [insertAll_cons, ih, mem_insert, List.mem_cons, or_assoc]

/-! ## Taking out -/

/-- A removal filters its triple out of the base. -/
@[simp] theorem toList_base_remove :
    (g.remove t).2.base.toList = g.base.toList.filter fun u => decide (u ≠ t) := by
  unfold remove
  split
  case isTrue => rfl
  case isFalse h =>
    refine (List.filter_eq_self.2 fun u hu => ?_).symm
    have hne : u ≠ t := by
      rintro rfl
      exact h hu
    simpa using hne

/-- A removal leaves the imports alone. -/
@[simp] theorem imports_remove : (g.remove t).2.imports = g.imports := by
  unfold remove
  split <;> rfl

/-- A removal moves the generation on if the base had the triple. -/
theorem generation_remove : (g.remove t).2.generation = g.generation + g.base.toList.count t := by
  unfold remove
  split
  case isTrue h => rw [List.count_eq_one_of_mem g.base.nodup h]
  case isFalse h => rw [List.count_eq_zero_of_not_mem h, Nat.add_zero]

/-- Several removals are the first one and then the others. -/
theorem removeAll_cons :
    (g.removeAll (t :: ts)).2 = ((g.remove t).2.removeAll ts).2 := by
  unfold removeAll
  rw [List.foldl_cons]
  apply foldl_snd_eq
  exact fun _ _ _ _ => rfl

/-- Several removals filter their triples out of the base. -/
theorem toList_base_removeAll :
    (g.removeAll ts).2.base.toList = g.base.toList.filter fun u => decide (u ∉ ts) := by
  induction ts generalizing g with
  | nil =>
    refine (List.filter_eq_self.2 fun u _ => ?_).symm
    simp
  | cons t ts ih =>
    rw [removeAll_cons, ih, toList_base_remove, List.filter_filter]
    refine List.filter_congr fun u _ => ?_
    simp only [List.mem_cons, not_or, Bool.decide_and, Bool.and_comm]

/-- Several removals leave the imports alone. -/
theorem imports_removeAll : (g.removeAll ts).2.imports = g.imports := by
  induction ts generalizing g with
  | nil => rfl
  | cons t ts ih => rw [removeAll_cons, ih, imports_remove]

/-- Each triple that was there moves the generation on. -/
theorem generation_removeAll : (g.removeAll ts).2.generation =
    g.generation + g.base.toList.countP fun u => decide (u ∈ ts) := by
  induction ts generalizing g with
  | nil => simp [removeAll]
  | cons t ts ih =>
    have hsplit : g.base.toList.countP (fun u => decide (u ∈ t :: ts)) =
        g.base.toList.count t +
          (g.base.toList.filter fun u => decide (u ≠ t)).countP fun u => decide (u ∈ ts) := by
      induction g.base.toList with
      | nil => rfl
      | cons u us ih =>
        rw [List.countP_cons, ih, List.count_cons]
        by_cases hu : u = t
        · subst hu
          rw [List.filter_cons_of_neg (by simp)]
          simp only [List.mem_cons, true_or, decide_true, if_true, beq_self_eq_true]
          omega
        · rw [List.filter_cons_of_pos (by simpa using hu), List.countP_cons, beq_false_of_ne hu]
          simp only [List.mem_cons, hu, false_or, Bool.false_eq_true, if_false]
          omega
    rw [removeAll_cons, ih, generation_remove, toList_base_remove, hsplit, Nat.add_assoc]

/-- What is taken out depends on which triples of the base are named. -/
theorem removeAll_congr {us : List Triple} (h : ∀ t ∈ g.base, t ∈ ts ↔ t ∈ us) :
    (g.removeAll ts).2 = (g.removeAll us).2 := by
  have hbase : (g.removeAll ts).2.base = (g.removeAll us).2.base := by
    have hlist : (g.removeAll ts).2.base.toList = (g.removeAll us).2.base.toList := by
      rw [toList_base_removeAll, toList_base_removeAll]
      refine List.filter_congr fun u hu => ?_
      rw [decide_eq_decide, h u hu]
    exact TripleSet.eq_of_toList hlist
  have hgeneration : (g.removeAll ts).2.generation = (g.removeAll us).2.generation := by
    rw [generation_removeAll, generation_removeAll]
    congr 1
    refine List.countP_congr fun u hu => ?_
    simp only [decide_eq_true_eq]
    exact h u hu
  have himports : (g.removeAll ts).2.imports = (g.removeAll us).2.imports := by
    rw [imports_removeAll, imports_removeAll]
  rcases hl : (g.removeAll ts).2 with ⟨b, is, n⟩
  rcases hr : (g.removeAll us).2 with ⟨b', is', n'⟩
  rw [hl, hr] at hbase hgeneration himports
  obtain rfl : b = b' := hbase
  obtain rfl : is = is' := himports
  obtain rfl : n = n' := hgeneration
  rfl

/-! ## Taking back -/

/-- Several insertions leave the imports alone. -/
@[simp] theorem imports_insertAll : (g.insertAll ts).2.imports = g.imports := by
  induction ts generalizing g with
  | nil => rfl
  | cons t ts ih => rw [insertAll_cons, ih, imports_insert]

/-- Triples of another sort than the inserted one stay in the base, in their order. -/
theorem filter_base_insert {q : Triple → Bool} (ht : q t = false) :
    (g.insert t).2.base.toList.filter q = g.base.toList.filter q := by
  unfold insert
  split
  case isTrue => rfl
  case isFalse => exact TripleSet.filter_insert ht

/-- Writing triples leaves the other triples of the base in their order. -/
theorem filter_base_insertAll {us : List Triple} (h : ∀ t ∈ ts, t ∈ us) :
    ((g.insertAll ts).2.base.toList.filter fun u => decide (u ∉ us)) =
      g.base.toList.filter fun u => decide (u ∉ us) := by
  induction ts generalizing g with
  | nil => rfl
  | cons t ts ih =>
    have ht : decide (t ∉ us) = false := by simpa using h t List.mem_cons_self
    have hinsert : ((g.insert t).2.base.toList.filter fun u => decide (u ∉ us)) =
        g.base.toList.filter fun u => decide (u ∉ us) := filter_base_insert ht
    rw [insertAll_cons, ih fun u hu => h u (List.mem_cons_of_mem _ hu), hinsert]

/-- Triples that were new are taken back without a trace in the base. -/
theorem base_removeAll_insertAll (h : ∀ t ∈ ts, t ∉ g) :
    ((g.insertAll ts).2.removeAll ts).2.base = g.base := by
  have hlist : ((g.insertAll ts).2.removeAll ts).2.base.toList = g.base.toList := by
    rw [toList_base_removeAll, filter_base_insertAll fun _ ht => ht, List.filter_eq_self]
    intro u hu
    have hnot : u ∉ ts := fun hts => h u hts (Or.inl hu)
    simpa using hnot
  exact TripleSet.eq_of_toList hlist

/-- Insertions that are taken back leave the imports alone. -/
theorem imports_removeAll_insertAll :
    ((g.insertAll ts).2.removeAll ts).2.imports = g.imports := by
  rw [imports_removeAll, imports_insertAll]

/-- New triples that are inserted and removed again leave no trace in the union. -/
theorem union_removeAll_insertAll (h : ∀ t ∈ ts, t ∉ g) :
    ((g.insertAll ts).2.removeAll ts).2.union = g.union := by
  unfold union
  rw [base_removeAll_insertAll h, imports_removeAll_insertAll]

/-- Triples that were new are in the base once they are written. -/
theorem mem_base_insertAll (h : ∀ t ∈ ts, t ∉ g) :
    u ∈ (g.insertAll ts).2.base ↔ u ∈ g.base ∨ u ∈ ts := by
  by_cases hu : u ∈ ts
  · have hnew : ¬ ∃ i ∈ g.imports, u ∈ i.triples := fun himport => h u hu (Or.inr himport)
    have hmem : u ∈ (g.insertAll ts).2 := mem_insertAll.2 (Or.inr hu)
    rw [mem_def, imports_insertAll, or_iff_left hnew] at hmem
    exact iff_of_true hmem (Or.inr hu)
  · have hfilter : ((g.insertAll ts).2.base.toList.filter fun u => decide (u ∉ ts)) =
        g.base.toList.filter fun u => decide (u ∉ ts) := filter_base_insertAll fun _ ht => ht
    have hiff : u ∈ (g.insertAll ts).2.base.toList.filter (fun u => decide (u ∉ ts)) ↔
        u ∈ g.base.toList.filter fun u => decide (u ∉ ts) := by rw [hfilter]
    rw [List.mem_filter, List.mem_filter, and_iff_left (decide_eq_true hu),
      and_iff_left (decide_eq_true hu)] at hiff
    rw [or_iff_left hu]
    exact hiff

/-! ## What an edit does not touch -/

/-- Another triple is in the base after an insertion if it was before. -/
theorem mem_base_insert_of_ne (h : u ≠ t) : u ∈ (g.insert t).2.base ↔ u ∈ g.base := by
  unfold insert
  split
  case isTrue => exact Iff.rfl
  case isFalse => simp [h]

/-- What is in the base stays there when a triple is inserted. -/
theorem mem_base_insert_of_mem (h : u ∈ g.base) : u ∈ (g.insert t).2.base := by
  unfold insert
  split
  case isTrue => exact h
  case isFalse => exact TripleSet.mem_insert.2 (Or.inl h)

/-- A removal takes its triple out of the base and nothing else. -/
theorem mem_base_remove : u ∈ (g.remove t).2.base ↔ u ∈ g.base ∧ u ≠ t := by
  rw [TripleSet.mem_def, toList_base_remove, List.mem_filter, decide_eq_true_eq]
  exact Iff.rfl

/-- Taking out a triple leaves the others. -/
theorem mem_remove_of_ne (h : u ≠ t) : u ∈ (g.remove t).2 ↔ u ∈ g := by
  rw [mem_def, mem_def, mem_base_remove, imports_remove]
  simp [h]

/-- Triples of another sort than the removed one stay in the base, in their order. -/
theorem filter_base_remove {q : Triple → Bool} (ht : q t = false) :
    (g.remove t).2.base.toList.filter q = g.base.toList.filter q := by
  rw [toList_base_remove, List.filter_filter]
  refine List.filter_congr fun u _ => ?_
  cases hu : q u with
  | false => rfl
  | true =>
    have hne : u ≠ t := by
      rintro rfl
      rw [ht] at hu
      cases hu
    simp [hne]

/-- Some of the triples of the union are listed as they are in the base and the imports. -/
theorem filter_union_congr {g' : Graph} {q : Triple → Bool} (himports : g'.imports = g.imports)
    (hbase : g'.base.toList.filter q = g.base.toList.filter q) :
    g'.union.toList.filter q = g.union.toList.filter q := by
  have hlayers : ∀ (is : List Import) (S T : TripleSet),
      S.toList.filter q = T.toList.filter q →
      (is.foldl (fun S i => S.followedBy i.triples) S).toList.filter q =
        (is.foldl (fun S i => S.followedBy i.triples) T).toList.filter q := by
    intro is
    induction is with
    | nil => exact fun _ _ h => h
    | cons i is ih =>
      intro S T h
      have hmem : ∀ t, q t = true → (t ∈ S ↔ t ∈ T) := by
        intro t ht
        have hiff : t ∈ S.toList.filter q ↔ t ∈ T.toList.filter q := by rw [h]
        rw [List.mem_filter, List.mem_filter] at hiff
        exact ⟨fun hS => (hiff.1 ⟨hS, ht⟩).1, fun hT => (hiff.2 ⟨hT, ht⟩).1⟩
      refine ih _ _ ?_
      simp only [TripleSet.followedBy, List.filter_append, h, List.filter_filter]
      congr 1
      refine List.filter_congr fun t _ => ?_
      cases ht : q t with
      | false => rfl
      | true => simp only [hmem t ht]
  unfold union
  rw [himports]
  exact hlayers _ _ _ hbase

/-- Taking out triples that no import holds leaves the others of the union, in their order. -/
theorem toList_union_removeAll (h : ∀ t ∈ ts, g.isImported t = false) :
    (g.removeAll ts).2.union.toList = g.union.toList.filter fun u => decide (u ∉ ts) := by
  have hbase : (g.removeAll ts).2.base.toList.filter (fun u => decide (u ∉ ts)) =
      g.base.toList.filter fun u => decide (u ∉ ts) := by
    rw [toList_base_removeAll, List.filter_filter]
    simp only [Bool.and_self]
  rw [← filter_union_congr imports_removeAll hbase]
  refine (List.filter_eq_self.2 fun u hu => ?_).symm
  rw [decide_eq_true_iff]
  intro hts
  rcases mem_union.1 hu with hu | hu
  · rw [TripleSet.mem_def, toList_base_removeAll, List.mem_filter, decide_eq_true_iff] at hu
    exact hu.2 hts
  · rw [imports_removeAll, ← isImported_iff, h u hts] at hu
    cases hu

end Graph

/-- A look-up reads the triples with its predicate only. -/
theorem TripleSet.object?_congr {S T : TripleSet} {q : Triple → Bool} {p : Iri}
    (hp : ∀ t, t.predicate = p → q t = true)
    (h : S.toList.filter q = T.toList.filter q) (n : Node) : S.object? n p = T.object? n p := by
  have hfind : ∀ R : TripleSet, R.toList.find? (fun t => t.predicate == p && t.subject == n) =
      (R.toList.filter q).find? fun t => t.predicate == p && t.subject == n := by
    intro R
    rw [List.find?_filter]
    congr 1
    funext t
    by_cases ht : t.predicate = p
    · simp only [ht, hp t ht, true_and]
      exact Bool.eq_iff_iff.2 (by simp)
    · simp [ht]
  unfold object?
  rw [hfind, hfind, h]

end Ontograph
