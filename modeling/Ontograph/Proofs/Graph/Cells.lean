import Ontograph.Graph.Collection

/-!
# Reading the cells of a list

A look-up that has one answer finds it, whatever else the set holds.  One step of reading a list is
then an equivalence: what is read from a cell is nothing at `rdf:nil`, and otherwise the item of
the cell followed by what is read from the next one; the triples of the cells are gathered the same
way.
-/

namespace Ontograph

namespace TripleSet

/-! ## Look-ups with one answer -/

section Single

variable {S : TripleSet} {n : Node} {p : Iri} {o : Term}

/-- A look-up with one possible answer finds it. -/
theorem object?_eq_some (h : ⟨n, p, o⟩ ∈ S) (huniq : ∀ o', ⟨n, p, o'⟩ ∈ S → o' = o) :
    S.object? n p = some o := by
  cases hlook : S.object? n p with
  | some o' => rw [huniq o' (mem_of_object? hlook)]
  | none =>
    have hnone := Option.map_eq_none_iff.1 hlook
    have hbad := List.find?_eq_none.1 hnone _ h
    simp at hbad

/-- A list without repetitions all of whose elements are the same. -/
theorem eq_singleton_of_nodup {α : Type} {as : List α} {a : α} (hnodup : as.Nodup) (ha : a ∈ as)
    (hall : ∀ b ∈ as, b = a) : as = [a] := by
  match as, hnodup, ha, hall with
  | [b], _, _, hall => rw [hall b List.mem_cons_self]
  | b :: c :: as, hnodup, _, hall =>
    have hbc : b = c := by
      rw [hall b List.mem_cons_self, hall c (by simp)]
    rw [hbc] at hnodup
    exact absurd hnodup (by simp)

/-- A node with a single triple. -/
theorem outgoing_eq_singleton {t : Triple} (h : t ∈ S)
    (huniq : ∀ u ∈ S, u.subject = t.subject → u = t) : S.outgoing t.subject = [t] := by
  refine eq_singleton_of_nodup (S.nodup.filter _) (mem_outgoing.2 ⟨h, rfl⟩) fun u hu => ?_
  exact huniq u (mem_outgoing.1 hu).1 (mem_outgoing.1 hu).2

/-- A node with a single object for a predicate. -/
theorem statements_eq_singleton (h : ⟨n, p, o⟩ ∈ S) (huniq : ∀ o', ⟨n, p, o'⟩ ∈ S → o' = o) :
    S.statements n p = [⟨n, p, o⟩] := by
  refine eq_singleton_of_nodup (S.nodup.filter _) (mem_statements.2 ⟨h, rfl, rfl⟩) ?_
  rintro ⟨m, q, o'⟩ hu
  obtain ⟨hmem, rfl, rfl⟩ := mem_statements.1 hu
  exact congrArg _ (huniq o' hmem)

end Single

/-! ## Reading cell by cell -/

variable {S : TripleSet} {limit : Option Nat} {visited : List Node} {c : Term} {xs : List Term}

/-- A cell that is read is `rdf:nil`, or a new node within the limit with an item and a rest. -/
theorem readCells_eq_ok_iff : S.readCells limit visited c = .ok xs ↔
    c = .node (.iri (.rdf .nil)) ∧ xs = [] ∨
    ∃ n first rest ys, c = .node n ∧ n ≠ .iri (.rdf .nil) ∧ n ∉ visited ∧
      (∀ l, limit = some l → visited.length < l) ∧
      S.object? n (.rdf .first) = some first ∧ S.object? n (.rdf .rest) = some rest ∧
      S.readCells limit (n :: visited) rest = .ok ys ∧ xs = first :: ys := by
  match c with
  | .literal _ => simp [readCells]
  | .node n =>
    rw [readCells]
    by_cases hnil : n = .iri (.rdf .nil)
    · simp [hnil, eq_comm]
    · have hlimit : limit.filter (· ≤ visited.length) = none ↔
          ∀ l, limit = some l → visited.length < l := by
        cases limit <;> simp [Option.filter]
      simp only [if_neg hnil]
      constructor
      · intro h
        right
        split at h
        case isTrue => cases h
        case isFalse hv =>
        split at h
        case h_1 => cases h
        case h_2 hl =>
        split at h
        case h_1 => cases h
        case h_2 first hf =>
        split at h
        case h_1 => cases h
        case h_2 rest hr =>
        cases hys : S.readCells limit (n :: visited) rest with
        | error _ => simp [hys, Except.map] at h
        | ok ys =>
          rw [hys] at h
          cases h
          exact ⟨n, first, rest, ys, rfl, hnil, hv, hlimit.1 hl, hf, hr, hys, rfl⟩
      · rintro (⟨h, -⟩ | ⟨_, first, rest, ys, ⟨rfl⟩, -, hv, hl, hf, hr, hys, rfl⟩)
        · exact absurd (by simpa using h) hnil
        · rw [dif_neg hv, hlimit.2 hl]
          dsimp only
          split
          case h_1 hf' => simp [hf] at hf'
          case h_2 first' hf' =>
            rw [hf] at hf'
            cases hf'
            simp only [hr, hys, Except.map]

/-- Sets with the same first items and rests have the same lists. -/
theorem readCells_eq_ok_congr {T : TripleSet}
    (hfirst : ∀ n, S.object? n (.rdf .first) = T.object? n (.rdf .first))
    (hrest : ∀ n, S.object? n (.rdf .rest) = T.object? n (.rdf .rest)) :
    S.readCells limit visited c = .ok xs ↔ T.readCells limit visited c = .ok xs := by
  induction xs generalizing visited c with
  | nil =>
    rw [readCells_eq_ok_iff, readCells_eq_ok_iff]
    simp only [reduceCtorEq, and_false, exists_false]
  | cons x xs ih =>
    rw [readCells_eq_ok_iff, readCells_eq_ok_iff]
    refine or_congr (by simp) (exists_congr fun n => exists_congr fun first =>
      exists_congr fun rest => exists_congr fun ys => ?_)
    rw [hfirst, hrest]
    constructor
    · rintro ⟨hc, hnil, hv, hl, hf, hr, hys, rfl, rfl⟩
      exact ⟨hc, hnil, hv, hl, hf, hr, ih.1 hys, rfl⟩
    · rintro ⟨hc, hnil, hv, hl, hf, hr, hys, rfl, rfl⟩
      exact ⟨hc, hnil, hv, hl, hf, hr, ih.2 hys, rfl⟩

/-- Reading cells needs no more than what is looked up for the first and the rest of each. -/
theorem toOption_readCells_congr {T : TripleSet}
    (hfirst : ∀ n, S.object? n (.rdf .first) = T.object? n (.rdf .first))
    (hrest : ∀ n, S.object? n (.rdf .rest) = T.object? n (.rdf .rest)) :
    (S.readCells limit visited c).toOption = (T.readCells limit visited c).toOption := by
  have hok : ∀ ys, S.readCells limit visited c = .ok ys ↔ T.readCells limit visited c = .ok ys :=
    fun _ => readCells_eq_ok_congr hfirst hrest
  cases hS : S.readCells limit visited c with
  | ok ys => rw [(hok ys).1 hS]
  | error e =>
    cases hT : T.readCells limit visited c with
    | ok ys => cases hS.symm.trans ((hok ys).2 hT)
    | error e' => rfl

/-- Reading a list needs no more than what is looked up for the first and the rest of its cells. -/
theorem toOption_readList_congr {T : TripleSet} {limit : Nat}
    (hfirst : ∀ n, S.object? n (.rdf .first) = T.object? n (.rdf .first))
    (hrest : ∀ n, S.object? n (.rdf .rest) = T.object? n (.rdf .rest)) :
    (S.readList limit c).toOption = (T.readList limit c).toOption := by
  have hmap : ∀ r : Except ListDefect (List Term),
      (r.mapError (⟨c, ·⟩ : ListDefect → MalformedList)).toOption = r.toOption := by
    intro r
    cases r <;> rfl
  rw [readList, readList, hmap, hmap, toOption_readCells_congr hfirst hrest]

/-- The items of a list are a matter of the first and the rest of its cells. -/
theorem items_congr {T : TripleSet}
    (hfirst : ∀ n, S.object? n (.rdf .first) = T.object? n (.rdf .first))
    (hrest : ∀ n, S.object? n (.rdf .rest) = T.object? n (.rdf .rest)) : S.items c = T.items c := by
  have hitems : ∀ U : TripleSet, U.items c = (U.readCells none [] c).toOption.getD [] := by
    intro U
    unfold items
    cases U.readCells none [] c <;> rfl
  rw [hitems, hitems, toOption_readCells_congr hfirst hrest]

/-! ## The triples of cells -/

/-- The node `rdf:nil` is no cell of a list. -/
def NilEnds (S : TripleSet) : Prop :=
  ∀ o, ⟨.iri (.rdf .nil), .rdf .first, o⟩ ∉ S ∧ ⟨.iri (.rdf .nil), .rdf .rest, o⟩ ∉ S

/-- If nothing is said about `rdf:nil`, it is no cell. -/
theorem nilEnds_of_describes (h : S.describes (.iri (.rdf .nil)) = false) : S.NilEnds := by
  have hno : ∀ t ∈ S, t.subject ≠ .iri (.rdf .nil) := fun t ht hs => by
    rw [describes_iff.2 ⟨t, ht, hs⟩] at h
    cases h
  exact fun o => ⟨fun ho => hno _ ho rfl, fun ho => hno _ ho rfl⟩

/-- The triples of a new cell within the limit, then those of the cell after it, if there is one. -/
theorem cellTriples_node {limit : Nat} {visited : List Node} {n : Node} :
    S.cellTriples limit visited (.node n) =
      if limit ≤ visited.length ∨ n ∈ visited then []
      else S.statements n (.rdf .first) ++
        match S.statements n (.rdf .rest) with
        | [] => []
        | t :: ts => t :: ts ++ S.cellTriples limit (n :: visited) t.object := by
  rw [cellTriples]
  split
  case isTrue => rfl
  case isFalse =>
    split
    case h_1 hr => rw [hr, List.append_nil]
    case h_2 hr => simp only [hr, List.append_assoc]

/-- Sets with the same triples that say what is first and what is the rest have the same triples of
cells. -/
theorem cellTriples_congr {T : TripleSet} {limit : Nat} {visited : List Node}
    (hfirst : ∀ n, S.statements n (.rdf .first) = T.statements n (.rdf .first))
    (hrest : ∀ n, S.statements n (.rdf .rest) = T.statements n (.rdf .rest)) :
    S.cellTriples limit visited c = T.cellTriples limit visited c := by
  induction visited, c using TripleSet.cellTriples.induct S limit with
  | case1 visited l => rw [TripleSet.cellTriples, TripleSet.cellTriples]
  | case2 visited c hstop => rw [cellTriples_node, cellTriples_node, if_pos hstop, if_pos hstop]
  | case3 visited c hgo hr =>
    rw [cellTriples_node, cellTriples_node, if_neg hgo, if_neg hgo, hfirst, ← hrest, hr]
  | case4 visited c hgo t ts hr _ _ ih =>
    rw [cellTriples_node, cellTriples_node, if_neg hgo, if_neg hgo, hfirst, ← hrest, hr]
    dsimp only
    rw [ih]

/-- At the end of a list there are no more cells. -/
theorem NilEnds.cellTriples_nil (h : S.NilEnds) {limit : Nat} {visited : List Node} :
    S.cellTriples limit visited (.node (.iri (.rdf .nil))) = [] := by
  have hstatements : ∀ p, p = Iri.rdf .first ∨ p = .rdf .rest →
      S.statements (.iri (.rdf .nil)) p = [] := by
    intro p hp
    refine List.eq_nil_iff_forall_not_mem.2 fun t ht => ?_
    obtain ⟨s, q, o⟩ := t
    obtain ⟨hmem, rfl, rfl⟩ := mem_statements.1 ht
    rcases hp with rfl | rfl
    · exact (h o).1 hmem
    · exact (h o).2 hmem
  rw [cellTriples_node, hstatements _ (Or.inl rfl), hstatements _ (Or.inr rfl)]
  exact ite_self _

/-- The triples of a new cell are followed by those of the next one. -/
theorem cellTriples_cell {limit : Nat} {visited : List Node} {n : Node} {x rest : Term}
    (hlimit : visited.length < limit) (hn : n ∉ visited)
    (hfirst : S.statements n (.rdf .first) = [⟨n, .rdf .first, x⟩])
    (hrest : S.statements n (.rdf .rest) = [⟨n, .rdf .rest, rest⟩]) :
    S.cellTriples limit visited (.node n) =
      ⟨n, .rdf .first, x⟩ :: ⟨n, .rdf .rest, rest⟩ :: S.cellTriples limit (n :: visited) rest := by
  rw [cellTriples_node, if_neg (by simp only [not_or]; exact ⟨by omega, hn⟩), hfirst, hrest]
  rfl

/-! ## Walking back -/

/-- A step back goes to a cell that leads to the given one. -/
theorem headOf_eq (links : List Triple) (cell : Node) :
    headOf links cell = match links.find? (leadsTo cell) with
      | none => cell
      | some t => headOf (unlink links cell) t.subject := by
  rw [headOf]
  split
  case h_1 h => rw [h]
  case h_2 h => simp only [h]

end TripleSet

end Ontograph
