import Mathlib.Data.List.Nodup
import Ontograph.Graph.Lookup
import Ontograph.Proofs.Graph.Cells

/-!
# Chains of cells

A list is read along a chain of cells: each cell has an item and a rest, and the rest is the next
cell (`Passes`).  A list can be read exactly if a chain within the limit leads from its head to
`rdf:nil`, and then the items are those of the cells (`TripleSet.readCells_eq_ok_iff_passes`).  Any
other list is refused at the first place where the chain cannot go on (`Stuck`), which is reached on
every graph, because no cell is passed twice.  Where the cells have one item and one rest each, the
triples that are gathered are those of the cells that are read (`TripleSet.cellTriples_of_passes`).
-/

namespace Ontograph

open TripleSet

/-- A cell of a list: a node, its item, and what comes after it. -/
structure Cell where
  node : Node
  item : Term
  rest : Term
  deriving DecidableEq

/-- The two triples of a cell. -/
def Cell.triples (c : Cell) : List Triple :=
  [⟨c.node, .rdf .first, c.item⟩, ⟨c.node, .rdf .rest, c.rest⟩]

/-- The term that ends a list. -/
abbrev Term.nil : Term := .node (.iri (.rdf .nil))

section Chains

variable {look : Node → Iri → Option Term} {x y : Term} {n : Node} {cs cs' : List Cell}
  {limit : Nat} {passed passed' : List Node} {d : ListDefect}

/-- A chain of cells, none of them `rdf:nil`, leads from one term to another.  The item and the rest
of each cell are what is looked up for it. -/
inductive Passes (look : Node → Iri → Option Term) : Term → List Cell → Term → Prop
  | done {x : Term} : Passes look x [] x
  | pass {n : Node} {item rest y : Term} {cs : List Cell} (hnil : n ≠ .iri (.rdf .nil))
      (hfirst : look n (.rdf .first) = some item) (hrest : look n (.rdf .rest) = some rest)
      (h : Passes look rest cs y) : Passes look (.node n) (⟨n, item, rest⟩ :: cs) y

/-- Reading cannot go on at a term, given the nodes of the cells that were passed.  Of the faults of
a term that is not `rdf:nil` the first one counts. -/
inductive Stuck (look : Node → Iri → Option Term) (limit : Nat) (passed : List Node) :
    Term → ListDefect → Prop
  | literalCell {l : Literal} : Stuck look limit passed (.literal l) .literalCell
  | cyclic {n : Node} (hnil : n ≠ .iri (.rdf .nil)) (hold : n ∈ passed) :
      Stuck look limit passed (.node n) .cyclic
  | tooLong {n : Node} (hnil : n ≠ .iri (.rdf .nil)) (hnew : n ∉ passed)
      (hfull : limit ≤ passed.length) : Stuck look limit passed (.node n) (.tooLong limit)
  | missingFirst {n : Node} (hnil : n ≠ .iri (.rdf .nil)) (hnew : n ∉ passed)
      (hroom : passed.length < limit) (hfirst : look n (.rdf .first) = none) :
      Stuck look limit passed (.node n) .missingFirst
  | missingRest {n : Node} {item : Term} (hnil : n ≠ .iri (.rdf .nil)) (hnew : n ∉ passed)
      (hroom : passed.length < limit) (hfirst : look n (.rdf .first) = some item)
      (hrest : look n (.rdf .rest) = none) : Stuck look limit passed (.node n) .missingRest

/-- In which order the cells were passed does not matter. -/
theorem Stuck.perm (h : Stuck look limit passed x d) (hperm : passed.Perm passed') :
    Stuck look limit passed' x d := by
  have hmem : ∀ {n}, n ∉ passed → n ∉ passed' := fun hnew h => hnew (hperm.mem_iff.2 h)
  have hlength := hperm.length_eq
  cases h with
  | literalCell => exact .literalCell
  | cyclic hnil hold => exact .cyclic hnil (hperm.mem_iff.1 hold)
  | tooLong hnil hnew hfull => exact .tooLong hnil (hmem hnew) (hlength ▸ hfull)
  | missingFirst hnil hnew hroom hfirst =>
    exact .missingFirst hnil (hmem hnew) (hlength ▸ hroom) hfirst
  | missingRest hnil hnew hroom hfirst hrest =>
    exact .missingRest hnil (hmem hnew) (hlength ▸ hroom) hfirst hrest

/-- A term is the end of a list, or reading is stuck there, or it is a new cell. -/
theorem nil_or_stuck_or_cell (look : Node → Iri → Option Term) (limit : Nat) (passed : List Node)
    (x : Term) : x = Term.nil ∨ (∃ d, Stuck look limit passed x d) ∨
      ∃ n item rest, x = .node n ∧ n ≠ .iri (.rdf .nil) ∧ n ∉ passed ∧ passed.length < limit ∧
        look n (.rdf .first) = some item ∧ look n (.rdf .rest) = some rest := by
  match x with
  | .literal l => exact Or.inr (Or.inl ⟨_, .literalCell⟩)
  | .node n =>
    by_cases hnil : n = .iri (.rdf .nil)
    · exact Or.inl (congrArg _ hnil)
    by_cases hold : n ∈ passed
    · exact Or.inr (Or.inl ⟨_, .cyclic hnil hold⟩)
    by_cases hroom : passed.length < limit
    · cases hfirst : look n (.rdf .first) with
      | none => exact Or.inr (Or.inl ⟨_, .missingFirst hnil hold hroom hfirst⟩)
      | some item =>
        cases hrest : look n (.rdf .rest) with
        | none => exact Or.inr (Or.inl ⟨_, .missingRest hnil hold hroom hfirst hrest⟩)
        | some rest => exact Or.inr (Or.inr ⟨n, item, rest, rfl, hnil, hold, hroom, hfirst, hrest⟩)
    · exact Or.inr (Or.inl ⟨_, .tooLong hnil hold (Nat.le_of_not_lt hroom)⟩)

/-! ## Chains that end -/

/-- From a term there is at most one chain to the end of a list. -/
theorem Passes.unique (h : Passes look x cs Term.nil) (h' : Passes look x cs' Term.nil) :
    cs = cs' := by
  induction cs generalizing x cs' with
  | nil =>
    cases h
    cases h' with
    | done => rfl
    | pass hnil => exact absurd rfl hnil
  | cons c cs ih =>
    cases h with
    | pass hnil hfirst hrest h =>
      cases h' with
      | done => exact absurd rfl hnil
      | pass _ hfirst' hrest' h' =>
        obtain rfl := Option.some.inj (hfirst.symm.trans hfirst')
        obtain rfl := Option.some.inj (hrest.symm.trans hrest')
        rw [ih h h']

/-- Each cell of a chain begins a chain that is no longer. -/
theorem Passes.suffix (h : Passes look x cs y) (hn : n ∈ cs.map Cell.node) :
    ∃ cs', Passes look (.node n) cs' y ∧ cs'.length ≤ cs.length := by
  induction h with
  | done => cases hn
  | pass hnil hfirst hrest h ih =>
    rcases List.mem_cons.1 hn with hsame | hn
    · subst hsame
      exact ⟨_, .pass hnil hfirst hrest h, Nat.le_refl _⟩
    · obtain ⟨cs', h', hlength⟩ := ih hn
      exact ⟨cs', h', Nat.le_succ_of_le hlength⟩

/-- A chain that ends passes each cell once. -/
theorem Passes.nodup (h : Passes look x cs Term.nil) : (cs.map Cell.node).Nodup := by
  induction cs generalizing x with
  | nil => exact List.nodup_nil
  | cons c cs ih =>
    cases h with
    | pass hnil hfirst hrest h =>
      refine List.nodup_cons.2 ⟨fun hback => ?_, ih h⟩
      -- coming back to the cell would make the rest of the chain as long as all of it
      obtain ⟨cs', h', hlength⟩ := h.suffix hback
      rw [← (Passes.pass hnil hfirst hrest h).unique h', List.length_cons] at hlength
      omega

/-- Cells that were not visited before a new one are not visited after it either. -/
theorem notMem_visited_cons (hfresh : n ∉ cs.map Cell.node) (hvisited : ∀ c ∈ cs, c.node ∉ passed) :
    ∀ c ∈ cs, c.node ∉ n :: passed := by
  intro c hc hmem
  rcases List.mem_cons.1 hmem with hsame | hmem
  · exact hfresh (List.mem_map.2 ⟨c, hc, hsame⟩)
  · exact hvisited c hc hmem

end Chains

namespace TripleSet

variable {S : TripleSet} {limit : Nat} {visited : List Node} {x y item rest : Term} {n : Node}
  {xs : List Term} {cs : List Cell} {d : ListDefect}

/-- The cells of a chain are nodes that the set says something about. -/
theorem length_le_of_passes (h : Passes S.object? x cs y) (hnodup : (cs.map Cell.node).Nodup) :
    cs.length ≤ S.size := by
  have hsub : cs.map Cell.node ⊆ S.toList.map Triple.subject := by
    clear hnodup
    induction h with
    | done => exact List.nil_subset _
    | pass _ hfirst _ _ ih =>
      exact List.cons_subset.2 ⟨List.mem_map.2 ⟨_, mem_of_object? hfirst, rfl⟩, ih⟩
  have hlength := hnodup.length_le_of_subset hsub
  rwa [List.length_map, List.length_map] at hlength

/-! ## Reading along a chain -/

/-- A list is read exactly if a chain of new cells within the limit leads to its end. -/
theorem readCells_eq_ok_iff_passes {limit : Option Nat} :
    S.readCells limit visited x = .ok xs ↔
      ∃ cs, Passes S.object? x cs Term.nil ∧ (∀ c ∈ cs, c.node ∉ visited) ∧
        (∀ l, limit = some l → cs.length ≤ l - visited.length) ∧ xs = cs.map Cell.item := by
  induction xs generalizing visited x with
  | nil =>
    rw [readCells_eq_ok_iff]
    constructor
    · rintro (⟨rfl, -⟩ | ⟨n, first, rest, ys, -, -, -, -, -, -, -, h⟩)
      · exact ⟨[], .done, by simp, by simp, rfl⟩
      · cases h
    · rintro ⟨cs, h, -, -, hcs⟩
      obtain rfl := List.map_eq_nil_iff.1 hcs.symm
      cases h
      exact Or.inl ⟨rfl, rfl⟩
  | cons item xs ih =>
    rw [readCells_eq_ok_iff]
    constructor
    · rintro (⟨-, h⟩ | ⟨n, first, rest, ys, rfl, hnil, hnew, hlimit, hfirst, hrest, hys, h⟩)
      · cases h
      · cases h
        obtain ⟨cs, hcs, hvisited, hroom, rfl⟩ := ih.1 hys
        refine ⟨⟨n, item, rest⟩ :: cs, .pass hnil hfirst hrest hcs, ?_, ?_, rfl⟩
        · intro c hc
          rcases List.mem_cons.1 hc with rfl | hc
          · exact hnew
          · exact fun h => hvisited c hc (List.mem_cons_of_mem _ h)
        · intro l hl
          have hn := hlimit l hl
          have hcs := hroom l hl
          simp only [List.length_cons] at hcs ⊢
          omega
    · rintro ⟨cs, h, hvisited, hroom, hxs⟩
      -- a chain to the end has no cell twice, so no cell of it is visited by those before
      have hnodup := h.nodup
      cases h with
      | done => cases hxs
      | @pass n first rest _ cs hnil hfirst hrest h =>
        cases hxs
        obtain ⟨hnew, hvisited⟩ := List.forall_mem_cons.1 hvisited
        refine Or.inr ⟨n, first, rest, _, rfl, hnil, hnew, fun l hl => ?_, hfirst, hrest,
          ih.2 ⟨cs, h, notMem_visited_cons (List.nodup_cons.1 hnodup).1 hvisited, fun l hl => ?_,
            rfl⟩, rfl⟩
        · have hlength := hroom l hl
          rw [List.length_cons] at hlength
          omega
        · have hlength := hroom l hl
          rw [List.length_cons] at hlength ⊢
          omega

/-- A new cell within the limit is followed by what comes after it. -/
theorem readCells_cell (hnil : n ≠ .iri (.rdf .nil)) (hnew : n ∉ visited)
    (hroom : visited.length < limit) (hfirst : S.object? n (.rdf .first) = some item)
    (hrest : S.object? n (.rdf .rest) = some rest) :
    S.readCells (some limit) visited (.node n) =
      (S.readCells (some limit) (n :: visited) rest).map (item :: ·) := by
  have hlimit : (some limit).filter (fun l => decide (l ≤ visited.length)) = none := by
    simp [Option.filter, hroom]
  rw [readCells, if_neg hnil, dif_neg hnew, hlimit]
  dsimp only
  split
  case h_1 hnone => simp [hfirst] at hnone
  case h_2 item' hsome =>
    rw [hfirst] at hsome
    cases hsome
    rw [hrest]

/-- Where reading is stuck, the list is refused. -/
theorem readCells_of_stuck (h : Stuck S.object? limit visited x d) :
    S.readCells (some limit) visited x = .error d := by
  cases h with
  | literalCell => rw [readCells]
  | cyclic hnil hold => rw [readCells, if_neg hnil, dif_pos hold]
  | tooLong hnil hnew hfull =>
    have hlimit : (some limit).filter (fun l => decide (l ≤ visited.length)) = some limit := by
      simp [Option.filter, hfull]
    rw [readCells, if_neg hnil, dif_neg hnew, hlimit]
  | missingFirst hnil hnew hroom hfirst =>
    have hlimit : (some limit).filter (fun l => decide (l ≤ visited.length)) = none := by
      simp [Option.filter, hroom]
    rw [readCells, if_neg hnil, dif_neg hnew, hlimit]
    dsimp only
    split
    case h_1 => rfl
    case h_2 hsome => simp [hfirst] at hsome
  | missingRest hnil hnew hroom hfirst hrest =>
    have hlimit : (some limit).filter (fun l => decide (l ≤ visited.length)) = none := by
      simp [Option.filter, hroom]
    rw [readCells, if_neg hnil, dif_neg hnew, hlimit]
    dsimp only
    split
    case h_1 hnone => simp [hfirst] at hnone
    case h_2 => rw [hrest]

/-- A list is refused exactly if a chain of new cells leads to a place where reading is stuck. -/
theorem readCells_eq_error_iff : S.readCells (some limit) visited x = .error d ↔
    ∃ cs y, Passes S.object? x cs y ∧ (cs.map Cell.node).Nodup ∧ (∀ c ∈ cs, c.node ∉ visited) ∧
      cs.length ≤ limit - visited.length ∧
      Stuck S.object? limit ((cs.map Cell.node).reverse ++ visited) y d := by
  constructor
  · intro h
    -- each cell read leaves one subject fewer to visit
    induction hk : S.unvisited visited using Nat.strongRecOn generalizing visited x with
    | ind k ih =>
      rcases nil_or_stuck_or_cell S.object? limit visited x with
        rfl | ⟨d', hstuck⟩ | ⟨n, item, rest, rfl, hnil, hnew, hroom, hfirst, hrest⟩
      · rw [readCells_eq_ok_iff.2 (Or.inl ⟨rfl, rfl⟩)] at h
        cases h
      · rw [readCells_of_stuck hstuck] at h
        cases h
        exact ⟨[], x, .done, List.nodup_nil, by simp, Nat.zero_le _, hstuck⟩
      · rw [readCells_cell hnil hnew hroom hfirst hrest] at h
        have hinner : S.readCells (some limit) (n :: visited) rest = .error d := by
          cases hrun : S.readCells (some limit) (n :: visited) rest with
          | ok ys =>
            rw [hrun] at h
            cases h
          | error d' =>
            rw [hrun] at h
            cases h
            rfl
        have hless := unvisited_cons_lt hnew (mem_of_object? hfirst) rfl
        obtain ⟨cs, y, hcs, hnodup, hvisited, hlength, hstuck⟩ := ih _ (hk ▸ hless) hinner rfl
        refine ⟨⟨n, item, rest⟩ :: cs, y, .pass hnil hfirst hrest hcs, ?_, ?_, ?_, ?_⟩
        · refine List.nodup_cons.2 ⟨fun hmem => ?_, hnodup⟩
          obtain ⟨c, hc, hcn⟩ := List.mem_map.1 hmem
          exact hvisited c hc (hcn ▸ List.mem_cons_self)
        · intro c hc
          rcases List.mem_cons.1 hc with rfl | hc
          · exact hnew
          · exact fun hmem => hvisited c hc (List.mem_cons_of_mem _ hmem)
        · rw [List.length_cons] at hlength ⊢
          omega
        · simpa using hstuck
  -- along the chain each cell passes the fault of the rest on
  · rintro ⟨cs, y, hcs, hnodup, hvisited, hlength, hstuck⟩
    induction hcs generalizing visited with
    | done => exact readCells_of_stuck (by simpa using hstuck)
    | @pass n item rest y cs hnil hfirst hrest _ ih =>
      obtain ⟨hfresh, hnodup⟩ := List.nodup_cons.1 hnodup
      obtain ⟨hnew, hvisited⟩ := List.forall_mem_cons.1 hvisited
      rw [List.length_cons] at hlength
      have hinner : S.readCells (some limit) (n :: visited) rest = .error d := by
        refine ih hnodup (notMem_visited_cons hfresh hvisited) ?_ (by simpa using hstuck)
        rw [List.length_cons]
        omega
      rw [readCells_cell hnil hnew (by omega) hfirst hrest, hinner]
      rfl

/-- A list is read if a chain of cells within the limit leads to `rdf:nil`, and its items are those
of the cells. -/
theorem readList_eq_ok_iff_passes : S.readList limit x = .ok xs ↔
    ∃ cs, Passes S.object? x cs Term.nil ∧ cs.length ≤ limit ∧ xs = cs.map Cell.item := by
  have hread : S.readList limit x = .ok xs ↔ S.readCells (some limit) [] x = .ok xs := by
    unfold readList
    cases S.readCells (some limit) [] x <;> simp [Except.mapError]
  rw [hread, readCells_eq_ok_iff_passes]
  simp

/-- Whether the fault of a list is kept or not, what is read is the same. -/
theorem toOption_readList_eq_some_iff :
    (S.readList limit x).toOption = some xs ↔ S.readList limit x = .ok xs := by
  cases S.readList limit x <;> simp [Except.toOption]

/-- A list is not read if a chain of different cells within the limit gets stuck, for that fault. -/
theorem readList_eq_error_iff {e : MalformedList} : S.readList limit x = .error e ↔
    ∃ cs y d, Passes S.object? x cs y ∧ (cs.map Cell.node).Nodup ∧ cs.length ≤ limit ∧
      Stuck S.object? limit (cs.map Cell.node) y d ∧ e = ⟨x, d⟩ := by
  have hread : S.readList limit x = .error e ↔
      ∃ d, S.readCells (some limit) [] x = .error d ∧ e = ⟨x, d⟩ := by
    unfold readList
    cases S.readCells (some limit) [] x <;> simp [Except.mapError, eq_comm]
  rw [hread]
  constructor
  · rintro ⟨d, hd, rfl⟩
    obtain ⟨cs, y, hcs, hnodup, -, hlength, hstuck⟩ := readCells_eq_error_iff.1 hd
    rw [List.append_nil] at hstuck
    exact ⟨cs, y, d, hcs, hnodup, hlength, hstuck.perm (List.reverse_perm _), rfl⟩
  · rintro ⟨cs, y, d, hcs, hnodup, hlength, hstuck, rfl⟩
    refine ⟨d, readCells_eq_error_iff.2 ⟨cs, y, hcs, hnodup, by simp, hlength, ?_⟩, rfl⟩
    rw [List.append_nil]
    exact hstuck.perm (List.reverse_perm _).symm

/-! ## The triples of a chain -/

/-- A cell with one item and one rest. -/
structure Cell.Single (S : TripleSet) (c : Cell) : Prop where
  first : ∀ o, ⟨c.node, .rdf .first, o⟩ ∈ S → o = c.item
  rest : ∀ o, ⟨c.node, .rdf .rest, o⟩ ∈ S → o = c.rest

/-- Along a chain of new cells within the limit the triples of each cell are gathered. -/
theorem cellTriples_of_passes (hends : S.NilEnds) (h : Passes S.object? x cs Term.nil)
    (hsingle : ∀ c ∈ cs, Cell.Single S c) (hvisited : ∀ c ∈ cs, c.node ∉ visited)
    (hlength : cs.length ≤ limit - visited.length) :
    S.cellTriples limit visited x = cs.flatMap Cell.triples := by
  induction cs generalizing x visited with
  | nil =>
    cases h
    exact hends.cellTriples_nil
  | cons c cs ih =>
    have hnodup := h.nodup
    cases h with
    | @pass n item rest _ _ hnil hfirst hrest h =>
      have hfresh := (List.nodup_cons.1 hnodup).1
      obtain ⟨hnew, hvisited⟩ := List.forall_mem_cons.1 hvisited
      obtain ⟨honly, hsingle⟩ := List.forall_mem_cons.1 hsingle
      rw [List.length_cons] at hlength
      have hrest' : S.cellTriples limit (n :: visited) rest = cs.flatMap Cell.triples := by
        refine ih h hsingle (notMem_visited_cons hfresh hvisited) ?_
        rw [List.length_cons]
        omega
      rw [cellTriples_cell (by omega) hnew
        (statements_eq_singleton (mem_of_object? hfirst) honly.first)
        (statements_eq_singleton (mem_of_object? hrest) honly.rest), hrest']
      rfl

end TripleSet

/-! ## Lists of a graph -/

/-- **Lists.** A list of a graph is read exactly if a chain of cells within the limit leads from its
head to `rdf:nil`, and its items are those of the cells, in order.  Otherwise it is refused: a chain
of different cells within the limit, and so of no more cells than there are triples, leads to a
place where reading is stuck.  If the cells of a list that is read have one item and one rest each,
and `rdf:nil` has neither, then the triples gathered for it are those of its cells, in order, two
for each item. -/
theorem Graph.readList_exact (g : Graph) (limit : Nat) (head : Term) :
    (∀ xs, g.union.readList limit head = .ok xs ↔
      ∃ cs, Passes g.object? head cs Term.nil ∧ cs.length ≤ limit ∧ xs = cs.map Cell.item) ∧
    (∀ e, g.union.readList limit head = .error e ↔
      ∃ cs y d, Passes g.object? head cs y ∧ (cs.map Cell.node).Nodup ∧ cs.length ≤ limit ∧
        Stuck g.object? limit (cs.map Cell.node) y d ∧ e = ⟨head, d⟩) ∧
    (∀ cs y, Passes g.object? head cs y → (cs.map Cell.node).Nodup → cs.length ≤ g.size) ∧
    ∀ xs, g.union.readList limit head = .ok xs →
      ∃ cs, Passes g.object? head cs Term.nil ∧ xs = cs.map Cell.item ∧
        ((∀ c ∈ cs, Cell.Single g.union c) → g.union.NilEnds →
          g.union.listTriples limit head = cs.flatMap Cell.triples ∧
          (g.union.listTriples limit head).length = 2 * xs.length) := by
  have hlook : g.object? = g.union.object? := funext fun _ => funext fun _ => g.object?_eq
  rw [hlook]
  refine ⟨fun xs => readList_eq_ok_iff_passes, fun e => readList_eq_error_iff,
    fun cs y h hnodup => ?_, fun xs hxs => ?_⟩
  · rw [g.size_eq]
    exact length_le_of_passes h hnodup
  · obtain ⟨cs, hcs, hlength, rfl⟩ := readList_eq_ok_iff_passes.1 hxs
    refine ⟨cs, hcs, rfl, fun hsingle hends => ?_⟩
    have htriples : g.union.listTriples limit head = cs.flatMap Cell.triples :=
      cellTriples_of_passes hends hcs hsingle (by simp) hlength
    refine ⟨htriples, ?_⟩
    rw [htriples, List.length_map, List.length_flatMap]
    simp [Cell.triples, Nat.mul_comm]

/-- A list of two items, whose second cell is in an import, within its limit. -/
theorem Graph.readList_exact_imported :
    let n (x : String) : Node := .blank ⟨x⟩
    let c (x : String) (item rest : Term) : Cell := ⟨n x, item, rest⟩
    let cs : List Cell := [c "x" (n "a") (n "y"), c "y" (n "b") Term.nil]
    let g : Graph :=
      { base := .ofList (c "x" (n "a") (n "y")).triples
        imports := [⟨0, .ofList (c "y" (n "b") Term.nil).triples⟩] }
    g.union.listTriples 2 (n "x") = cs.flatMap Cell.triples := by
  intro n c cs g
  have hread : g.union.readList 2 (n "x") = .ok [n "a", n "b"] := by decide +kernel
  obtain ⟨cs', hcs', -, hgather⟩ := (Graph.readList_exact g 2 (n "x")).2.2.2 _ hread
  have hcs : Passes g.object? (n "x") cs Term.nil :=
    .pass (by decide) (by decide +kernel) (by decide +kernel)
      (.pass (by decide) (by decide +kernel) (by decide +kernel) .done)
  obtain rfl := hcs'.unique hcs
  have hown : ∀ d ∈ cs, ∀ t ∈ g.union.toList, t.subject = d.node → t ∈ d.triples := by
    decide +kernel
  refine (hgather (fun d hd => ⟨fun o ho => ?_, fun o ho => ?_⟩)
    (nilEnds_of_describes (by decide +kernel))).1
  · simpa [Cell.triples] using hown d hd _ ho rfl
  · simpa [Cell.triples] using hown d hd _ ho rfl

end Ontograph
