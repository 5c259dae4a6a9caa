import Ontograph.Proofs.Graph.Edits
import Ontograph.Proofs.Graph.Owners

/-!
# What an edit leaves alone

Writing triples into a graph, or taking them out, leaves all other triples of the union, in their
order (`TripleSet.SameBut`).  A look-up that none of the edited triples can answer has the same
answer before and after.  So has anything that is read of lists, as long as no edited triple links
cells: the items, the head of the list of a cell, and which other triples point at a list.
-/

namespace Ontograph

namespace TripleSet

variable {S T : TripleSet} {ts : List Triple} {t : Triple} {n cell : Node} {p c : Iri} {o x : Term}

/-! ## Look-ups -/

/-- Two sets list the same triples in the same order, but for some. -/
def SameBut (ts : List Triple) (S T : TripleSet) : Prop :=
  S.toList.filter (fun t => decide (t ∉ ts)) = T.toList.filter fun t => decide (t ∉ ts)

namespace SameBut

/-- Two sets that are the same but for some triples are so either way round. -/
theorem symm (h : SameBut ts S T) : SameBut ts T S := Eq.symm h

/-- Any other triple is in both sets or in neither. -/
theorem mem_iff (h : SameBut ts S T) (ht : t ∉ ts) : t ∈ S ↔ t ∈ T := by
  have hiff : t ∈ S.toList.filter (fun t => decide (t ∉ ts)) ↔
      t ∈ T.toList.filter fun t => decide (t ∉ ts) := by rw [h]
  rwa [List.mem_filter, List.mem_filter, and_iff_left (decide_eq_true ht),
    and_iff_left (decide_eq_true ht)] at hiff

/-- A search that none of the triples can pass finds the same. -/
theorem filter (h : SameBut ts S T) {q : Triple → Bool} (hfree : ∀ t ∈ ts, q t = false) :
    S.toList.filter q = T.toList.filter q := by
  have hfilter : ∀ U : TripleSet,
      (U.toList.filter fun t => decide (t ∉ ts)).filter q = U.toList.filter q := by
    intro U
    rw [List.filter_filter]
    refine List.filter_congr fun t _ => ?_
    by_cases ht : t ∈ ts
    · simp [ht, hfree t ht]
    · simp [ht]
  rw [← hfilter S, h, hfilter T]

/-- A property of which no triple was edited has the same statements. -/
theorem statements (h : SameBut ts S T) (hfree : ∀ o, ⟨n, p, o⟩ ∉ ts) :
    S.statements n p = T.statements n p := by
  refine h.filter fun t ht => ?_
  obtain ⟨m, q, o⟩ := t
  rw [Bool.eq_false_iff]
  intro hq
  simp only [Bool.and_eq_true, beq_iff_eq] at hq
  obtain ⟨rfl, rfl⟩ := hq
  exact hfree o ht

/-- The value looked up for a property is the same if no triple of it was edited. -/
theorem object? (h : SameBut ts S T) (hfree : ∀ o, ⟨n, p, o⟩ ∉ ts) :
    S.object? n p = T.object? n p := by
  have hstatements : ∀ U : TripleSet, U.object? n p = (U.statements n p).head?.map Triple.object :=
    fun U => congrArg _ (List.head?_filter ..).symm
  rw [hstatements, hstatements, h.statements hfree]

/-- A node of which no triple was edited has the same triples. -/
theorem outgoing (h : SameBut ts S T) (hfree : ∀ t ∈ ts, t.subject ≠ n) :
    S.outgoing n = T.outgoing n := h.filter fun t ht => beq_false_of_ne (hfree t ht)

/-- Whether a node has a property stays as it is if no triple of it was edited. -/
theorem hasProperty (h : SameBut ts S T) (hfree : ∀ o, ⟨n, p, o⟩ ∉ ts) :
    S.hasProperty n p = T.hasProperty n p := by
  rw [Bool.eq_iff_iff, hasProperty_iff, hasProperty_iff]
  exact exists_congr fun o => h.mem_iff (hfree o)

/-- Whether a value is used stays as it is if no triple with it was edited. -/
theorem hasSubject (h : SameBut ts S T) (hfree : ∀ n, ⟨n, p, o⟩ ∉ ts) :
    S.hasSubject p o = T.hasSubject p o := by
  rw [Bool.eq_iff_iff, hasSubject_iff, hasSubject_iff]
  exact exists_congr fun n => h.mem_iff (hfree n)

/-- Whether a node has a type stays as it is if that typing was not edited. -/
theorem hasType (h : SameBut ts S T) (hfree : .typing n c ∉ ts) :
    S.hasType n c = T.hasType n c := by
  rw [Bool.eq_iff_iff, hasType_iff, hasType_iff]
  exact h.mem_iff hfree

end SameBut

/-! ## Lists -/

/-- Walking back follows `rdf:rest` only. -/
theorem headOf_filter {links : List Triple} {q : Triple → Bool}
    (hq : ∀ t, t.predicate = .rdf .rest → q t = true) :
    headOf (links.filter q) cell = headOf links cell := by
  have hfind : ∀ (us : List Triple) (n : Node),
      (us.filter q).find? (leadsTo n) = us.find? (leadsTo n) := by
    intro us n
    rw [List.find?_filter]
    refine congrArg (us.find? ·) (funext fun t => ?_)
    cases ht : leadsTo n t with
    | false => simp
    | true => simp [hq t (leadsTo_iff.1 ht).1]
  induction links, cell using headOf.induct with
  | case1 links cell hnone => rw [headOf_eq, headOf_eq, hfind, hnone]
  | case2 links cell t ht _ ih =>
    have hunlink : unlink (links.filter q) cell = (unlink links cell).filter q := by
      simp only [unlink, List.filter_filter, Bool.and_comm]
    rw [headOf_eq, headOf_eq links, hfind, ht]
    dsimp only
    rw [hunlink, ih]

/-- None of the triples links cells of lists. -/
def Cellless (ts : List Triple) : Prop :=
  ∀ t ∈ ts, t.predicate ≠ .rdf .first ∧ t.predicate ≠ .rdf .rest

/-- A triple that says what comes first in a cell links it. -/
theorem Cellless.first (h : Cellless ts) : (⟨n, .rdf .first, o⟩ : Triple) ∉ ts :=
  fun ht => (h _ ht).1 rfl

/-- A triple that says what comes after a cell links it. -/
theorem Cellless.rest (h : Cellless ts) : (⟨n, .rdf .rest, o⟩ : Triple) ∉ ts :=
  fun ht => (h _ ht).2 rfl

namespace SameBut

/-- Lists of which no cell was edited have the same items. -/
theorem items (h : SameBut ts S T) (hts : Cellless ts) : S.items x = T.items x :=
  items_congr (fun _ => h.object? fun _ => hts.first) fun _ => h.object? fun _ => hts.rest

/-- A list reads as the same items if no cell was edited. -/
theorem readList_eq_ok_iff (h : SameBut ts S T) (hts : Cellless ts) {limit : Nat}
    {xs : List Term} : S.readList limit x = .ok xs ↔ T.readList limit x = .ok xs := by
  rw [← toOption_readList_eq_some_iff, ← toOption_readList_eq_some_iff,
    toOption_readList_congr (fun _ => h.object? fun _ => hts.first)
      fun _ => h.object? fun _ => hts.rest]

/-- A list of which no cell was edited has the same triples. -/
theorem listTriples (h : SameBut ts S T) (hts : Cellless ts) {limit : Nat} :
    S.listTriples limit x = T.listTriples limit x :=
  cellTriples_congr (fun _ => h.statements fun _ => hts.first) fun _ =>
    h.statements fun _ => hts.rest

/-- Walking back from a cell ends at the same head if no cell was edited. -/
theorem headOf (h : SameBut ts S T) (hts : Cellless ts) :
    headOf S.toList cell = headOf T.toList cell := by
  have hkept : ∀ t : Triple, t.predicate = .rdf .rest → decide (t ∉ ts) = true := fun t ht =>
    decide_eq_true fun hmem => (hts t hmem).2 ht
  rw [← headOf_filter hkept, h, headOf_filter hkept]

/-- The triples that point at a list with a given item, but for edited ones. -/
theorem mem_listLinks (h : SameBut ts S T) (hts : Cellless ts) (ht : t ∉ ts) :
    t ∈ S.listLinks x ↔ t ∈ T.listLinks x := by
  simp only [mem_listLinks_iff, h.headOf hts, h.mem_iff ht, h.mem_iff hts.first]

/-- Cells stay in line if none was edited. -/
theorem lined (h : SameBut ts S T) (hts : Cellless ts) (hS : S.Lined) : T.Lined where
  first n x y hx hy := hS.first n x y ((h.mem_iff hts.first).2 hx) ((h.mem_iff hts.first).2 hy)
  rest n x y hx hy := hS.rest n x y ((h.mem_iff hts.rest).2 hx) ((h.mem_iff hts.rest).2 hy)
  nilEnds o := ⟨fun ho => (hS.nilEnds o).1 ((h.mem_iff hts.first).2 ho),
    fun ho => (hS.nilEnds o).2 ((h.mem_iff hts.rest).2 ho)⟩

end SameBut

/-- A triple that points at a list that is read is found from the items of the list only. -/
theorem Lined.mem_of_mem_listLinks {limit : Nat} {xs : List Term} (hS : S.Lined)
    (ht : t ∈ S.listLinks x) (hxs : S.readList limit t.object = .ok xs) : x ∈ xs := by
  obtain ⟨cell, hcell, -, ho, -⟩ := mem_listLinks_iff.1 ht
  rw [ho] at hxs
  exact (hS.mem_readList_iff hxs).2 ⟨cell, reflTransGen_headOf, hcell⟩

end TripleSet

/-! ## Edits -/

namespace Graph

open TripleSet

variable {g : Graph} {ts : List Triple}

/-- Insertions change the union by their triples alone. -/
theorem sameBut_insertAll : SameBut ts g.union (g.insertAll ts).2.union :=
  (filter_union_congr imports_insertAll (filter_base_insertAll fun _ ht => ht)).symm

/-- Removals change the union by their triples alone. -/
theorem sameBut_removeAll : SameBut ts g.union (g.removeAll ts).2.union := by
  refine (filter_union_congr imports_removeAll ?_).symm
  rw [toList_base_removeAll, List.filter_filter]
  simp only [Bool.and_self]

end Graph

end Ontograph
