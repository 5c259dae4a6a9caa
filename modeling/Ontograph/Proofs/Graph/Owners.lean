import Mathlib.Logic.Relation
import Ontograph.Proofs.Graph.Chains

/-!
# Walking a list back

A list is found from an item by walking back from the cell of the item to the head.  On every graph
the walk passes no cell twice, so it ends (`TripleSet.exists_walksBack`): at a cell that is the rest
of none, or at one that it comes to a second time.  Where lists are threaded, each cell in one list
and none behind itself (`TripleSet.Threaded`), walking back undoes reading: the triples that are
found from an item are those that point at the head of a list with this item
(`TripleSet.Threaded.mem_listLinks_iff`).
-/

namespace Ontograph

open Relation

namespace TripleSet

variable {S : TripleSet} {n m h cell last : Node} {x y : Term} {visited path : List Node}
  {limit : Nat} {xs : List Term} {cs : List Cell} {links : List Triple} {t : Triple}

/-! ## Walks -/

/-- The second node is the rest of the first one. -/
def Next (S : TripleSet) (n m : Node) : Prop := ⟨n, .rdf .rest, .node m⟩ ∈ S

/-- The first cell that a node is the rest of. -/
def before? (S : TripleSet) (n : Node) : Option Node := (S.subjects (.rdf .rest) n).head?

/-- A walk back from a cell, given the cells that were passed before: which cells it passes, and
where it ends.  It ends at a cell that is the rest of none, or at one that was passed. -/
inductive WalksBack (S : TripleSet) : List Node → Node → List Node → Node → Prop
  | arrives {visited : List Node} {n : Node} (hnone : S.before? n = none) :
      S.WalksBack visited n [n] n
  | returns {visited : List Node} {n m : Node} (hback : S.before? n = some m)
      (hold : m ∈ n :: visited) : S.WalksBack visited n [n] m
  | steps {visited path : List Node} {n m last : Node} (hback : S.before? n = some m)
      (hnew : m ∉ n :: visited) (hrest : S.WalksBack (n :: visited) m path last) :
      S.WalksBack visited n (n :: path) last

/-- A node is the rest of the cell before it. -/
theorem next_of_before? (h : S.before? n = some m) : S.Next m n :=
  mem_subjects.1 (List.mem_of_mem_head? h)

/-- A node with no cell before it is the rest of none. -/
theorem not_next_of_before? (h : S.before? n = none) : ¬ S.Next m n := by
  intro hnext
  have hmem := mem_subjects.2 hnext
  rw [List.head?_eq_none_iff.1 h] at hmem
  cases hmem

/-- The link found first comes from the first cell that has the node as its rest. -/
theorem find?_leadsTo : (S.toList.find? (leadsTo n)).map Triple.subject = S.before? n := by
  have hfind : S.toList.filter (leadsTo n) = S.find ⟨none, some (.rdf .rest), some (.node n)⟩ :=
    filter_eq_find fun t => by simp [leadsTo, Pattern.admits_iff]
  rw [before?, subjects_eq_find, ← hfind, List.head?_map, List.head?_filter]

/-- The links that lead to none of some cells. -/
def linksBesides (S : TripleSet) (visited : List Node) : List Triple :=
  S.toList.filter fun t => visited.all fun v => !leadsTo v t

/-- Taking out the links to a cell leaves the links to none of one more cell. -/
theorem unlink_linksBesides :
    unlink (S.linksBesides visited) n = S.linksBesides (n :: visited) := by
  rw [unlink, linksBesides, linksBesides, List.filter_filter]
  rfl

/-- A triple leads to a node if the node is the rest that it states. -/
theorem leadsTo_iff : leadsTo n t = true ↔ t.predicate = .rdf .rest ∧ t.object = .node n := by
  simp [leadsTo]

/-- The links to a cell stay until the cell is passed. -/
theorem find?_linksBesides (hnew : n ∉ visited) :
    (S.linksBesides visited).find? (leadsTo n) = S.toList.find? (leadsTo n) := by
  rw [linksBesides, List.find?_filter]
  refine congrArg (S.toList.find? ·) (funext fun t => ?_)
  cases ht : leadsTo n t with
  | false => simp
  | true =>
    have hother : (visited.all fun v => !leadsTo v t) = true := by
      refine List.all_eq_true.2 fun v hv => ?_
      rw [Bool.not_eq_true', Bool.eq_false_iff]
      intro hvt
      have hsame : Term.node v = .node n := (leadsTo_iff.1 hvt).2.symm.trans (leadsTo_iff.1 ht).2
      exact hnew (Term.node.inj hsame ▸ hv)
    simp [hother]

/-- A cell that was passed has lost its links. -/
theorem headOf_linksBesides (hold : n ∈ visited) : headOf (S.linksBesides visited) n = n := by
  have hnone : (S.linksBesides visited).find? (leadsTo n) = none := by
    refine List.find?_eq_none.2 fun t ht hn => ?_
    have hall := List.all_eq_true.1 (List.mem_filter.1 ht).2 n hold
    rw [hn] at hall
    cases hall
  rw [headOf_eq, hnone]

/-- From a new cell the walk back ends where the head of its list is looked for. -/
theorem exists_walksBack_from (hnew : cell ∉ visited) :
    ∃ path, S.WalksBack visited cell path (headOf (S.linksBesides visited) cell) := by
  generalize hlinks : S.linksBesides visited = links
  induction links, cell using headOf.induct generalizing visited with
  | case1 links cell hnone =>
    subst hlinks
    rw [find?_linksBesides hnew] at hnone
    have hback : S.before? cell = none := by rw [← find?_leadsTo, hnone]; rfl
    rw [headOf_eq, find?_linksBesides hnew, hnone]
    exact ⟨_, .arrives hback⟩
  | case2 links cell t ht _ ih =>
    subst hlinks
    have hback : S.before? cell = some t.subject := by
      rw [← find?_leadsTo, ← find?_linksBesides hnew, ht]
      rfl
    rw [headOf_eq, ht]
    dsimp only
    rw [unlink_linksBesides] at ih ⊢
    by_cases hold : t.subject ∈ cell :: visited
    · rw [headOf_linksBesides hold]
      exact ⟨_, .returns hback hold⟩
    · obtain ⟨path, hpath⟩ := ih hold rfl
      exact ⟨_, .steps hback hold hpath⟩

/-- The head of the list of a cell is where a walk back from the cell ends. -/
theorem exists_walksBack (S : TripleSet) (cell : Node) :
    ∃ path, S.WalksBack [] cell path (headOf S.toList cell) := by
  have hall : S.linksBesides [] = S.toList := List.filter_eq_self.2 fun _ _ => rfl
  rw [← hall]
  exact exists_walksBack_from List.not_mem_nil

/-- No cell is passed twice. -/
theorem WalksBack.nodup (hwalk : S.WalksBack visited n path last) (hn : n ∉ visited) :
    path.Nodup ∧ ∀ m ∈ path, m ∉ visited := by
  induction hwalk with
  | arrives | returns => simpa using hn
  | steps _ hnew _ ih =>
    obtain ⟨hnodup, hlater⟩ := ih hnew
    refine ⟨List.nodup_cons.2 ⟨fun h => hlater _ h List.mem_cons_self, hnodup⟩, ?_⟩
    exact List.forall_mem_cons.2 ⟨hn, fun m hm h => hlater m hm (List.mem_cons_of_mem _ h)⟩

/-- All cells but the one that a walk begins at are nodes that the set says something about. -/
theorem WalksBack.length_le (hwalk : S.WalksBack visited n path last) (hn : n ∉ visited) :
    path.length ≤ S.size + 1 := by
  have hsub : path.tail ⊆ S.toList.map Triple.subject := by
    clear hn
    induction hwalk with
    | arrives | returns => exact List.nil_subset _
    | @steps _ path n m last hback _ hrest ih =>
      have hm : m ∈ S.toList.map Triple.subject :=
        List.mem_map.2 ⟨_, next_of_before? hback, rfl⟩
      cases hrest with
      | arrives | returns => simpa using hm
      | steps => exact List.cons_subset.2 ⟨hm, ih⟩
  have hlength := ((hwalk.nodup hn).1.sublist (List.tail_sublist _)).length_le_of_subset hsub
  rw [List.length_map, List.length_tail] at hlength
  rw [size]
  omega

/-- A walk ends at a cell from which the links lead to where it began. -/
theorem WalksBack.reflTransGen (hwalk : S.WalksBack visited n path last) :
    ReflTransGen S.Next last n := by
  induction hwalk with
  | arrives => exact .refl
  | returns hback => exact .single (next_of_before? hback)
  | steps hback _ _ ih => exact ih.tail (next_of_before? hback)

/-- Where no list is behind itself, a walk ends at a cell that is the rest of none. -/
theorem WalksBack.not_next (hwalk : S.WalksBack visited n path last)
    (hacyclic : ∀ n, ¬ TransGen S.Next n n) (hvisited : ∀ v ∈ visited, ReflTransGen S.Next n v) :
    ¬ S.Next m last := by
  induction hwalk with
  | arrives hnone => exact not_next_of_before? hnone
  | @returns visited n k hback hold =>
    -- the cell that the walk comes to again would be behind itself
    have hagain : ReflTransGen S.Next n k := by
      rcases List.mem_cons.1 hold with rfl | hold
      · exact .refl
      · exact hvisited k hold
    exact absurd (TransGen.head' (next_of_before? hback) hagain) (hacyclic k)
  | steps hback _ _ ih =>
    refine ih (List.forall_mem_cons.2 ⟨.single (next_of_before? hback), fun v hv => ?_⟩)
    exact .head (next_of_before? hback) (hvisited v hv)

/-! ## Threaded lists -/

/-- Each cell has one item and one rest, and `rdf:nil` has neither. -/
structure Lined (S : TripleSet) : Prop where
  first : ∀ n x y, ⟨n, .rdf .first, x⟩ ∈ S → ⟨n, .rdf .first, y⟩ ∈ S → x = y
  rest : ∀ n x y, ⟨n, .rdf .rest, x⟩ ∈ S → ⟨n, .rdf .rest, y⟩ ∈ S → x = y
  nilEnds : S.NilEnds

/-- Moreover each cell is in one list only, and none is behind itself. -/
structure Threaded (S : TripleSet) : Prop extends S.Lined where
  previous : ∀ c : Node, c ≠ .iri (.rdf .nil) → ∀ n m, S.Next n c → S.Next m c → n = m
  acyclic : ∀ n, ¬ TransGen S.Next n n

/-- A node with a rest is not `rdf:nil`. -/
theorem Lined.ne_nil_of_next (hS : S.Lined) (hnext : S.Next n m) : n ≠ .iri (.rdf .nil) := by
  rintro rfl
  exact (hS.nilEnds _).2 hnext

/-- A node with a first item is not `rdf:nil`. -/
theorem Lined.ne_nil_of_first (hS : S.Lined) (hx : ⟨n, .rdf .first, x⟩ ∈ S) :
    n ≠ .iri (.rdf .nil) := by
  rintro rfl
  exact (hS.nilEnds x).1 hx

/-- What the triples of a set are like tells that its cells are in line. -/
theorem lined_of_forall (hone : ∀ t ∈ S.toList, ∀ u ∈ S.toList, t.subject = u.subject →
      t.predicate = u.predicate → t.predicate ∈ [.rdf .first, .rdf .rest] → t.object = u.object)
    (hnil : S.describes (.iri (.rdf .nil)) = false) : S.Lined where
  first _ _ _ hx hy := hone _ hx _ hy rfl rfl List.mem_cons_self
  rest _ _ _ hx hy := hone _ hx _ hy rfl rfl (List.mem_cons_of_mem _ List.mem_cons_self)
  nilEnds := nilEnds_of_describes hnil

/-- Links that lead away from low nodes to higher ones lead none back to itself. -/
theorem not_transGen_of_rank (rank : Node → Nat) (hrank : ∀ n m, S.Next n m → rank n < rank m) :
    ¬ TransGen S.Next n n := by
  intro hback
  have hless : ∀ {m}, TransGen S.Next n m → rank n < rank m := fun hm => by
    induction hm with
    | single hnext => exact hrank _ _ hnext
    | tail _ hnext ih => exact Nat.lt_trans ih (hrank _ _ hnext)
  exact Nat.lt_irrefl _ (hless hback)

/-- A chain of cells follows the links. -/
theorem reflTransGen_of_passes {c : Cell} (hcs : Passes S.object? x cs y) (hc : c ∈ cs) :
    ∃ h, x = .node h ∧ ReflTransGen S.Next h c.node ∧ ⟨c.node, .rdf .first, c.item⟩ ∈ S := by
  induction hcs with
  | done => cases hc
  | @pass n item rest _ _ _ hfirst hrest _ ih =>
    rcases List.mem_cons.1 hc with rfl | hc
    · exact ⟨n, rfl, .refl, mem_of_object? hfirst⟩
    · obtain ⟨m, rfl, hpath, hitem⟩ := ih hc
      exact ⟨n, rfl, .head (mem_of_object? hrest) hpath, hitem⟩

/-- The links from the head of a list that ends lead to its cells only. -/
theorem Lined.mem_items_of_passes (hS : S.Lined) (hcs : Passes S.object? (.node h) cs Term.nil)
    (hpath : ReflTransGen S.Next h n) (hx : ⟨n, .rdf .first, x⟩ ∈ S) :
    x ∈ cs.map Cell.item := by
  induction hpath using ReflTransGen.head_induction_on generalizing cs with
  | refl =>
    cases hcs with
    | done => exact absurd rfl (hS.ne_nil_of_first hx)
    | pass _ hfirst =>
      rw [hS.first _ _ _ hx (mem_of_object? hfirst)]
      exact List.mem_cons_self
  | head hnext _ ih =>
    cases hcs with
    | done => exact absurd rfl (hS.ne_nil_of_next hnext)
    | pass _ _ hrest hcs =>
      rw [hS.rest _ _ _ (mem_of_object? hrest) hnext] at hcs
      exact List.mem_cons_of_mem _ (ih hcs)

/-- The items of a list are the items of the cells that the links from its head lead to. -/
theorem Lined.mem_readList_iff (hS : S.Lined) (hxs : S.readList limit (.node h) = .ok xs) :
    x ∈ xs ↔ ∃ n, ReflTransGen S.Next h n ∧ ⟨n, .rdf .first, x⟩ ∈ S := by
  obtain ⟨cs, hcs, -, rfl⟩ := readList_eq_ok_iff_passes.1 hxs
  constructor
  · intro hx
    obtain ⟨c, hc, rfl⟩ := List.mem_map.1 hx
    obtain ⟨h', hsame, hpath, hitem⟩ := reflTransGen_of_passes hcs hc
    cases hsame
    exact ⟨c.node, hpath, hitem⟩
  · rintro ⟨n, hpath, hx⟩
    exact hS.mem_items_of_passes hcs hpath hx

/-- Nothing comes before the head of a list. -/
theorem Threaded.not_next_headOf (hS : S.Threaded) : ¬ S.Next m (headOf S.toList cell) := by
  obtain ⟨path, hwalk⟩ := S.exists_walksBack cell
  exact hwalk.not_next hS.acyclic fun _ hv => nomatch hv

/-- From the head of its list a cell is reached by rests. -/
theorem reflTransGen_headOf : ReflTransGen S.Next (headOf S.toList cell) cell := by
  obtain ⟨path, hwalk⟩ := S.exists_walksBack cell
  exact hwalk.reflTransGen

/-- A cell is behind one head. -/
theorem Threaded.eq_of_heads {a b : Node} (hS : S.Threaded) (hcell : cell ≠ .iri (.rdf .nil))
    (ha : ∀ n, ¬ S.Next n a) (hb : ∀ n, ¬ S.Next n b) (hpath : ReflTransGen S.Next a cell)
    (hpath' : ReflTransGen S.Next b cell) : a = b := by
  induction hpath with
  | refl =>
    rcases hpath'.cases_tail with hsame | ⟨k, -, hk⟩
    · exact hsame
    · exact absurd hk (ha k)
  | @tail k cell _ hk ih =>
    rcases hpath'.cases_tail with rfl | ⟨k', hpath', hk'⟩
    · exact absurd hk (hb k)
    · obtain rfl := hS.previous cell hcell k k' hk hk'
      exact ih (hS.ne_nil_of_next hk) hpath'

/-- A link to a list with the term leads to the head of a cell that has it first. -/
theorem mem_listLinks_iff : t ∈ S.listLinks x ↔ ∃ cell : Node, ⟨cell, .rdf .first, x⟩ ∈ S ∧
    t ∈ S ∧ t.object = headOf S.toList cell ∧ t.predicate ∈ listPredicates := by
  simp only [listLinks, List.mem_flatMap, List.mem_filter, mem_incoming, mem_subjects,
    List.contains_iff_mem, and_assoc]

/-- The triples found from an item are those that point at the head of a list with this item. -/
theorem Threaded.mem_listLinks_iff (hS : S.Threaded) : t ∈ S.listLinks x ↔
    t ∈ S ∧ t.predicate ∈ listPredicates ∧ ∃ h, t.object = .node h ∧ (∀ n, ¬ S.Next n h) ∧
      ∃ cell, ReflTransGen S.Next h cell ∧ ⟨cell, .rdf .first, x⟩ ∈ S := by
  rw [TripleSet.mem_listLinks_iff]
  constructor
  · rintro ⟨cell, hx, ht, ho, hp⟩
    exact ⟨ht, hp, _, ho, fun n => hS.not_next_headOf, cell, reflTransGen_headOf, hx⟩
  · rintro ⟨ht, hp, h, ho, hhead, cell, hpath, hx⟩
    have hsame : h = headOf S.toList cell :=
      hS.eq_of_heads (hS.ne_nil_of_first hx) hhead (fun n => hS.not_next_headOf) hpath
        reflTransGen_headOf
    exact ⟨cell, hx, ht, hsame ▸ ho, hp⟩

/-- A node has a list with the term among its items, for a predicate. -/
def Owns (S : TripleSet) (s : Node) (p : Iri) (x : Term) : Prop :=
  ∃ t ∈ S.listLinks x, t.subject = s ∧ t.predicate = p

/-- A node has a list with the term if the list has no cell before its head, and reaches a cell with
the term. -/
theorem Threaded.owns_iff {s : Node} {p : Iri} (hS : S.Threaded) (hp : p ∈ listPredicates) :
    S.Owns s p x ↔ ∃ h : Node, ⟨s, p, h⟩ ∈ S ∧ (∀ n, ¬ S.Next n h) ∧
      ∃ cell, ReflTransGen S.Next h cell ∧ ⟨cell, .rdf .first, x⟩ ∈ S := by
  constructor
  · rintro ⟨⟨s, p, o⟩, ht, rfl, rfl⟩
    obtain ⟨ht, -, h, rfl, hhead, hcell⟩ := hS.mem_listLinks_iff.1 ht
    exact ⟨h, ht, hhead, hcell⟩
  · rintro ⟨h, ht, hhead, hcell⟩
    exact ⟨_, hS.mem_listLinks_iff.2 ⟨ht, hp, h, rfl, hhead, hcell⟩, rfl, rfl⟩

/-- A triple that gives a list by its head is found from the items of the list. -/
theorem Threaded.mem_listLinks_iff_mem {s : Node} {p : Iri} {y : Term} (hS : S.Threaded)
    (hp : p ∈ listPredicates) (ht : ⟨s, p, y⟩ ∈ S) (hhead : ∀ n, ⟨n, .rdf .rest, y⟩ ∉ S)
    (hxs : S.readList limit y = .ok xs) : ⟨s, p, y⟩ ∈ S.listLinks x ↔ x ∈ xs := by
  rw [hS.mem_listLinks_iff]
  match y with
  | .literal l =>
    obtain ⟨cs, hcs, -, -⟩ := readList_eq_ok_iff_passes.1 hxs
    cases hcs
  | .node h =>
    rw [hS.toLined.mem_readList_iff hxs]
    constructor
    · rintro ⟨-, -, h', hsame, -, hcell⟩
      cases hsame
      exact hcell
    · exact fun hcell => ⟨ht, hp, h, rfl, hhead, hcell⟩

end TripleSet

open TripleSet

/-- **Owners.** Where lists are threaded, a node and a list predicate are found from an item exactly
if the predicate gives the node a list, by its head, with a cell of this item; so what is found
through a list that can be read is found from its items, and from nothing else.  On every graph the
walk back from a cell ends, after no more cells than there are triples, and one. -/
theorem Graph.listLinks_exact (g : Graph) :
    (g.union.Threaded → ∀ (x : Term) (s : Node), ∀ p ∈ listPredicates,
      (g.union.Owns s p x ↔ ∃ h : Node, ⟨s, p, h⟩ ∈ g ∧ (∀ n, ⟨n, .rdf .rest, h⟩ ∉ g) ∧
        ∃ cell, ReflTransGen (fun n m : Node => ⟨n, .rdf .rest, m⟩ ∈ g) h cell ∧
          ⟨cell, .rdf .first, x⟩ ∈ g)) ∧
    (g.union.Threaded → ∀ (s : Node), ∀ p ∈ listPredicates, ∀ (h : Term) (limit : Nat)
      (xs : List Term), ⟨s, p, h⟩ ∈ g → (∀ n, ⟨n, .rdf .rest, h⟩ ∉ g) →
      g.union.readList limit h = .ok xs →
      (∀ x, ⟨s, p, h⟩ ∈ g.union.listLinks x ↔ x ∈ xs) ∧
        ((∀ h', ⟨s, p, h'⟩ ∈ g → h' = h) → ∀ x, g.union.Owns s p x ↔ x ∈ xs)) ∧
    ∀ cell, ∃ path, g.union.WalksBack [] cell path (headOf g.union.toList cell) ∧
      path.Nodup ∧ path.length ≤ g.size + 1 := by
  simp only [← Graph.mem_union, g.size_eq]
  refine ⟨fun hg x s p hp => hg.owns_iff hp, fun hg s p hp h limit xs hh hhead hxs => ?_,
    fun cell => ?_⟩
  · have hlinks : ∀ x, ⟨s, p, h⟩ ∈ g.union.listLinks x ↔ x ∈ xs := fun x =>
      hg.mem_listLinks_iff_mem hp hh hhead hxs
    refine ⟨hlinks, fun honly x => ⟨?_, fun hx => ⟨_, (hlinks x).2 hx, rfl, rfl⟩⟩⟩
    rintro ⟨⟨s', p', h'⟩, ht, rfl, rfl⟩
    rw [honly h' (hg.mem_listLinks_iff.1 ht).1] at ht
    exact (hlinks x).1 ht
  · obtain ⟨path, hwalk⟩ := g.union.exists_walksBack cell
    exact ⟨path, hwalk, (hwalk.nodup List.not_mem_nil).1, hwalk.length_le List.not_mem_nil⟩

/-- A union class with its list of two items, whose second cell is in an import. -/
theorem Graph.listLinks_exact_union :
    let n (x : String) : Node := .blank ⟨x⟩
    let first : Cell := ⟨n "x", n "a", n "y"⟩
    let second : Cell := ⟨n "y", n "b", Term.nil⟩
    let link : Triple := ⟨n "c", .owl .unionOf, n "x"⟩
    let g : Graph :=
      { base := .ofList (link :: first.triples), imports := [⟨0, .ofList second.triples⟩] }
    (∀ x, link ∈ g.union.listLinks x ↔ x ∈ [first.item, second.item]) ∧
      ∀ x, g.union.Owns (n "c") (.owl .unionOf) x ↔ x ∈ [first.item, second.item] := by
  intro n first second link g
  have hlinks : ∀ t ∈ g.union.toList, t.predicate = .rdf .rest →
      t = ⟨n "x", .rdf .rest, n "y"⟩ ∨ t = ⟨n "y", .rdf .rest, Term.nil⟩ := by decide +kernel
  have hnext : ∀ a b, g.union.Next a b →
      a = n "x" ∧ b = n "y" ∨ a = n "y" ∧ b = .iri (.rdf .nil) := by
    intro a b hab
    simpa using hlinks _ hab rfl
  have hrank : ∀ a b, g.union.Next a b →
      (if a = n "x" then 0 else if a = n "y" then 1 else 2) <
        if b = n "x" then 0 else if b = n "y" then 1 else 2 := by
    intro a b hab
    rcases hnext a b hab with ⟨rfl, rfl⟩ | ⟨rfl, rfl⟩ <;> decide
  have hg : g.union.Threaded :=
    { lined_of_forall (by decide +kernel) (by decide +kernel) with
      previous := fun c hc a b ha hb => by
        rcases hnext a c ha with ⟨rfl, rfl⟩ | ⟨-, rfl⟩
        · rcases hnext b _ hb with ⟨rfl, -⟩ | ⟨-, hnil⟩
          · rfl
          · exact absurd hnil (by decide)
        · exact absurd rfl hc
      acyclic := fun _ => not_transGen_of_rank _ hrank }
  have hhead : ∀ a, ⟨a, .rdf .rest, .node (n "x")⟩ ∉ g := fun a ha => by
    rcases hnext a (n "x") (Graph.mem_union.2 ha) with ⟨-, h⟩ | ⟨-, h⟩ <;>
      exact absurd h (by decide)
  have hlink : link ∈ g := Graph.mem_union.1 (show link ∈ g.union.toList by decide +kernel)
  have honly : ∀ t ∈ g.union.toList, t.predicate = .owl .unionOf → t.object = n "x" := by
    decide +kernel
  have hlist := (Graph.listLinks_exact g).2.1 hg (n "c") (.owl .unionOf) (by decide) (n "x") 2
    [first.item, second.item] hlink hhead (by decide +kernel)
  exact ⟨hlist.1, hlist.2 fun h hh => honly _ (Graph.mem_union.2 hh) rfl⟩

end Ontograph
