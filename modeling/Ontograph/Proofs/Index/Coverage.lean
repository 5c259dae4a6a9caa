import Ontograph.Proofs.Classify.Locality
import Ontograph.Proofs.Index.Ascent
import Ontograph.Proofs.Index.Current
import Ontograph.Proofs.Mapping.Locality

/-!
# Edits of tidy sets are covered

An edit may be followed by reading few main triples again: those near the edited triples, and those
near the triples that mention a node of which a touched question is now answered differently.  That
these are all that can be read differently is not so on every set of triples, since a climb stops at
a node with a name.  It is so where the nodes that encode axioms are as an encoding makes them:
cells of lists, roots of axioms and facets are no IRIs, and a cell, a group and a node that stands
for a triple have one value for each of their parts (`TripleSet.Tidy`).

A main triple that is not read again is far from the edit (`TripleSet.FarFrom`): steps up lead to it
from no edited triple, and from no triple with a node whose categories changed.  So whatever it is
read from is the same before and after (`TripleSet.FarFrom.agreesOn`), and an edit of a tidy set
that leaves a tidy set is covered (`Indices.covered_of_tidy`).
-/

namespace Ontograph

open Relation

namespace TripleSet

variable {S T : TripleSet} {ts seeds : List Triple} {n k : Node} {t u m : Triple} {x : Term}
  {b : Blank} {limit : Nat} {xs : List Term}

/-! ## Tidy sets -/

/-- The nodes that encode axioms are as an encoding makes them. -/
structure Tidy (S : TripleSet) (limit : Nat) : Prop extends S.Lined where
  singleMembers : S.SingleMembers
  reifiesOnce : ∀ n, S.ReifiesOnce n
  cells : ∀ n x, ⟨n, .rdf .first, x⟩ ∈ S → n.isBlank = true
  roots : ∀ t ∈ S, t.IsRoot → t.subject.isBlank = true
  facets : ∀ n x xs, ⟨n, .owl .withRestrictions, x⟩ ∈ S → S.readList limit x = .ok xs →
    ∀ y ∈ xs, y.isNamed = false

/-- The predicates that have one object at each node of a tidy set. -/
def onceTold : List Iri :=
  [.rdf .first, .rdf .rest, .owl .members, .owl .annotatedSource, .owl .annotatedProperty,
    .owl .annotatedTarget]

/-- What the triples of a set are like tells that it is tidy. -/
theorem tidy_of_forall
    (hone : ∀ t ∈ S.toList, ∀ u ∈ S.toList, t.subject = u.subject → t.predicate = u.predicate →
      t.predicate ∈ onceTold → t.object = u.object)
    (hnil : S.describes (.iri (.rdf .nil)) = false)
    (hblank : ∀ t ∈ S.toList, t.predicate = .rdf .first ∨ t.predicate = .rdf .type ∧
      t.object ∈ rootTypes.map (fun c => .node (.iri c)) → t.subject.isBlank = true)
    (hfacets : ∀ t ∈ S.toList, t.predicate = .owl .withRestrictions →
      ∀ y ∈ ((S.readList limit t.object).toOption).getD [], y.isNamed = false) :
    S.Tidy limit where
  first _ _ _ hx hy := hone _ hx _ hy rfl rfl (by simp [onceTold])
  rest _ _ _ hx hy := hone _ hx _ hy rfl rfl (by simp [onceTold])
  nilEnds := nilEnds_of_describes hnil
  singleMembers _ _ _ hx hy := hone _ hx _ hy rfl rfl (by simp [onceTold])
  reifiesOnce _ :=
    { source := fun _ _ hx hy => hone _ hx _ hy rfl rfl (by simp [onceTold])
      property := fun _ _ hx hy => hone _ hx _ hy rfl rfl (by simp [onceTold])
      target := fun _ _ hx hy => hone _ hx _ hy rfl rfl (by simp [onceTold]) }
  cells _ _ hx := hblank _ hx (Or.inl rfl)
  roots := by
    rintro ⟨n, p, o⟩ ht ⟨c, hc, heq⟩
    cases heq
    exact hblank _ ht (Or.inr ⟨rfl, List.mem_map_of_mem hc⟩)
  facets n x xs hx hxs y hy := by
    refine hfacets _ hx rfl y ?_
    rw [hxs]
    exact hy

/-! ## Climbs that come to a triple -/

/-- Steps up from the node lead to one that the triple is around. -/
def ClimbsTo (S : TripleSet) (n : Node) (t : Triple) : Prop :=
  ∃ k, ReflTransGen S.Up n k ∧ t ∈ S.around k

/-- The triples with a blank node in them are around it without a step up. -/
theorem climbsTo_of_isBlank (hn : n.isBlank = true) (ht : t ∈ S)
    (h : t.subject = n ∨ t.object = .node n) : S.ClimbsTo n t :=
  ⟨n, .refl, mem_around_of_isBlank hn ht h⟩

/-- The triple that a node stands for is around it without a step up. -/
theorem ReifiesOnce.climbsTo (h : S.ReifiesOnce n) (hn : ∀ u ∈ t.reifiedBy n, u ∈ S) :
    S.ClimbsTo n t :=
  ⟨n, .refl, mem_around_of_reified? (h.reified?_eq_some hn)⟩

/-- A blank node leads up to what the subject of a triple with it leads up to. -/
theorem ClimbsTo.of_object (h : S.ClimbsTo u.subject t) (hu : u ∈ S) (hn : n.isBlank = true)
    (ho : u.object = .node n) : S.ClimbsTo n t := by
  obtain ⟨k, hpath, hk⟩ := h
  exact ⟨k, .head (up_of_isBlank hn hu ho) hpath, hk⟩

/-- What a climb from the subjects of some triples does not list. -/
theorem notMem_mainsNear_iff : m ∉ S.mainsNear ts ↔ ∀ t ∈ ts, m ≠ t ∧
    ¬ (t.predicate = .rdf .type ∧ m ∈ S ∧ m.subject = t.subject) ∧ ¬ S.ClimbsTo t.subject m := by
  rw [mem_mainsNear_iff]
  constructor
  · intro h t ht
    refine ⟨?_, fun htyped => h (Or.inr (Or.inl ⟨t, ht, htyped⟩)), fun hclimbs =>
      h (Or.inr (Or.inr ⟨t, ht, hclimbs⟩))⟩
    rintro rfl
    exact h (Or.inl ht)
  · rintro h (hm | ⟨t, ht, htyped⟩ | ⟨t, ht, hclimbs⟩)
    · exact (h m hm).1 rfl
    · exact (h t ht).2.1 htyped
    · exact (h t ht).2.2 hclimbs

/-- The triples that mention a node have it in one of the three positions. -/
theorem mem_mentioning : t ∈ S.mentioning n ↔
    t ∈ S ∧ (t.object = .node n ∨ t.subject = n ∨ n = .iri t.predicate) := by
  cases n with
  | iri i =>
    simp only [mentioning, List.mem_append, mem_incoming, mem_outgoing, mem_uses, Node.iri.injEq,
      ← and_or_left, eq_comm (a := i)]
  | blank b =>
    simp only [mentioning, List.mem_append, mem_incoming, mem_outgoing, ← and_or_left, reduceCtorEq,
      or_false]

/-! ## Main triples far from an edit -/

/-- The triple is in the set after the edit and not near it: neither near the edited triples, nor,
after the edit, near some triples among which are those, and all that mention a node whose
categories changed.  The edit leaves the cells of lists alone. -/
structure FarFrom (S T : TripleSet) (ts seeds : List Triple) (m : Triple) : Prop where
  same : SameBut ts S T
  cellless : Cellless ts
  mem : m ∈ T
  edited : ∀ t ∈ ts, t ∈ seeds
  changed : ∀ c n, S.isA none c (.node n) ≠ T.isA none c (.node n) →
    ∀ t ∈ T.mentioning n, t ∈ seeds
  before : m ∉ S.mainsNear ts
  after : m ∉ T.mainsNear seeds

/-- The triple may be read from the term after the edit as before it: steps up lead to the triple,
if the term is a blank node, and the term is of the same categories. -/
structure Settled (S T : TripleSet) (m : Triple) (x : Term) : Prop where
  climbs : ∀ b : Blank, x = .node b → T.ClimbsTo b m
  isA : ∀ c, S.isA none c x = T.isA none c x

namespace FarFrom

variable (h : FarFrom S T ts seeds m)

include h

/-- No steps up lead from an edited triple to one that is far from the edit. -/
theorem not_climbsTo (ht : t ∈ seeds) : ¬ T.ClimbsTo t.subject m :=
  ((notMem_mainsNear_iff.1 h.after) t ht).2.2

/-- A node from which steps up lead to the triple has no edited triple. -/
theorem outgoing (hn : T.ClimbsTo n m) : S.outgoing n = T.outgoing n := by
  refine h.same.outgoing fun t ht hs => ?_
  subst hs
  exact h.not_climbsTo (h.edited t ht) hn

/-- A triple about a node from which steps lead to the far triple was not edited. -/
theorem mem_iff_of_climbsTo {p : Iri} (hn : T.ClimbsTo n m) :
    ⟨n, p, x⟩ ∈ S ↔ ⟨n, p, x⟩ ∈ T :=
  h.same.mem_iff fun ht => h.not_climbsTo (h.edited _ ht) hn

/-- A triple far from the edit was there before it. -/
theorem mem_before : m ∈ S :=
  (h.same.mem_iff fun ht => ((notMem_mainsNear_iff.1 h.before) m ht).1 rfl).2 h.mem

/-- The categories of a node are the same if a triple that mentions it is not near the edit. -/
theorem isA_eq {c : Category} (hu : u ∈ T.mentioning n) (hfar : u ∉ seeds) :
    S.isA none c n = T.isA none c n := by
  by_contra hne
  exact hfar (h.changed c n hne u hu)

/-- A triple far from the edit is none of those near which it is looked for. -/
theorem notMem_seeds : m ∉ seeds := fun hm => ((notMem_mainsNear_iff.1 h.after) m hm).1 rfl

/-- A term of the triple. -/
theorem settled (hx : x = .node m.subject ∨ x = .node (.iri m.predicate) ∨ x = m.object) :
    S.Settled T m x := by
  constructor
  · rintro b rfl
    refine climbsTo_of_isBlank rfl h.mem ?_
    simpa [eq_comm] using hx
  · intro c
    cases x with
    | literal l => rfl
    | node n =>
      refine h.isA_eq (mem_mentioning.2 ⟨h.mem, ?_⟩) h.notMem_seeds
      simp only [Term.node.injEq] at hx
      exact hx.elim (fun hs => Or.inr (Or.inl hs.symm)) fun hx =>
        hx.elim (fun hp => Or.inr (Or.inr hp)) fun ho => Or.inl ho.symm

/-- What a blank node leads to from which the triple may be read. -/
theorem settled_object {p : Iri} (hb : S.Settled T m (.node b)) (ht : ⟨b, p, x⟩ ∈ T) :
    S.Settled T m x := by
  have hclimbs := hb.climbs b rfl
  constructor
  · rintro b' rfl
    exact ClimbsTo.of_object (u := ⟨b, p, .node b'⟩) hclimbs ht rfl rfl
  · intro c
    cases x with
    | literal l => rfl
    | node n =>
      refine h.isA_eq (mem_mentioning.2 ⟨ht, Or.inl rfl⟩) fun hseed => ?_
      exact h.not_climbsTo hseed hclimbs

/-- The items of a list are reached through its cells, which are blank nodes. -/
theorem settled_items (hS : S.Tidy limit) (hx : S.Settled T m x)
    (hxs : S.readList limit x = .ok xs) : ∀ y ∈ xs, S.Settled T m y := by
  obtain ⟨cs, hcs, -, rfl⟩ := readList_eq_ok_iff_passes.1 hxs
  have hall : ∀ {x y : Term} {cs : List Cell}, Passes S.object? x cs y → S.Settled T m x →
      ∀ c ∈ cs, S.Settled T m c.item := by
    intro x y cs hcs
    induction hcs with
    | done => exact fun _ _ hc => nomatch hc
    | @pass n item rest _ _ _ hfirst hrest _ ih =>
      intro hx
      have hitem := mem_of_object? hfirst
      obtain ⟨i⟩ | ⟨b⟩ := n
      · cases hS.cells _ _ hitem
      · have hmem : ∀ {p o}, ⟨.blank b, p, o⟩ ∈ S → S.Settled T m o := fun ht =>
          h.settled_object hx ((h.mem_iff_of_climbsTo (hx.climbs b rfl)).1 ht)
        exact List.forall_mem_cons.2 ⟨hmem hitem, ih (hmem (mem_of_object? hrest))⟩
  intro y hy
  obtain ⟨c, hc, rfl⟩ := List.mem_map.1 hy
  exact hall hcs hx c hc

variable {s : Settings}

/-- Whatever the triple is read from is the same before and after. -/
theorem agreesOn (hS : S.Tidy s.listLimit) (hbudget : s.budget = none) :
    Source.AgreesOn ⟨S, s⟩ ⟨T, s⟩ (S.Settled T m) where
  list x := by
    have hread : (S.readList s.listLimit x).toOption = (T.readList s.listLimit x).toOption :=
      toOption_readList_congr (fun _ => h.same.object? fun _ => h.cellless.first)
        fun _ => h.same.object? fun _ => h.cellless.rest
    simp only [Source.list, hread, h.same.listTriples h.cellless]
  isA x hx c := by
    rw [Source.isA, Source.isA, hbudget]
    exact hx.isA c
  outgoing b hb := h.outgoing (hb.climbs b rfl)
  objects b p o hb ht := h.settled_object hb ((h.mem_iff_of_climbsTo (hb.climbs b rfl)).1 ht)
  items x xs hx hxs := h.settled_items hS hx hxs
  facets b x xs _ ht hxs := hS.facets b x xs ht hxs

/-- A main triple that is far from an edit of a tidy set begins to be read as before it. -/
theorem begins (hS : S.Tidy s.listLimit) :
    Source.Begins ⟨S, s⟩ ⟨T, s⟩ (S.Settled T m) m where
  subject := h.settled (Or.inl rfl)
  predicate := h.settled (Or.inr (Or.inl rfl))
  object := h.settled (Or.inr (Or.inr rfl))
  header := by
    refine h.same.hasType fun ht => ?_
    exact ((notMem_mainsNear_iff.1 h.after) _ (h.edited _ ht)).2.1 ⟨rfl, h.mem, rfl⟩
  root hroot := hS.roots m h.mem_before hroot

/-- A node that stands for the triple, before or after, has no edited triple. -/
theorem outgoing_of_reifies (hS : S.ReifiesOnce n) (hT : T.ReifiesOnce n)
    (hn : (∀ u ∈ m.reifiedBy n, u ∈ S) ∨ ∀ u ∈ m.reifiedBy n, u ∈ T) :
    S.outgoing n = T.outgoing n := by
  rcases hn with hn | hn
  · refine h.same.outgoing fun t ht hs => ?_
    subst hs
    exact ((notMem_mainsNear_iff.1 h.before) t ht).2.2 (hS.climbsTo hn)
  · exact h.outgoing (hT.climbsTo hn)

end FarFrom

end TripleSet

/-! ## Covered edits -/

namespace Indices

open TripleSet

variable {s : Settings} {S T : TripleSet} {ts ms : List Triple} {t m : Triple}
  {qs : List Question}

/-- A question is answered differently in the two sets. -/
def Changes (s : Settings) (S T : TripleSet) (q : Question) : Prop :=
  S.isA s.budget q.category q.node ≠ T.isA s.budget q.category q.node

/-- The triples near which main triples are read again after an edit that touches some questions:
the edited ones, and those that mention a node of which a question is answered differently. -/
def seeds (s : Settings) (S T : TripleSet) (ts : List Triple) (qs : List Question) : List Triple :=
  let changed := qs.filter fun q =>
    S.isA s.budget q.category q.node != T.isA s.budget q.category q.node
  ts ++ changed.flatMap fun q => T.mentioning q.node

/-- The triples to look near are the edited ones, and those that mention a node of which a question
is answered differently. -/
theorem mem_seeds : t ∈ seeds s S T ts qs ↔
    t ∈ ts ∨ ∃ q ∈ qs, Changes s S T q ∧ t ∈ T.mentioning q.node := by
  simp only [seeds, List.mem_append, List.mem_flatMap, List.mem_filter, bne_iff_ne, Changes,
    and_assoc]

/-- If the indices are kept, the touched questions are listed, and no other question leads to one of
them whose answer changed. -/
theorem exists_of_rereadMains? (hms : rereadMains? s S T ts = some ms) :
    ∃ qs, S.touched? s.listLimit ts = some qs ∧
      (∀ q ∈ qs, Changes s S T q → T.isDependedOn q = false) ∧
      ∀ m, m ∈ ms ↔ m ∈ S.mainsNear ts ∨ m ∈ T.mainsNear (seeds s S T ts qs) := by
  unfold rereadMains? changedAnswers? at hms
  cases htouched : S.touched? s.listLimit ts with
  | none =>
    rw [htouched] at hms
    cases hms
  | some qs =>
    rw [htouched] at hms
    dsimp only [Option.map_some] at hms
    split at hms
    case isTrue => cases hms
    case isFalse hfree =>
      cases hms
      refine ⟨qs, rfl, fun q hq hchanged => ?_, fun m => ?_⟩
      · rw [← Bool.not_eq_true]
        refine fun hdepended => hfree (List.any_eq_true.2 ⟨q, ?_, hdepended⟩)
        exact List.mem_filter.2 ⟨hq, bne_iff_ne.2 hchanged⟩
      · rw [List.mem_eraseDups, List.mem_append]
        rfl

/-- The triples that are not read again after an edit of a tidy set are far from it. -/
theorem exists_farFrom_of_rereadMains? (hsame : SameBut ts S T) (hS : S.Tidy s.listLimit)
    (hT : T.Tidy s.listLimit) (hbudget : s.budget = none)
    (hms : rereadMains? s S T ts = some ms) :
    ∃ qs, ∀ m ∈ T, m ∉ ms → FarFrom S T ts (seeds s S T ts qs) m := by
  obtain ⟨qs, htouched, hfree, hiff⟩ := exists_of_rereadMains? hms
  unfold Changes at hfree
  rw [hbudget] at hfree
  refine ⟨qs, fun m hm hnot => ?_⟩
  rw [hiff, not_or] at hnot
  have hreported : ∀ t ∈ ts, Reported S (S.insertMany ts) s.listLimit qs t :=
    fun t ht => reported_of_touched? htouched ht
  refine ⟨hsame, cellless_of_reported hreported, hm, fun t ht => mem_seeds.2 (Or.inl ht),
    fun c n hne t ht => ?_, hnot.1, hnot.2⟩
  -- a question that is not listed has the same answer, so one that has not is listed
  have hlisted : (⟨c, n⟩ : Question) ∈ qs := by
    by_contra hq
    exact hne (hsame.isA_eq_of_notMem hS.toLined hS.singleMembers hT.singleMembers htouched hfree
      hq)
  refine mem_seeds.2 (Or.inr ⟨_, hlisted, ?_, ht⟩)
  unfold Changes
  rw [hbudget]
  exact hne

/-- **Coverage.** An edit that turns a tidy set into a tidy set is covered: if the indices are kept,
every main triple that is read differently is read again. -/
theorem covered_of_tidy (hsame : SameBut ts S T) (hS : S.Tidy s.listLimit)
    (hT : T.Tidy s.listLimit) (hbudget : s.budget = none) : Covered s S T ts := by
  intro ms hms m hm r
  obtain ⟨qs, hfar⟩ := exists_farFrom_of_rereadMains? hsame hS hT hbudget hms
  by_cases hmem : m ∈ T
  · have h := hfar m hmem hm
    refine (h.agreesOn hS hbudget).mem_axiomsAt_iff (h.begins hS) (iff_of_true h.mem_before hmem)
      fun n hn => h.outgoing_of_reifies (hS.reifiesOnce n) (hT.reifiesOnce n) ?_
    rwa [Source.mem_reifiers_iff_reifiedBy, Source.mem_reifiers_iff_reifiedBy] at hn
  · -- a triple that is gone was not an edited one, so it was not there before
    have hedited : m ∉ ts := by
      obtain ⟨qs, -, -, hiff⟩ := exists_of_rereadMains? hms
      exact fun ht => hm ((hiff m).2 (Or.inl (mem_mainsNear ht)))
    have hnot : m ∉ S := fun hS => hmem ((hsame.mem_iff hedited).1 hS)
    refine iff_of_false (fun hr => hnot ?_) fun hr => hmem ?_
    · exact (Source.mem_axiomsAt_iff.1 hr).mem
    · exact (Source.mem_axiomsAt_iff.1 hr).mem

end Indices

end Ontograph
