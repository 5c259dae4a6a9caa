import Mathlib.Data.List.Chain
import Ontograph.Graph.Layered
import Ontograph.Proofs.Mapping.Starts

/-!
# Expressions inside themselves

In a graph a blank node can be inside of the expression that it stands for.  Reading then comes back
to a node that it has not finished, and gives up.  So the calls of the reader are nested no deeper
than there are blank nodes, and one more (`Source.readersUpTo_eq`), no node is entered twice on the
way to an expression (`Source.ReadsAlong.nodup`), and whether something is read at a spot
depends on the spots inside one by one, however often each of them is reached
(`Source.readable_iff`).
-/

namespace Ontograph

open Reading

/-! ## Blank nodes -/

namespace TripleSet

/-- The blank nodes that triples of the set mention, each once. -/
def blanks (S : TripleSet) : List Node :=
  ((S.toList.flatMap fun t => t.subject :: t.object.node?.toList).filter Node.isBlank).eraseDups

/-- The blank nodes of a set are those in a triple, as subject or as object. -/
@[simp] theorem mem_blanks {S : TripleSet} {n : Node} : n ∈ S.blanks ↔
    n.isBlank = true ∧ ∃ t ∈ S, t.subject = n ∨ t.object.node? = some n := by
  simp only [blanks, List.mem_eraseDups, List.mem_filter, List.mem_flatMap, List.mem_cons,
    Option.mem_toList, mem_def, eq_comm (a := n)]
  exact and_comm

end TripleSet

/-- The node of a spot that is listed as blank is blank. -/
theorem Spot.isBlank_of_mem_blank? {s : Spot} {n : Node} (h : n ∈ s.blank?) :
    n.isBlank = true := by
  obtain ((i | b) | l) | ((i | b) | l) := s
  all_goals cases h
  · rfl
  · rfl

namespace Source

variable {R : Source} {s s' : Spot} {e : Expr} {within : List Node} {n : Node}

/-- A blank node that is described is one of those of the set. -/
theorem mem_blanks_of_describes (hblank : n.isBlank = true)
    (hdescribed : R.triples.describes n = true) : n ∈ R.triples.blanks := by
  obtain ⟨t, ht, hts⟩ := TripleSet.describes_iff.1 hdescribed
  exact TripleSet.mem_blanks.2 ⟨hblank, t, ht, Or.inl hts⟩

/-! ## Nested calls -/

/-- The readers of a source that go only so deep, and leave what is deeper to other readers. -/
def readersUpTo (R : Source) (I : Readers) : Nat → List Node → Readers
  | 0, _ => I
  | k + 1, within =>
    { cls := fun
        | .node (.iri c) => pure (.named c)
        | .node (.blank b) =>
          if R.triples.describes b = true ∧ (.blank b : Node) ∉ within then
            R.classExprAt (R.readersUpTo I k (.blank b :: within)).cls
              (R.readersUpTo I k (.blank b :: within)).rng b
          else failure
        | .literal _ => failure
      rng := fun
        | .node (.iri d) => pure (.named d)
        | .node (.blank b) =>
          if R.triples.describes b = true ∧ (.blank b : Node) ∉ within then
            R.dataRangeAt (R.readersUpTo I k (.blank b :: within)).rng b
          else failure
        | .literal _ => failure }

/-- **Depth of calls.** Calls are nested no deeper than there are blank nodes that are not being
read, and one more: how anything deeper is read does not matter. -/
theorem readersUpTo_eq {I : Readers} {k : Nat} (hnodup : within.Nodup)
    (hsub : within ⊆ R.triples.blanks) (hk : R.triples.blanks.length < within.length + k) :
    R.readersUpTo I k within = R.readersIn within := by
  induction k generalizing within with
  | zero =>
    have := hnodup.length_le_of_subset hsub
    omega
  | succ k ih =>
    -- entering a blank node leaves one fewer to enter, and one call fewer
    have hinner : ∀ {b : Blank}, R.triples.describes b = true → (.blank b : Node) ∉ within →
        R.readersUpTo I k (.blank b :: within) = R.readersIn (.blank b :: within) := by
      intro b hdescribed hnew
      refine ih (List.nodup_cons.2 ⟨hnew, hnodup⟩) ?_ ?_
      · exact List.cons_subset.2 ⟨mem_blanks_of_describes rfl hdescribed, hsub⟩
      · rw [List.length_cons]
        omega
    refine congrArg₂ Readers.mk (funext fun x => ?_) (funext fun x => ?_)
    · obtain (i | b) | l := x
      · rw [classExprIn]
      · rw [classExprIn]
        by_cases h : R.triples.describes b = true ∧ (.blank b : Node) ∉ within
        · dsimp only
          rw [dif_pos h, if_pos h, hinner h.1 h.2]
          rfl
        · rw [dif_neg h]
          exact if_neg h
      · rw [classExprIn]
    · obtain (i | b) | l := x
      · rw [dataRangeIn]
      · rw [dataRangeIn]
        by_cases h : R.triples.describes b = true ∧ (.blank b : Node) ∉ within
        · dsimp only
          rw [dif_pos h, if_pos h, hinner h.1 h.2]
          rfl
        · rw [dif_neg h]
          exact if_neg h
      · rw [dataRangeIn]

/-! ## Where expressions can be read -/

/-- The reader goes on from one spot to another. -/
def LeadsTo (R : Source) (s s' : Spot) : Prop := s' ∈ R.inside s

/-- Reading what is said at a blank node takes reading at this node again. -/
def LeadsBack (R : Source) (s : Spot) : Prop :=
  ∃ n ∈ s.blank?, ∃ s', n ∈ s'.blank? ∧ Relation.TransGen R.LeadsTo s s'

/-- An expression can be read at the spot. -/
def Readable (R : Source) (s : Spot) : Prop := ∃ e, (R.readersIn []).Reads s e

/-- Entering a spot adds its node, if that is blank, to those entered before. -/
theorem mem_enter : n ∈ s.enter within ↔ n ∈ s.blank? ∨ n ∈ within := by
  simp [Spot.enter]

/-- Where an expression is read, expressions are read at all spots that this leads to, inside of
more and more blank nodes. -/
theorem exists_reads_of_leadsTo (h : (R.readersIn within).Reads s e)
    (hpath : Relation.ReflTransGen R.LeadsTo s s') :
    ∃ within' e', (∀ n ∈ within, n ∈ within') ∧ (R.readersIn within').Reads s' e' := by
  induction hpath using Relation.ReflTransGen.head_induction_on generalizing within e with
  | refl => exact ⟨within, e, fun _ hn => hn, h⟩
  | head hstep _ ih =>
    obtain ⟨e₁, -, h₁⟩ := exists_of_forall₂ (reads_inside h).2.2.flip hstep
    obtain ⟨within', e', hsub, h'⟩ := ih h₁
    exact ⟨within', e', fun n hn => hsub n (mem_enter.2 (Or.inr hn)), h'⟩

/-- Where an expression is read, nothing leads back. -/
theorem not_leadsBack_of_reads (h : (R.readersIn within).Reads s e) : ¬ R.LeadsBack s := by
  rintro ⟨n, hn, s', hn', hpath⟩
  obtain ⟨s₁, hstep, hpath⟩ := Relation.TransGen.head'_iff.1 hpath
  obtain ⟨e₁, -, h₁⟩ := exists_of_forall₂ (reads_inside h).2.2.flip hstep
  obtain ⟨within', e', hsub, h'⟩ := exists_reads_of_leadsTo h₁ hpath
  exact (reads_inside h').2.1 n hn' (hsub n (mem_enter.2 (Or.inl hn)))

/-- **Sharing.** Whether an expression is read depends on the spots it leads to one by one: each of
them is complete, none is at a blank node that is being read, and none leads back to its own. -/
theorem exists_reads_iff : (∃ e, (R.readersIn within).Reads s e) ↔
    ∀ s', Relation.ReflTransGen R.LeadsTo s s' →
      R.Complete s' ∧ (∀ n ∈ s'.blank?, n ∉ within) ∧ ¬ R.LeadsBack s' := by
  constructor
  · rintro ⟨e, h⟩ s' hpath
    obtain ⟨within', e', hsub, h'⟩ := exists_reads_of_leadsTo h hpath
    obtain ⟨hcomplete, hnew, -⟩ := reads_inside h'
    exact ⟨hcomplete, fun n hn hmem => hnew n hn (hsub n hmem), not_leadsBack_of_reads h'⟩
  · intro h
    -- Each node that is entered leaves fewer to enter.
    induction hk : R.triples.unvisited within using Nat.strong_induction_on
      generalizing within s with
    | h k ih =>
      obtain ⟨hcomplete, hnew, hback⟩ := h s .refl
      refine exists_reads hcomplete hnew fun s₁ hstep => ?_
      obtain ⟨n, hn, hdescribed⟩ := describes_of_mem_inside hstep
      obtain ⟨t, ht, hts⟩ := TripleSet.describes_iff.1 hdescribed
      have hless := TripleSet.unvisited_cons_lt (hnew n hn) ht hts
      have henter : s.enter within = n :: within := by
        rw [Spot.enter, Option.mem_def.1 hn]
        rfl
      rw [henter]
      refine ih _ (hk ▸ hless) (fun s' hpath => ?_) rfl
      obtain ⟨hcomplete', hnew', hback'⟩ := h s' (.head hstep hpath)
      refine ⟨hcomplete', fun m hm hmem => ?_, hback'⟩
      rcases List.mem_cons.1 hmem with rfl | hmem
      · exact hback ⟨m, hn, s', hm, .head' hstep hpath⟩
      · exact hnew' m hm hmem

/-- An expression can be read at a spot exactly if it is complete, those inside of it can be read,
and it is not inside of itself. -/
theorem readable_iff : R.Readable s ↔
    R.Complete s ∧ (∀ s' ∈ R.inside s, R.Readable s') ∧ ¬ R.LeadsBack s := by
  unfold Readable
  simp only [exists_reads_iff, List.not_mem_nil, not_false_eq_true, implies_true, true_and]
  constructor
  · intro h
    obtain ⟨hcomplete, hback⟩ := h s .refl
    exact ⟨hcomplete, fun s₁ hstep s' hpath => h s' (.head hstep hpath), hback⟩
  · rintro ⟨hcomplete, hinside, hback⟩ s' hpath
    rcases Relation.ReflTransGen.cases_head hpath with rfl | ⟨s₁, hstep, hpath⟩
    · exact ⟨hcomplete, hback⟩
    · exact hinside s₁ hstep s' hpath

/-! ## Chains of spots -/

variable {ss : List Spot} {es : List Expr}

/-- Expressions are read at spots, each inside of the blank nodes that were entered before it. -/
inductive ReadsAlong (R : Source) : List Node → List Spot → List Expr → Prop
  | nil {within : List Node} : R.ReadsAlong within [] []
  | cons {within : List Node} {s : Spot} {e : Expr} {ss : List Spot} {es : List Expr}
      (h : (R.readersIn within).Reads s e) (hrest : R.ReadsAlong (s.enter within) ss es) :
      R.ReadsAlong within (s :: ss) (e :: es)

/-- Along a route each spot is read as one expression. -/
theorem ReadsAlong.length_eq (h : R.ReadsAlong within ss es) : ss.length = es.length := by
  induction h with
  | nil => rfl
  | cons _ _ ih => exact congrArg Nat.succ ih

/-- No blank node is entered twice. -/
theorem ReadsAlong.nodup (h : R.ReadsAlong within ss es) :
    (ss.filterMap Spot.blank?).Nodup ∧ ∀ n ∈ ss.filterMap Spot.blank?, n ∉ within := by
  induction h with
  | nil => exact ⟨List.nodup_nil, fun n hn => nomatch hn⟩
  | @cons within s e ss es h _ ih =>
    obtain ⟨-, hnew, -⟩ := reads_inside h
    obtain ⟨hnodup, hlater⟩ := ih
    simp only [mem_enter, not_or] at hlater
    cases hn : s.blank? with
    | none =>
      rw [List.filterMap_cons_none hn]
      exact ⟨hnodup, fun m hm => (hlater m hm).2⟩
    | some n =>
      rw [List.filterMap_cons_some hn]
      refine ⟨List.nodup_cons.2 ⟨fun hmem => (hlater n hmem).1 hn, hnodup⟩, fun m hm => ?_⟩
      rcases List.mem_cons.1 hm with rfl | hm
      · exact hnew m hn
      · exact (hlater m hm).2

/-- Along a chain of spots expressions are read, each directly inside of the one before it. -/
theorem exists_path_of_chain (h : (R.readersIn within).Reads s e)
    (hss : (s :: ss).IsChain R.LeadsTo) :
    ∃ es, (e :: es).IsChain (fun x y => y ∈ x.inner) ∧
      R.ReadsAlong within (s :: ss) (e :: es) := by
  induction ss generalizing s e within with
  | nil => exact ⟨[], .singleton e, .cons h .nil⟩
  | cons s₁ ss ih =>
    obtain ⟨hstep, hrest⟩ := List.isChain_cons_cons.1 hss
    obtain ⟨e₁, he₁, h₁⟩ := exists_of_forall₂ (reads_inside h).2.2.flip hstep
    obtain ⟨es, hes, hall⟩ := ih h₁ hrest
    exact ⟨e₁ :: es, .cons_cons he₁ hes, .cons h hall⟩

/-- Expressions that are each directly inside of the one before are read along a chain of spots. -/
theorem exists_chain_of_path (h : (R.readersIn within).Reads s e)
    (hes : (e :: es).IsChain fun x y => y ∈ x.inner) :
    ∃ ss, (s :: ss).IsChain R.LeadsTo ∧ R.ReadsAlong within (s :: ss) (e :: es) := by
  induction es generalizing s e within with
  | nil => exact ⟨[], .singleton s, .cons h .nil⟩
  | cons e₁ es ih =>
    obtain ⟨hstep, hrest⟩ := List.isChain_cons_cons.1 hes
    obtain ⟨s₁, hs₁, h₁⟩ := exists_of_forall₂ (reads_inside h).2.2 hstep
    obtain ⟨ss, hss, hall⟩ := ih h₁ hrest
    exact ⟨s₁ :: ss, .cons_cons hs₁ hss, .cons h hall⟩

/-- The reader goes on from all spots of a chain but the last one. -/
theorem exists_mem_inside_of_mem_dropLast (hss : ss.IsChain R.LeadsTo) (hs : s ∈ ss.dropLast) :
    ∃ s', s' ∈ R.inside s := by
  induction ss with
  | nil => cases hs
  | cons s₁ ss ih =>
    cases ss with
    | nil => cases hs
    | cons s₂ ss =>
      obtain ⟨hstep, hrest⟩ := List.isChain_cons_cons.1 hss
      rcases List.mem_cons.1 hs with rfl | hs
      · exact ⟨s₂, hstep⟩
      · exact ih hrest hs

/-- **Depth.** A chain has no more spots than there are blank nodes, and one more. -/
theorem length_le_of_chain (hss : ss.IsChain R.LeadsTo)
    (hnodup : (ss.filterMap Spot.blank?).Nodup) : ss.length ≤ R.triples.blanks.length + 1 := by
  have hgone : ∀ s ∈ ss.dropLast, ∃ n ∈ s.blank?, R.triples.describes n = true := fun s hs => by
    obtain ⟨s', hstep⟩ := exists_mem_inside_of_mem_dropLast hss hs
    exact describes_of_mem_inside hstep
  have hlength : (ss.dropLast.filterMap Spot.blank?).length = ss.dropLast.length := by
    refine List.filterMap_length_eq_length.2 fun s hs => ?_
    obtain ⟨n, hn, -⟩ := hgone s hs
    exact Option.isSome_of_mem hn
  have hsub : ss.dropLast.filterMap Spot.blank? ⊆ R.triples.blanks := by
    intro n hn
    obtain ⟨s, hs, hsn⟩ := List.mem_filterMap.1 hn
    obtain ⟨n', hn', hdescribed⟩ := hgone s hs
    obtain rfl : n' = n := Option.mem_unique hn' hsn
    exact mem_blanks_of_describes (Spot.isBlank_of_mem_blank? hn') hdescribed
  have hentered : (ss.dropLast.filterMap Spot.blank?).Nodup :=
    hnodup.sublist ((List.dropLast_sublist ss).filterMap _)
  have hbound := hentered.length_le_of_subset hsub
  rw [hlength, List.length_dropLast] at hbound
  omega

/-! ## Axioms -/

end Source

/-- Expressions, the first one the axiom's own, each other one directly inside of the one before. -/
structure Axiom.IsPath (ax : Axiom) (es : List Expr) : Prop where
  chain : es.IsChain fun outer inner => inner ∈ outer.inner
  head : ∀ e ∈ es.head?, e ∈ ax.exprs

namespace Source

variable {R : Source} {main : Triple} {a : AnnotatedAxiom × Footprint} {s : Spot} {ss : List Spot}
  {es : List Expr}

/-- Spots, the first one where the axiom of a triple starts, and each other one that the reader goes
on to from the one before. -/
structure IsRoute (R : Source) (main : Triple) (ss : List Spot) : Prop where
  chain : ss.IsChain R.LeadsTo
  head : ∀ s ∈ ss.head?, ∃ start, R.starts main = some start ∧ s ∈ start

/-- The reading of the axiom of a triple enters the spot, unless it gives up before. -/
def Enters (R : Source) (main : Triple) (s : Spot) : Prop :=
  ∃ start, R.starts main = some start ∧ ∃ s₀ ∈ start, Relation.ReflTransGen R.LeadsTo s₀ s

/-- The expressions of an axiom are read at the spots where its main triple starts. -/
theorem reads_of_mem_axiomsAt (ha : a ∈ R.axiomsAt main) :
    ∃ start, R.starts main = some start ∧
      List.Forall₂ (R.readersIn []).Reads start a.1.base.exprs := by
  have hread := mem_axiomsAt_iff.1 ha
  obtain ⟨b, ts, hrun⟩ := hread.exists_run
  exact (startsFrom_statement hread.mem).reads _ ⟨[], ts, hrun⟩

/-- A main triple that is read gives at least one axiom. -/
theorem axiomsAt_ne_nil_of_run {r : Axiom × Bool} {ts : List Triple} (hmain : main ∈ R.triples)
    (hrun : (R.statement main).run [] = some (r, ts)) : R.axiomsAt main ≠ [] := by
  obtain ⟨ax, _ | _⟩ := r
  · cases hns : R.reifiers main with
    | nil => exact List.ne_nil_of_mem (mem_axiomsAt_iff.2 (.bare hmain hrun hns))
    | cons n ns =>
      refine List.ne_nil_of_mem (mem_axiomsAt_iff.2 (.reified hmain hrun (n := n) ?_))
      exact hns ▸ List.mem_cons_self
  · exact List.ne_nil_of_mem (mem_axiomsAt_iff.2 (.rooted hmain hrun))

/-- An axiom is read from a triple of the source exactly if this has spots to start from and
something can be read at each. -/
theorem axiomsAt_ne_nil_iff (hmain : main ∈ R.triples) : R.axiomsAt main ≠ [] ↔
    ∃ start, R.starts main = some start ∧ ∀ s ∈ start, R.Readable s := by
  constructor
  · intro h
    obtain ⟨a, ha⟩ := List.exists_mem_of_ne_nil _ h
    obtain ⟨start, hstart, hall⟩ := reads_of_mem_axiomsAt ha
    refine ⟨start, hstart, fun s hs => ?_⟩
    obtain ⟨e, -, he⟩ := exists_of_forall₂ hall.flip hs
    exact ⟨e, he⟩
  · rintro ⟨start, hstart, hread⟩
    obtain ⟨r, hr⟩ := (startsFrom_statement hmain).replies start hstart hread
    obtain ⟨ts, hrun⟩ := hr []
    exact axiomsAt_ne_nil_of_run hmain hrun

/-- Along a route of an axiom that is read, expressions are read that make a path of the axiom. -/
theorem IsRoute.exists_path (h : R.IsRoute main ss) (ha : a ∈ R.axiomsAt main) :
    ∃ es, a.1.base.IsPath es ∧ R.ReadsAlong [] ss es := by
  obtain ⟨start, hstart, hall⟩ := reads_of_mem_axiomsAt ha
  cases ss with
  | nil => exact ⟨[], ⟨.nil, fun e he => nomatch he⟩, .nil⟩
  | cons s ss =>
    obtain ⟨start', hstart', hs⟩ := h.head s rfl
    cases hstart.symm.trans hstart'
    obtain ⟨e, he, hread⟩ := exists_of_forall₂ hall.flip hs
    obtain ⟨es, hes, hpath⟩ := exists_path_of_chain hread h.chain
    refine ⟨e :: es, ⟨hes, ?_⟩, hpath⟩
    rintro _ ⟨⟩
    exact he

/-- Each path of an axiom that is read is read along a route. -/
theorem exists_route_of_path (ha : a ∈ R.axiomsAt main) (h : a.1.base.IsPath es) :
    ∃ ss, R.IsRoute main ss ∧ R.ReadsAlong [] ss es := by
  obtain ⟨start, hstart, hall⟩ := reads_of_mem_axiomsAt ha
  cases es with
  | nil => exact ⟨[], ⟨.nil, fun s hs => nomatch hs⟩, .nil⟩
  | cons e es =>
    obtain ⟨s, hs, hread⟩ := exists_of_forall₂ hall (h.head e rfl)
    obtain ⟨ss, hss, hpath⟩ := exists_chain_of_path hread h.chain
    refine ⟨s :: ss, ⟨hss, ?_⟩, hpath⟩
    rintro _ ⟨⟩
    exact ⟨start, hstart, hs⟩

/-- Nothing is read from a triple whose reading comes back to a blank node that it is inside of. -/
theorem axiomsAt_eq_nil_of_leadsBack (hs : R.Enters main s) (hback : R.LeadsBack s) :
    R.axiomsAt main = [] := by
  by_contra h
  obtain ⟨a, ha⟩ := List.exists_mem_of_ne_nil _ h
  obtain ⟨start, hstart, hall⟩ := reads_of_mem_axiomsAt ha
  obtain ⟨start', hstart', s₀, hs₀, hpath⟩ := hs
  cases hstart.symm.trans hstart'
  obtain ⟨e, -, hread⟩ := exists_of_forall₂ hall.flip hs₀
  obtain ⟨_, _, -, hread'⟩ := exists_reads_of_leadsTo hread hpath
  exact not_leadsBack_of_reads hread' hback

/-- **Nesting.** Calls of the reader are nested no deeper than there are blank nodes in the graph,
and one more.  Each path of expressions of an axiom that is read is read along a route, and along
each route such a path is read; the blank nodes of a route are pairwise distinct, so neither is
longer than that.  Nothing is read from a triple whose reading enters a blank node that leads back
to itself. Sharing alone does no harm: an axiom is read if something can be read at each of the
spots where it starts, and this is so at a spot if what is said there is complete, something can be
read at each of the spots inside, and it does not lead back to itself. -/
theorem nesting_bounded (g : Graph) (settings : Settings) (main : Triple) :
    let R : Source := ⟨g.union, settings⟩
    (∀ I, R.readersUpTo I (g.union.blanks.length + 1) [] = R.readersIn []) ∧
    (∀ a ∈ R.axiomsAt main,
      (∀ es, a.1.base.IsPath es → es.length ≤ g.union.blanks.length + 1 ∧
        ∃ ss, R.IsRoute main ss ∧ R.ReadsAlong [] ss es) ∧
      ∀ ss, R.IsRoute main ss → ss.length ≤ g.union.blanks.length + 1 ∧
        (ss.filterMap Spot.blank?).Nodup ∧ ∃ es, a.1.base.IsPath es ∧ R.ReadsAlong [] ss es) ∧
    (∀ s, R.Enters main s → R.LeadsBack s → R.axiomsAt main = []) ∧
    (main ∈ g → (R.axiomsAt main ≠ [] ↔
      ∃ start, R.starts main = some start ∧ ∀ s ∈ start, R.Readable s)) ∧
    ∀ s, R.Readable s ↔
      R.Complete s ∧ (∀ s' ∈ R.inside s, R.Readable s') ∧ ¬ R.LeadsBack s := by
  intro R
  refine ⟨fun I => ?_, fun a ha => ?_, fun s => axiomsAt_eq_nil_of_leadsBack,
    fun hmain => axiomsAt_ne_nil_iff (Graph.mem_union.2 hmain), fun s => readable_iff⟩
  · refine readersUpTo_eq List.nodup_nil (List.nil_subset _) ?_
    rw [List.length_nil, Nat.zero_add]
    exact Nat.lt_succ_self _
  · have hlength : ∀ {ss es}, R.IsRoute main ss → R.ReadsAlong [] ss es →
        ss.length ≤ g.union.blanks.length + 1 :=
      fun hss hread => length_le_of_chain hss.chain hread.nodup.1
    refine ⟨fun es hes => ?_, fun ss hss => ?_⟩
    · obtain ⟨ss, hss, hread⟩ := exists_route_of_path ha hes
      exact ⟨hread.length_eq ▸ hlength hss hread, ss, hss, hread⟩
    · obtain ⟨es, hes, hread⟩ := hss.exists_path ha
      exact ⟨hlength hss hread, hread.nodup.1, es, hes, hread⟩

/-- Two complements of one blank node, each under its own operand, are both read. -/
theorem nesting_bounded_shared :
    let b (x : String) : Node := .blank ⟨x⟩
    let main : Triple := ⟨b "u", .rdfs .subClassOf, .node (b "v")⟩
    let complement (x : String) (o : Node) : Triple := ⟨b x, .owl .complementOf, .node o⟩
    let g : Graph := { base := .ofList [main, complement "u" (b "w"), complement "v" (b "w"),
      complement "w" (.iri (.owl .Thing))] }
    let R : Source := ⟨g.union, {}⟩
    (∃ start, R.starts main = some start ∧ ∀ s ∈ start, R.Readable s) ∧
      ∃ a ∈ R.axiomsAt main, ∀ es, a.1.base.IsPath es → es.length ≤ 4 := by
  intro b main complement g R
  have hmain : main ∈ g := Graph.mem_union.1 (by decide +kernel)
  have hsome : R.axiomsAt main ≠ [] := by decide +kernel
  have hblanks : g.union.blanks.length = 3 := by decide +kernel
  obtain ⟨-, hdepth, -, hshared, -⟩ := nesting_bounded g {} main
  obtain ⟨a, ha⟩ := List.exists_mem_of_ne_nil _ hsome
  refine ⟨(hshared hmain).1 hsome, a, ha, fun es hes => ?_⟩
  have hlength := ((hdepth a ha).1 es hes).1
  rwa [hblanks] at hlength

end Source

end Ontograph
