import Mathlib.Data.List.Nodup
import Mathlib.Data.List.Perm.Subperm
import Mathlib.Tactic.Set
import Ontograph.Graph.Layered
import Ontograph.Proofs.Classify.Derivation
import Ontograph.Proofs.Graph.Cells

/-!
# A search finds what is derivable

A search without budget answers a question with yes exactly if the rules derive it
(`TripleSet.isA_iff_exists_consulted`), although it takes a question under way to be answered with
no and remembers answers that it found under that assumption.

The argument has two halves.  A yes is passed up at once, through every question under way, so each
of them is derivable.  As long as there was no yes, all answers remembered are no, and what they
consult is remembered too or still under way (`Search.Barren`); once nothing is under way, the
questions remembered are closed under consulting and none of them is evident.  That the depth of
the search suffices is counted: the questions under way are different questions about nodes of the
graph.
-/

namespace Ontograph

/-! ## Nodes that questions are about -/

namespace TripleSet

variable {S : TripleSet} {q r : Question} {n : Node} {x : Term}

/-- The nodes in the positions of the triples. -/
def positions (S : TripleSet) : List Node :=
  S.toList.flatMap fun t => t.subject :: .iri t.predicate :: t.object.node?.toList

/-- The nodes of a set are in one of the three positions of a triple. -/
theorem mem_positions_iff : n ∈ S.positions ↔
    ∃ t ∈ S, n = t.subject ∨ n = .iri t.predicate ∨ t.object = n := by
  simp only [positions, List.mem_flatMap, List.mem_cons, Option.mem_toList]
  refine exists_congr fun t => and_congr_right fun _ => or_congr_right (or_congr_right ?_)
  cases t.object <;> simp [Term.node?, eq_comm]

/-- The subject of a triple is one of the nodes of the set. -/
theorem subject_mem_positions {t : Triple} (h : t ∈ S) : t.subject ∈ S.positions :=
  mem_positions_iff.2 ⟨t, h, .inl rfl⟩

/-- The predicate of a triple is one of the nodes of the set. -/
theorem predicate_mem_positions {t : Triple} (h : t ∈ S) : .iri t.predicate ∈ S.positions :=
  mem_positions_iff.2 ⟨t, h, .inr (.inl rfl)⟩

/-- The object of a triple, if it is a node, is one of the nodes of the set. -/
theorem object_mem_positions {s : Node} {p : Iri} (h : ⟨s, p, n⟩ ∈ S) : n ∈ S.positions :=
  mem_positions_iff.2 ⟨_, h, .inr (.inr rfl)⟩

/-- There are at most three positions for each triple. -/
theorem length_positions_le : S.positions.length ≤ 3 * S.size := by
  unfold positions size
  induction S.toList with
  | nil => simp
  | cons t ts ih =>
    have ht : t.object.node?.toList.length ≤ 1 := by cases t.object <;> simp [Term.node?]
    simp only [List.flatMap_cons, List.length_append, List.length_cons]
    omega

/-- What is read as an item of a list is the first of some cell. -/
theorem exists_first_of_mem_readCells {limit : Option Nat} {visited : List Node} {c : Term}
    {xs : List Term} (h : S.readCells limit visited c = .ok xs) (hx : x ∈ xs) :
    ∃ cell, ⟨cell, .rdf .first, x⟩ ∈ S := by
  induction xs generalizing visited c with
  | nil => cases hx
  | cons y ys ih =>
    rcases readCells_eq_ok_iff.1 h with ⟨-, hnil⟩ |
      ⟨n, first, rest, _, -, -, -, -, hf, -, hys, ⟨⟩⟩
    · cases hnil
    · rcases List.mem_cons.1 hx with rfl | hx
      · exact ⟨n, mem_of_object? hf⟩
      · exact ih hys hx

/-- Every item of a list is the first of some cell. -/
theorem exists_first_of_mem_items {head : Term} (h : x ∈ S.items head) :
    ∃ cell, ⟨cell, .rdf .first, x⟩ ∈ S := by
  unfold items at h
  split at h
  case h_1 hxs => exact exists_first_of_mem_readCells hxs h
  case h_2 => cases h

/-- A question consults questions about nodes of the graph only. -/
theorem Consults.mem_positions (h : S.Consults q r) : r.node ∈ S.positions := by
  cases h with
  | operandClass _ _ hm | operandRange _ _ hm | sibling _ _ _ _ _ hm _ =>
    obtain ⟨_, hcell⟩ := exists_first_of_mem_items hm
    exact object_mem_positions hcell
  | equivalent _ hm | kin _ _ hm | subProperty hm =>
    rcases hm with hm | hm
    · exact object_mem_positions hm
    · exact subject_mem_positions hm
  | domainOf _ hp | rangeOf _ hp => exact subject_mem_positions hp
  | fillsClass _ hp | fillsRange _ hp => exact object_mem_positions hp
  | range _ hm => exact object_mem_positions hm
  | filler _ _ hm =>
    obtain ⟨_, hm⟩ := hm
    exact object_mem_positions hm
  | assertsNode hm _ | assertsLiteral hm _ | valueOf hm _ => exact predicate_mem_positions hm

/-! ## How deep a search goes -/

/-- Every question about a given node or a node of the graph. -/
def questionsFrom (S : TripleSet) (root : Node) : List Question :=
  Category.all.flatMap fun c => (root :: S.positions).map (⟨c, ·⟩)

/-- The questions from a root are those about it and about the nodes of the set. -/
theorem mem_questionsFrom_iff {root : Node} :
    q ∈ S.questionsFrom root ↔ q.node = root ∨ q.node ∈ S.positions := by
  obtain ⟨c, n⟩ := q
  simp only [questionsFrom, List.mem_flatMap, List.mem_map, List.mem_cons, Question.mk.injEq]
  constructor
  · rintro ⟨_, _, _, hm, rfl, rfl⟩
    exact hm
  · intro hn
    exact ⟨c, c.mem_all, n, hn, rfl, rfl⟩

/-- The depth of a search exceeds the number of questions. -/
theorem length_questionsFrom_lt (S : TripleSet) (root : Node) :
    (S.questionsFrom root).length < S.questionBound := by
  have hlen : (S.questionsFrom root).length = Category.all.length * (S.positions.length + 1) := by
    simp [questionsFrom, Category.all]
    omega
  have hpos : S.positions.length ≤ 3 * S.size := length_positions_le
  have hmul : Category.all.length * (S.positions.length + 1) ≤
      Category.all.length * (3 * S.size + 1) := Nat.mul_le_mul_left _ (by omega)
  rw [hlen, questionBound]
  omega

end TripleSet

/-! ## What a search without a yes has found -/

namespace Search

open TripleSet

variable {S : TripleSet} {σ τ : Search} {q r : Question} {root : Node}

/-- The questions under way are different questions from a root. -/
structure Stacked (S : TripleSet) (root : Node) (σ : Search) : Prop where
  nodup : σ.underway.Nodup
  subset : σ.underway ⊆ S.questionsFrom root

/-- There are no more questions under way than questions. -/
theorem Stacked.length_le (h : σ.Stacked S root) :
    σ.underway.length ≤ (S.questionsFrom root).length :=
  (List.subperm_of_subset h.nodup h.subset).length_le

/-- The questions that an answer is remembered for. -/
def answered (σ : Search) : List Question := σ.decided.map Prod.fst

/-- A search accounts for a question that it has answered or is about to answer. -/
def Accounts (σ : Search) (q : Question) : Prop := q ∈ σ.answered ∨ q ∈ σ.underway

/-- A question that there is no evidence for, except by questions that the search accounts for. -/
def Barren (S : TripleSet) (σ : Search) (q : Question) : Prop :=
  S.settled? q ≠ some true ∧
    (S.RuledOut q ∨ ∀ l ∈ S.leads q, ∃ r, l = .ask r ∧ σ.Accounts r)

/-- A search without budget that has not answered anything with yes. -/
structure Quiet (S : TripleSet) (σ : Search) : Prop where
  budget : σ.budget = none
  exhausted : σ.exhausted = false
  denied : ∀ e ∈ σ.decided, e.2 = false
  barren : ∀ q ∈ σ.answered, σ.Barren S q

/-- A search went on to another one with the same questions under way. -/
structure Extends (σ τ : Search) : Prop where
  underway : τ.underway = σ.underway
  answered : σ.answered ⊆ τ.answered

/-- A search that does nothing goes on as itself. -/
theorem Extends.refl : σ.Extends σ := ⟨rfl, fun _ h => h⟩

/-- A search that goes on twice goes on once. -/
theorem Extends.trans {υ : Search} (h : σ.Extends τ) (h' : τ.Extends υ) : σ.Extends υ :=
  ⟨h'.underway.trans h.underway, fun _ hq => h'.answered (h.answered hq)⟩

/-- What a search accounts for it still accounts for later. -/
theorem Extends.accounts (h : σ.Extends τ) (hq : σ.Accounts q) : τ.Accounts q := by
  rcases hq with hq | hq
  · exact Or.inl (h.answered hq)
  · exact Or.inr (h.underway ▸ hq)

/-- Accounting for more questions leaves a barren question barren. -/
theorem Barren.mono (h : σ.Barren S q) (hle : ∀ r, σ.Accounts r → τ.Accounts r) :
    τ.Barren S q := by
  obtain ⟨hs, hq⟩ := h
  refine ⟨hs, hq.imp_right fun hl l hmem => ?_⟩
  obtain ⟨r, rfl, hr⟩ := hl l hmem
  exact ⟨r, rfl, hle r hr⟩

/-- An answer is remembered if it is found by look-up. -/
theorem mem_of_known? {b : Bool} (h : σ.known? q = some b) : (q, b) ∈ σ.decided := by
  obtain ⟨_, _, hsplit, _⟩ := List.lookup_eq_some_iff.1 h
  rw [hsplit]
  exact List.mem_append_right _ List.mem_cons_self

/-! ## Steps of a search -/

/-- Taking up a question leaves those that are accounted for. -/
theorem accounts_enter (h : σ.Accounts r) : (σ.enter q).Accounts r :=
  h.imp_right (List.mem_cons_of_mem q)

/-- Taking up a question answers none with yes. -/
theorem Quiet.enter (h : σ.Quiet S) : (σ.enter q).Quiet S where
  budget := h.budget
  exhausted := h.exhausted
  denied := h.denied
  barren r hr := (h.barren r hr).mono fun _ => accounts_enter

/-- A question from the root that is not under way may be taken up. -/
theorem Stacked.enter (h : σ.Stacked S root) (hq : q ∈ S.questionsFrom root)
    (hnew : q ∉ σ.underway) : (σ.enter q).Stacked S root where
  nodup := List.nodup_cons.2 ⟨hnew, h.nodup⟩
  subset := List.cons_subset.2 ⟨hq, h.subset⟩

/-- Leaving a question keeps account of it: it is no more under way, but answered. -/
theorem accounts_leave (hex : τ.exhausted = false) {b : Bool} (h : τ.Accounts r) :
    (τ.leave q b).Accounts r := by
  by_cases hr : r = q
  · left
    simp [answered, leave, hex, hr]
  · rcases h with h | h
    · left
      simpa [answered, leave, hex] using Or.inr h
    · right
      exact (List.mem_erase_of_ne hr).2 h

/-- A question that turned out barren may be answered with no. -/
theorem Quiet.leave (h : τ.Quiet S) (hq : τ.Barren S q) : (τ.leave q false).Quiet S where
  budget := h.budget
  exhausted := h.exhausted
  denied := by
    intro e he
    simp only [Search.leave, h.exhausted, Bool.false_eq_true, if_false, List.mem_cons] at he
    rcases he with rfl | he
    · rfl
    · exact h.denied e he
  barren := by
    intro r hr
    simp only [answered, Search.leave, h.exhausted, Bool.false_eq_true, if_false, List.map_cons,
      List.mem_cons] at hr
    have hmono : ∀ r, τ.Accounts r → (τ.leave q false).Accounts r :=
      fun _ => accounts_leave h.exhausted
    rcases hr with rfl | hr
    · exact hq.mono hmono
    · exact (h.barren r hr).mono hmono

/-- Entering a question, searching on and leaving it again adds the question to those answered. -/
theorem Extends.leave (h : (σ.enter q).Extends τ) (hex : τ.exhausted = false) {b : Bool} :
    σ.Extends (τ.leave q b) where
  underway := by simp [Search.leave, h.underway, enter]
  answered := by
    intro r hr
    simpa [Search.answered, Search.leave, hex] using Or.inr (h.answered hr)

/-- A search without budget always has a step left. -/
theorem Quiet.spend? (h : σ.Quiet S) : σ.spend? = some { σ with steps := σ.steps + 1 } := by
  simp [Search.spend?, h.budget, h.exhausted]

/-- Counting a step answers no question with yes. -/
theorem Quiet.step (h : σ.Quiet S) : Quiet S { σ with steps := σ.steps + 1 } :=
  ⟨h.budget, h.exhausted, h.denied, h.barren⟩

/-! ## What a search answers -/

/-- The outcome of a question is right so far: a yes is derivable; a no leaves a search without a
yes that accounts for the question. -/
def Outcome (S : TripleSet) (σ : Search) (q : Question) : Bool × Search → Prop
  | (true, _) => S.Derivable q
  | (false, τ) => τ.Quiet S ∧ σ.Extends τ ∧ τ.Accounts q

/-- Following leads with right outcomes finds a lead that holds, or accounts for all of them. -/
theorem follow_outcome {answer : Question → Search → Bool × Search} {ls : List Lead}
    (h : ∀ r τ, .ask r ∈ ls → τ.Quiet S → σ.Extends τ → τ.Outcome S r (answer r τ))
    (hσ : σ.Quiet S) :
    match follow answer ls σ with
    | (true, _) => .certain ∈ ls ∨ ∃ r, .ask r ∈ ls ∧ S.Derivable r
    | (false, τ) => τ.Quiet S ∧ σ.Extends τ ∧ ∀ l ∈ ls, ∃ r, l = .ask r ∧ τ.Accounts r := by
  induction ls generalizing σ with
  | nil => exact ⟨hσ, .refl, fun l hl => absurd hl List.not_mem_nil⟩
  | cons l ls ih =>
    cases l with
    | certain => exact Or.inl List.mem_cons_self
    | ask r =>
      have hr := h r σ List.mem_cons_self hσ .refl
      rw [follow]
      cases hans : answer r σ with
      | mk b τ =>
        rw [hans] at hr
        cases b with
        | true => exact Or.inr ⟨r, List.mem_cons_self, hr⟩
        | false =>
          obtain ⟨hτ, hext, hacc⟩ := hr
          -- a no extends the search, so the other leads are followed from there
          have hrest := ih (σ := τ) (fun r' υ hmem hυ hext' =>
            h r' υ (List.mem_cons_of_mem _ hmem) hυ (hext.trans hext')) hτ
          dsimp only
          cases hfol : follow answer ls τ with
          | mk b υ =>
            rw [hfol] at hrest
            cases b with
            | true =>
              refine hrest.imp (List.mem_cons_of_mem _) ?_
              rintro ⟨r', hmem, hder⟩
              exact ⟨r', List.mem_cons_of_mem _ hmem, hder⟩
            | false =>
              obtain ⟨hυ, hext', hall⟩ := hrest
              refine ⟨hυ, hext.trans hext', fun l hl => ?_⟩
              rcases List.mem_cons.1 hl with rfl | hl
              · exact ⟨r, rfl, hext'.accounts hacc⟩
              · exact hall l hl

end Search

namespace TripleSet

open Search

variable {S : TripleSet} {σ : Search} {q : Question} {root : Node}

/-- A question is evident if it is settled with yes, or is open and has a lead that is certain. -/
theorem evident_iff : S.Evident q ↔
    S.settled? q = some true ∨ ¬ S.RuledOut q ∧ .certain ∈ S.leads q := by
  rw [settled?_eq_true_iff, certain_mem_leads_iff, or_assoc, ← and_or_left, Evident]

/-- What a node settles by itself with yes is evident. -/
theorem evident_of_settled? (h : S.settled? q = some true) : S.Evident q :=
  evident_iff.2 (Or.inl h)

/-- An open question is derivable if one of its leads holds. -/
theorem derivable_of_lead (hopen : ¬ S.RuledOut q)
    (h : .certain ∈ S.leads q ∨ ∃ r, .ask r ∈ S.leads q ∧ S.Derivable r) : S.Derivable q := by
  rcases h with h | ⟨r, hmem, hr⟩
  · exact Evident.derivable (evident_iff.2 (Or.inr ⟨hopen, h⟩))
  · exact Pursues.derivable ⟨hopen, ask_mem_leads_iff.1 hmem⟩ hr

/-- Every outcome of a search is right so far, if its depth exceeds the questions not yet under
way. -/
theorem answerWithin_outcome : ∀ (depth : Nat) (q : Question) (σ : Search),
    σ.Stacked S root → q ∈ S.questionsFrom root →
    (S.questionsFrom root).length < depth + σ.underway.length → σ.Quiet S →
    σ.Outcome S q (S.answerWithin depth q σ)
  | 0, q, σ, hst, _, hdepth, _ => by
    have := hst.length_le
    omega
  | depth + 1, q, σ, hst, hq, hdepth, hσ => by
    rw [answerWithin]
    cases hk : σ.known? q with
    | some b =>
      have hmem := mem_of_known? hk
      have hb : b = false := hσ.denied _ hmem
      subst hb
      exact ⟨hσ, .refl, Or.inl (List.mem_map_of_mem hmem)⟩
    | none =>
      dsimp only
      by_cases hunder : q ∈ σ.underway
      · rw [if_pos hunder]
        exact ⟨hσ, .refl, Or.inr hunder⟩
      · rw [if_neg hunder]
        rw [hσ.spend?]
        dsimp only
        set υ : Search := { σ with steps := σ.steps + 1 } with hυ
        have hstep : σ.Extends υ := ⟨rfl, fun _ h => h⟩
        have hquiet : (υ.enter q).Quiet S := hσ.step.enter
        have hstack : (υ.enter q).Stacked S root := Stacked.enter ⟨hst.nodup, hst.subset⟩ hq hunder
        cases hs : S.settled? q with
        | some b =>
          cases b with
          | true => exact Evident.derivable (evident_of_settled? hs)
          | false =>
            have hbarren : (υ.enter q).Barren S q :=
              ⟨by simp [hs], Or.inl (settled?_eq_false_iff.1 hs)⟩
            exact ⟨hquiet.leave hbarren, hstep.trans (Extends.leave .refl hquiet.exhausted),
              accounts_leave hquiet.exhausted (Or.inr List.mem_cons_self)⟩
        | none =>
          dsimp only
          have hopen : ¬ S.RuledOut q := by simp [← settled?_eq_false_iff, hs]
          -- one more question is under way, which makes up for the depth that is lost
          have hask : ∀ r τ, .ask r ∈ S.leads q → τ.Quiet S → (υ.enter q).Extends τ →
              τ.Outcome S r (S.answerWithin depth r τ) := by
            intro r τ hmem hτ hext
            refine answerWithin_outcome depth r τ ?_ ?_ ?_ hτ
            · exact ⟨hext.underway ▸ hstack.nodup, hext.underway ▸ hstack.subset⟩
            · exact mem_questionsFrom_iff.2 (Or.inr (ask_mem_leads_iff.1 hmem).mem_positions)
            · rw [hext.underway]
              simp only [enter, List.length_cons, hυ]
              omega
          have hfollow := follow_outcome hask hquiet
          cases hfol : follow (S.answerWithin depth) (S.leads q) (υ.enter q) with
          | mk b τ =>
            rw [hfol] at hfollow
            cases b with
            | true => exact derivable_of_lead hopen hfollow
            | false =>
              obtain ⟨hτ, hext, hall⟩ := hfollow
              have hbarren : τ.Barren S q := ⟨by simp [hs], Or.inr hall⟩
              refine ⟨hτ.leave hbarren, hstep.trans (hext.leave hτ.exhausted),
                accounts_leave hτ.exhausted (Or.inr ?_)⟩
              rw [hext.underway]
              exact List.mem_cons_self

/-- Nothing is derivable in a search without a yes that has answered all it was asked. -/
theorem not_derivable_of_answered (hσ : σ.Quiet S) (hdone : σ.underway = [])
    (hq : q ∈ σ.answered) : ¬ S.Derivable q := by
  rintro ⟨e, hqe, he⟩
  have hclosed : ∀ r, σ.Accounts r → r ∈ σ.answered := by
    intro r hr
    rcases hr with hr | hr
    · exact hr
    · rw [hdone] at hr
      cases hr
  -- nothing is under way, so what an answered question consults has been answered
  have hmem : e ∈ σ.answered := by
    clear he
    induction hqe with
    | refl => exact hq
    | @tail r e _ hre ih =>
      obtain ⟨hopen, hcon⟩ := hre
      obtain ⟨_, hout | hall⟩ := hσ.barren r ih
      · exact absurd hout hopen
      · obtain ⟨_, ⟨⟩, hacc⟩ := hall _ (ask_mem_leads_iff.2 hcon)
        exact hclosed _ hacc
  obtain ⟨hno, hrest⟩ := hσ.barren e hmem
  rcases evident_iff.1 he with hyes | ⟨hopen, hcertain⟩
  · exact hno hyes
  · rcases hrest with hout | hall
    · exact hopen hout
    · obtain ⟨_, h, _⟩ := hall _ hcertain
      cases h

/-- A search without budget answers a question with yes exactly if the rules derive it. -/
theorem isA_node_iff {c : Category} {n : Node} :
    S.isA none c (.node n) = true ↔ S.Derivable ⟨c, n⟩ := by
  have hquiet : Quiet S {} := ⟨rfl, rfl, fun _ h => absurd h List.not_mem_nil,
    fun _ h => absurd h List.not_mem_nil⟩
  have hempty : ({} : Search).Stacked S n := ⟨List.nodup_nil, List.nil_subset _⟩
  have hout := answerWithin_outcome S.questionBound ⟨c, n⟩ {} hempty
    (mem_questionsFrom_iff.2 (Or.inl rfl))
    (Nat.lt_add_right _ (S.length_questionsFrom_lt n)) hquiet
  have hisA : S.isA none c (.node n) = (S.answerWithin S.questionBound ⟨c, n⟩ {}).1 := rfl
  rw [hisA]
  cases hans : S.answerWithin S.questionBound ⟨c, n⟩ {} with
  | mk b τ =>
    rw [hans] at hout
    cases b with
    | true => exact ⟨fun _ => hout, fun _ => rfl⟩
    | false =>
      obtain ⟨hτ, hext, hacc⟩ := hout
      have hmem : ⟨c, n⟩ ∈ τ.answered := by
        rcases hacc with h | h
        · exact h
        · rw [hext.underway] at h
          cases h
      refine ⟨fun h => absurd h (by simp), fun h => ?_⟩
      exact absurd h (not_derivable_of_answered hτ hext.underway hmem)

end TripleSet

/-! ## The category of a term in a graph -/

/-- A search for the category of a term, without budget, says yes exactly if the term is a node and
a finite chain of questions leads from the node to direct evidence.  Each question of the chain is
one that the rules consult for the question before it, which is not ruled out. -/
theorem Graph.isA_iff_exists_consulted (g : Graph) (c : Category) (x : Term) :
    g.union.isA none c x = true ↔
      ∃ n, x = .node n ∧ ∃ r, Relation.ReflTransGen g.union.Pursues ⟨c, n⟩ r ∧
        g.union.Evident r := by
  cases x with
  | literal l => simp [TripleSet.isA, TripleSet.decideIn]
  | node n =>
    rw [TripleSet.isA_node_iff]
    constructor
    · intro h
      exact ⟨n, rfl, h⟩
    · rintro ⟨_, ⟨⟩, h⟩
      exact h

end Ontograph
