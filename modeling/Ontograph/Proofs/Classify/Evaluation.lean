import Mathlib.Data.Finset.Card
import Ontograph.Proofs.Classify.Completeness

/-!
# What a search evaluates

A search answers a question from memory, cuts it off because it is under way, gives it up because
the budget is spent, or evaluates it: it takes a step, settles the question or follows its leads,
and remembers the answer.  `TripleSet.Evaluates` lists these cases as rules, with the questions
that are evaluated on the way and without a bound on the depth.  The rules are what a search does
(`TripleSet.exists_evaluates`): its depth is never used up as long as nothing is under way when it
is asked.

Everything that holds of a search kept over several calls follows from the rules.  From each call
to the next, the questions under way are the same, what is evaluated is new and then remembered,
and the steps count what is evaluated (`Search.Advances`); the steps stay within the budget; and
every yes is derivable.  The main result is `Graph.decideAll_bookkeeping`.
-/

namespace Ontograph

open TripleSet

/-! ## The rules of a search -/

/-- What a search has to do: answer a question, or find a lead that holds. -/
inductive Search.Task
  | question (q : Question)
  | leads (ls : List Lead)

/-- A search does a task: it evaluates some questions, in this order, answers with yes or no, and
goes on as another search. -/
inductive TripleSet.Evaluates (S : TripleSet) :
    Search.Task → Search → List Question → Bool → Search → Prop
  | remembered {q : Question} {σ : Search} {b : Bool} (hk : σ.known? q = some b) :
      Evaluates S (.question q) σ [] b σ
  | cutOff {q : Question} {σ : Search} (hk : σ.known? q = none) (hu : q ∈ σ.underway) :
      Evaluates S (.question q) σ [] false σ
  | givenUp {q : Question} {σ : Search} (hk : σ.known? q = none) (hu : q ∉ σ.underway)
      (hs : σ.spend? = none) : Evaluates S (.question q) σ [] false { σ with exhausted := true }
  | settled {q : Question} {σ υ : Search} {b : Bool} (hk : σ.known? q = none)
      (hu : q ∉ σ.underway) (hs : σ.spend? = some υ) (hq : S.settled? q = some b) :
      Evaluates S (.question q) σ [q] b ((υ.enter q).leave q b)
  | followed {q : Question} {σ υ τ : Search} {es : List Question} {b : Bool}
      (hk : σ.known? q = none) (hu : q ∉ σ.underway) (hs : σ.spend? = some υ)
      (hq : S.settled? q = none) (h : Evaluates S (.leads (S.leads q)) (υ.enter q) es b τ) :
      Evaluates S (.question q) σ (q :: es) b (τ.leave q b)
  | noLead {σ : Search} : Evaluates S (.leads []) σ [] false σ
  | certain {σ : Search} {ls : List Lead} : Evaluates S (.leads (.certain :: ls)) σ [] true σ
  | found {σ τ : Search} {r : Question} {ls : List Lead} {es : List Question}
      (h : Evaluates S (.question r) σ es true τ) : Evaluates S (.leads (.ask r :: ls)) σ es true τ
  | next {σ τ υ : Search} {r : Question} {ls : List Lead} {es fs : List Question} {b : Bool}
      (h : Evaluates S (.question r) σ es false τ) (h' : Evaluates S (.leads ls) τ fs b υ) :
      Evaluates S (.leads (.ask r :: ls)) σ (es ++ fs) b υ

namespace Search

variable {S : TripleSet} {σ τ υ : Search} {x : Task} {q r : Question} {es fs : List Question}
  {b : Bool}

/-! ## Steps -/

/-- A step is spent by a search that is not exhausted, and only the steps change. -/
theorem spend?_eq_some (h : σ.spend? = some υ) :
    σ.exhausted = false ∧ υ = { σ with steps := σ.steps + 1 } := by
  unfold spend? at h
  split at h
  case isTrue => cases h
  case isFalse hleft =>
    refine ⟨?_, (Option.some.inj h).symm⟩
    cases hex : σ.exhausted with
    | false => rfl
    | true => simp [hex] at hleft

/-- A question is not known if it has not been answered. -/
theorem known?_eq_none_iff : σ.known? q = none ↔ q ∉ σ.answered := by
  unfold known? answered
  rw [List.lookup_eq_none_iff]
  simp only [List.mem_map, not_exists, not_and, bne_iff_ne]
  constructor
  · rintro h e he rfl
    exact h e he rfl
  · rintro h e he rfl
    exact h e he rfl

/-- Leaving a question remembers it, unless the budget ran out. -/
theorem answered_leave :
    (τ.leave q b).answered = if τ.exhausted then τ.answered else q :: τ.answered := by
  unfold answered leave
  dsimp only
  split <;> rfl

/-- The steps are within the budget, and an exhausted search has used it up. -/
structure InBudget (σ : Search) : Prop where
  le : ∀ n, σ.budget = some n → σ.steps ≤ n
  spent : σ.exhausted = true → σ.budget = some σ.steps

/-- A search that has no step left has used up its budget. -/
theorem InBudget.exhaust (h : σ.InBudget) (hs : σ.spend? = none) :
    InBudget { σ with exhausted := true } := by
  refine ⟨h.le, fun _ => ?_⟩
  unfold spend? at hs
  split at hs
  case isFalse => cases hs
  case isTrue hnone =>
    rcases Bool.or_eq_true_iff.1 hnone with hex | hany
    · exact h.spent hex
    · cases hb : σ.budget with
      | none => simp [hb] at hany
      | some n =>
        have hle := h.le n hb
        have hge : n ≤ σ.steps := by simpa [hb] using hany
        simp only [Option.some.injEq]
        omega

/-- A step that is left is within the budget. -/
theorem inBudget_of_spend? (hs : σ.spend? = some υ) : υ.InBudget := by
  obtain ⟨hex, rfl⟩ := spend?_eq_some hs
  refine ⟨fun n hn => ?_, fun h' => ?_⟩
  · have hn' : σ.budget = some n := hn
    unfold spend? at hs
    split at hs
    case isTrue => cases hs
    case isFalse hleft =>
      simp only [hn', hex, Bool.false_or, Option.any_some, decide_eq_true_eq] at hleft
      dsimp only
      omega
  · rw [hex] at h'
    cases h'

/-- Every yes that a search remembers is derivable. -/
def Truthful (S : TripleSet) (σ : Search) : Prop := ∀ q, (q, true) ∈ σ.decided → S.Derivable q

/-- Remembering a yes that is derivable keeps a search truthful. -/
theorem Truthful.leave (h : τ.Truthful S) (hyes : b = true → S.Derivable q) :
    (τ.leave q b).Truthful S := by
  intro r hr
  unfold Search.leave at hr
  dsimp only at hr
  split at hr
  case isTrue => exact h r hr
  case isFalse =>
    rcases List.mem_cons.1 hr with he | hr
    · obtain ⟨rfl, rfl⟩ := Prod.mk.inj he
      exact hyes rfl
    · exact h r hr

/-- The questions that a task asks by itself. -/
def Task.Asks : Task → Question → Prop
  | .question q, r => r = q
  | .leads ls, r => .ask r ∈ ls

/-- The answer to a task is yes by the rules of evidence. -/
def Task.Holds (S : TripleSet) : Task → Prop
  | .question q => S.Derivable q
  | .leads ls => .certain ∈ ls ∨ ∃ r, .ask r ∈ ls ∧ S.Derivable r

/-! ## From one search to the next -/

/-- A search went on to another one and evaluated some questions, each of them once: none of them
was answered or under way before, and all of them are remembered unless the budget ran out. -/
structure Advances (σ : Search) (es : List Question) (τ : Search) : Prop where
  underway : τ.underway = σ.underway
  budget : τ.budget = σ.budget
  steps : τ.steps = σ.steps + es.length
  answered : σ.answered ⊆ τ.answered
  isNew : ∀ q ∈ es, q ∉ σ.answered ∧ q ∉ σ.underway
  remembered : τ.exhausted = false → ∀ q ∈ es, q ∈ τ.answered
  nodup : es.Nodup
  frozen : σ.exhausted = true → τ = σ ∧ es = []
  inBudget : σ.InBudget → τ.InBudget

/-- A search that evaluates nothing stays as it is. -/
theorem Advances.refl : σ.Advances [] σ where
  underway := rfl
  budget := rfl
  steps := rfl
  answered := fun _ h => h
  isNew := fun _ h => absurd h List.not_mem_nil
  remembered := fun _ _ h => absurd h List.not_mem_nil
  nodup := List.nodup_nil
  frozen := fun _ => ⟨rfl, rfl⟩
  inBudget := id

/-- A search that advances twice evaluates the questions of both, none of them again. -/
theorem Advances.trans (h : σ.Advances es τ) (h' : τ.Advances fs υ) : σ.Advances (es ++ fs) υ where
  underway := h'.underway.trans h.underway
  budget := h'.budget.trans h.budget
  steps := by rw [h'.steps, h.steps, List.length_append, Nat.add_assoc]
  answered := fun _ hq => h'.answered (h.answered hq)
  isNew := by
    intro q hq
    rcases List.mem_append.1 hq with hq | hq
    · exact h.isNew q hq
    · obtain ⟨hans, hunder⟩ := h'.isNew q hq
      exact ⟨fun hold => hans (h.answered hold), h.underway ▸ hunder⟩
  remembered := by
    intro hex q hq
    rcases List.mem_append.1 hq with hq | hq
    · have hex' : τ.exhausted = false := by
        rw [← Bool.not_eq_true]
        intro hτ
        rw [(h'.frozen hτ).1, hτ] at hex
        cases hex
      exact h'.answered (h.remembered hex' q hq)
    · exact h'.remembered hex q hq
  nodup := by
    refine List.nodup_append.2 ⟨h.nodup, h'.nodup, ?_⟩
    -- what the first part evaluated is remembered, unless the second part evaluates nothing
    rintro q hq _ hq' rfl
    cases hex : τ.exhausted with
    | false => exact (h'.isNew q hq').1 (h.remembered hex q hq)
    | true =>
      rw [(h'.frozen hex).2] at hq'
      cases hq'
  frozen := by
    intro hex
    obtain ⟨rfl, rfl⟩ := h.frozen hex
    obtain ⟨rfl, rfl⟩ := h'.frozen hex
    exact ⟨rfl, rfl⟩
  inBudget := fun hσ => h'.inBudget (h.inBudget hσ)

/-- Giving a question up leaves everything but the budget as it was. -/
theorem Advances.giveUp (hs : σ.spend? = none) : σ.Advances [] { σ with exhausted := true } where
  underway := rfl
  budget := rfl
  steps := rfl
  answered := fun _ h => h
  isNew := fun _ h => absurd h List.not_mem_nil
  remembered := fun _ _ h => absurd h List.not_mem_nil
  nodup := List.nodup_nil
  frozen := by
    intro hex
    refine ⟨?_, rfl⟩
    rw [← hex]
  inBudget := fun hσ => hσ.exhaust hs

/-- Evaluating a question adds it to what its leads made the search evaluate. -/
theorem Advances.evaluate (hk : σ.known? q = none) (hu : q ∉ σ.underway)
    (hs : σ.spend? = some υ) (h : (υ.enter q).Advances es τ) :
    σ.Advances (q :: es) (τ.leave q b) := by
  have hbudget : υ.InBudget := inBudget_of_spend? hs
  obtain ⟨hex, rfl⟩ := spend?_eq_some hs
  refine ⟨?_, h.budget, ?_, ?_, ?_, ?_, ?_, ?_, ?_⟩
  · simp [leave, h.underway, enter]
  · have hsteps : τ.steps = σ.steps + 1 + es.length := h.steps
    simp only [leave, hsteps, List.length_cons]
    omega
  · intro r hr
    have hmem : r ∈ τ.answered := h.answered hr
    rw [answered_leave]
    split
    case isTrue => exact hmem
    case isFalse => exact List.mem_cons_of_mem _ hmem
  · intro r hr
    rcases List.mem_cons.1 hr with rfl | hr
    · exact ⟨known?_eq_none_iff.1 hk, hu⟩
    · obtain ⟨hans, hunder⟩ := h.isNew r hr
      exact ⟨hans, fun hold => hunder (List.mem_cons_of_mem _ hold)⟩
  · intro hex' r hr
    have hτ : τ.exhausted = false := hex'
    rw [answered_leave, hτ, if_neg Bool.false_ne_true, List.mem_cons]
    exact (List.mem_cons.1 hr).imp_right (h.remembered hτ r)
  · refine List.nodup_cons.2 ⟨fun hq => ?_, h.nodup⟩
    exact (h.isNew q hq).2 List.mem_cons_self
  · intro hex'
    rw [hex] at hex'
    cases hex'
  · intro _
    obtain ⟨hle, hspent⟩ := h.inBudget ⟨hbudget.le, hbudget.spent⟩
    exact ⟨hle, hspent⟩

end Search

namespace TripleSet

open Search

variable {S : TripleSet} {σ τ υ : Search} {x : Task} {q r : Question} {es fs : List Question}
  {b : Bool}

/-- Whatever a search has to do, it advances by what it evaluates. -/
theorem Evaluates.advances (h : S.Evaluates x σ es b τ) : σ.Advances es τ := by
  induction h with
  | remembered | cutOff | noLead | certain => exact .refl
  | givenUp _ _ hs => exact .giveUp hs
  | settled hk hu hs _ => exact .evaluate hk hu hs .refl
  | followed hk hu hs _ _ ih => exact .evaluate hk hu hs ih
  | found _ ih => exact ih
  | next _ _ ih ih' => exact ih.trans ih'

/-! ## What is evaluated, and what is answered -/

/-- What is evaluated is asked, or is a question about a node of the graph. -/
theorem Evaluates.asks_or_mem_positions (h : S.Evaluates x σ es b τ) :
    ∀ r ∈ es, x.Asks r ∨ r.node ∈ S.positions := by
  induction h with
  | remembered | cutOff | givenUp | noLead | certain => exact fun r hr => nomatch hr
  | settled => exact fun r hr => Or.inl (List.mem_singleton.1 hr)
  | followed _ _ _ _ _ ih =>
    intro r hr
    rcases List.mem_cons.1 hr with rfl | hr
    · exact Or.inl rfl
    · right
      rcases ih r hr with hask | hpos
      · exact (ask_mem_leads_iff.1 hask).mem_positions
      · exact hpos
  | found _ ih =>
    intro r hr
    exact (ih r hr).imp_left fun hask : r = _ => hask ▸ List.mem_cons_self
  | next _ _ ih ih' =>
    intro r hr
    rcases List.mem_append.1 hr with hr | hr
    · exact (ih r hr).imp_left fun hask : r = _ => hask ▸ List.mem_cons_self
    · exact (ih' r hr).imp_left (List.mem_cons_of_mem _)

/-- A search that remembers no wrong yes finds none. -/
theorem Evaluates.truthful (h : S.Evaluates x σ es b τ) (hσ : σ.Truthful S) :
    τ.Truthful S ∧ (b = true → x.Holds S) := by
  induction h with
  | remembered hk =>
    refine ⟨hσ, ?_⟩
    rintro rfl
    exact hσ _ (mem_of_known? hk)
  | cutOff | noLead => exact ⟨hσ, fun h => nomatch h⟩
  | givenUp => exact ⟨hσ, fun h => nomatch h⟩
  | settled _ _ hs hq =>
    have hyes := fun h => (evident_of_settled? (hq.trans (congrArg some h))).derivable
    obtain ⟨-, rfl⟩ := spend?_eq_some hs
    exact ⟨Truthful.leave (fun r hr => hσ r hr) hyes, hyes⟩
  -- a question that is not ruled out holds if one of its leads does
  | @followed q _ _ _ _ _ _ _ hs hq _ ih =>
    obtain ⟨-, rfl⟩ := spend?_eq_some hs
    obtain ⟨hτ, hyes⟩ := ih fun r hr => hσ r hr
    have hopen : ¬ S.RuledOut q := by simp [← settled?_eq_false_iff, hq]
    have hyes' := fun h => derivable_of_lead hopen (hyes h)
    exact ⟨hτ.leave hyes', hyes'⟩
  | certain => exact ⟨hσ, fun _ => Or.inl List.mem_cons_self⟩
  | found _ ih =>
    obtain ⟨hτ, hyes⟩ := ih hσ
    exact ⟨hτ, fun h => Or.inr ⟨_, List.mem_cons_self, hyes h⟩⟩
  | next _ _ ih ih' =>
    obtain ⟨hυ, hyes⟩ := ih' (ih hσ).1
    refine ⟨hυ, fun h => (hyes h).imp (List.mem_cons_of_mem _) ?_⟩
    rintro ⟨r, hmem, hr⟩
    exact ⟨r, List.mem_cons_of_mem _ hmem, hr⟩

/-! ## The depth is never used up -/

/-- Following leads is what the rules say, if answering them is. -/
theorem exists_evaluates_follow {answer : Question → Search → Bool × Search} {ls : List Lead}
    (h : ∀ r τ, .ask r ∈ ls → τ.underway = σ.underway →
      ∃ es, S.Evaluates (.question r) τ es (answer r τ).1 (answer r τ).2) :
    ∃ es, S.Evaluates (.leads ls) σ es (follow answer ls σ).1 (follow answer ls σ).2 := by
  induction ls generalizing σ with
  | nil => exact ⟨[], .noLead⟩
  | cons l ls ih =>
    cases l with
    | certain => exact ⟨[], .certain⟩
    | ask r =>
      obtain ⟨es, hes⟩ := h r σ List.mem_cons_self rfl
      rw [follow]
      cases hans : answer r σ with
      | mk b τ =>
        rw [hans] at hes
        cases b with
        | true => exact ⟨es, .found hes⟩
        | false =>
          have hunder : τ.underway = σ.underway := hes.advances.underway
          obtain ⟨fs, hfs⟩ := ih fun r' υ hmem hυ =>
            h r' υ (List.mem_cons_of_mem _ hmem) (hυ.trans hunder)
          exact ⟨es ++ fs, .next hes hfs⟩

/-- A search does what the rules say, if its depth exceeds the questions not yet under way. -/
theorem exists_evaluates_answerWithin (root : Node) :
    ∀ (depth : Nat) (q : Question) (σ : Search), σ.Stacked S root →
    q ∈ S.questionsFrom root → (S.questionsFrom root).length < depth + σ.underway.length →
    ∃ es, S.Evaluates (.question q) σ es (S.answerWithin depth q σ).1 (S.answerWithin depth q σ).2
  | 0, q, σ, hst, _, hdepth => by
    have := hst.length_le
    omega
  | depth + 1, q, σ, hst, hq, hdepth => by
    rw [answerWithin]
    cases hk : σ.known? q with
    | some b => exact ⟨[], .remembered hk⟩
    | none =>
      dsimp only
      by_cases hunder : q ∈ σ.underway
      · rw [if_pos hunder]
        exact ⟨[], .cutOff hk hunder⟩
      · rw [if_neg hunder]
        cases hs : σ.spend? with
        | none => exact ⟨[], .givenUp hk hunder hs⟩
        | some υ =>
          cases hset : S.settled? q with
          | some b => exact ⟨[q], .settled hk hunder hs hset⟩
          | none =>
            dsimp only
            have hsame : υ.underway = σ.underway := by rw [(spend?_eq_some hs).2]
            have hstack : (υ.enter q).Stacked S root :=
              Stacked.enter ⟨hsame ▸ hst.nodup, hsame ▸ hst.subset⟩ hq (hsame ▸ hunder)
            -- one more question is under way, which makes up for the depth that is lost
            have hask : ∀ r τ, .ask r ∈ S.leads q → τ.underway = (υ.enter q).underway →
                ∃ es, S.Evaluates (.question r) τ es (S.answerWithin depth r τ).1
                  (S.answerWithin depth r τ).2 := by
              intro r τ hmem hτ
              refine exists_evaluates_answerWithin root depth r τ ?_ ?_ ?_
              · exact ⟨hτ ▸ hstack.nodup, hτ ▸ hstack.subset⟩
              · exact mem_questionsFrom_iff.2 (Or.inr (ask_mem_leads_iff.1 hmem).mem_positions)
              · rw [hτ]
                simp only [enter, List.length_cons, hsame]
                omega
            obtain ⟨es, hes⟩ := exists_evaluates_follow hask
            exact ⟨q :: es, .followed hk hunder hs hset hes⟩

/-- A question asked while nothing is under way is answered by the rules. -/
theorem exists_evaluates (hdone : σ.underway = []) :
    ∃ es, S.Evaluates (.question q) σ es (S.answer q σ).1 (S.answer q σ).2 := by
  have hempty : σ.Stacked S q.node := by
    constructor <;> rw [hdone]
    · exact List.nodup_nil
    · exact List.nil_subset _
  refine exists_evaluates_answerWithin q.node S.questionBound q σ hempty
    (mem_questionsFrom_iff.2 (Or.inl rfl)) ?_
  exact Nat.lt_add_right _ (S.length_questionsFrom_lt q.node)

/-! ## One search for many questions -/

/-- The answers of one search to questions asked one after another, and the search after them. -/
def decideAll (S : TripleSet) : List (Category × Term) → Search → List Bool × Search
  | [], σ => ([], σ)
  | (c, x) :: asked, σ =>
    let (b, σ) := S.decideIn c x σ
    let (bs, σ) := S.decideAll asked σ
    (b :: bs, σ)

/-- A search is asked some questions: it evaluates some, in this order, answers each question that
it was asked with yes or no, and goes on as another search.  A literal is of no category. -/
inductive EvaluatesAll (S : TripleSet) :
    List (Category × Term) → Search → List Question → List Bool → Search → Prop
  | nil {σ : Search} : EvaluatesAll S [] σ [] [] σ
  | literal {c : Category} {l : Literal} {asked : List (Category × Term)} {σ τ : Search}
      {es : List Question} {bs : List Bool} (h : EvaluatesAll S asked σ es bs τ) :
      EvaluatesAll S ((c, .literal l) :: asked) σ es (false :: bs) τ
  | node {c : Category} {n : Node} {asked : List (Category × Term)} {σ τ υ : Search}
      {es fs : List Question} {b : Bool} {bs : List Bool}
      (h : S.Evaluates (.question ⟨c, n⟩) σ es b τ) (h' : EvaluatesAll S asked τ fs bs υ) :
      EvaluatesAll S ((c, .node n) :: asked) σ (es ++ fs) (b :: bs) υ

/-- The nodes that are asked about. -/
def askedNodes (asked : List (Category × Term)) : List Node := asked.filterMap fun p => p.2.node?

variable {asked : List (Category × Term)} {bs : List Bool}

/-- The questions asked of a search are evaluated one after another. -/
theorem exists_evaluatesAll (asked : List (Category × Term)) (hdone : σ.underway = []) :
    ∃ es, S.EvaluatesAll asked σ es (S.decideAll asked σ).1 (S.decideAll asked σ).2 := by
  induction asked generalizing σ with
  | nil => exact ⟨[], .nil⟩
  | cons p asked ih =>
    obtain ⟨c, x⟩ := p
    cases x with
    | literal l =>
      obtain ⟨es, hes⟩ := ih hdone
      exact ⟨es, .literal hes⟩
    | node n =>
      obtain ⟨es, hes⟩ : ∃ es, S.Evaluates (.question ⟨c, n⟩) σ es
        (S.answer ⟨c, n⟩ σ).1 (S.answer ⟨c, n⟩ σ).2 := exists_evaluates hdone
      obtain ⟨fs, hfs⟩ := ih (hes.advances.underway.trans hdone)
      exact ⟨es ++ fs, .node hes hfs⟩

/-- Being asked several questions, a search evaluates each question once at most. -/
theorem EvaluatesAll.advances (h : S.EvaluatesAll asked σ es bs τ) : σ.Advances es τ := by
  induction h with
  | nil => exact .refl
  | literal _ ih => exact ih
  | node h _ ih => exact h.advances.trans ih

/-- Every question that was evaluated is about a node that was asked about or a node of the
graph. -/
theorem EvaluatesAll.mem_nodes (h : S.EvaluatesAll asked σ es bs τ) :
    ∀ r ∈ es, r.node ∈ askedNodes asked ++ S.positions := by
  induction h with
  | nil => exact fun r hr => nomatch hr
  | literal _ ih => exact ih
  | node h _ ih =>
    intro r hr
    rcases List.mem_append.1 hr with hr | hr
    · rcases h.asks_or_mem_positions r hr with hask | hpos
      · cases (hask : r = _)
        exact List.mem_cons_self
      · exact List.mem_append_right _ hpos
    · exact List.mem_cons_of_mem _ (ih r hr)

/-- A truthful search stays truthful, and each yes that it answers is derivable. -/
theorem EvaluatesAll.truthful (h : S.EvaluatesAll asked σ es bs τ) (hσ : σ.Truthful S) :
    τ.Truthful S ∧ List.Forall₂ (fun p b => b = true → ∃ n, p.2 = .node n ∧ S.Derivable ⟨p.1, n⟩)
      asked bs := by
  induction h with
  | nil => exact ⟨hσ, .nil⟩
  | literal _ ih =>
    obtain ⟨hτ, hall⟩ := ih hσ
    exact ⟨hτ, .cons (fun h => nomatch h) hall⟩
  | node h _ ih =>
    obtain ⟨hτ, hyes⟩ := h.truthful hσ
    obtain ⟨hυ, hall⟩ := ih hτ
    exact ⟨hυ, .cons (fun hb => ⟨_, rfl, hyes hb⟩) hall⟩

/-! ## Counting questions -/

/-- Each category for each of some nodes. -/
def questionsAbout (ns : List Node) : List Question :=
  Category.all.flatMap fun c => ns.map (⟨c, ·⟩)

/-- The questions about some nodes are those whose node is one of them. -/
theorem mem_questionsAbout_iff {ns : List Node} : q ∈ questionsAbout ns ↔ q.node ∈ ns := by
  obtain ⟨c, n⟩ := q
  simp only [questionsAbout, List.mem_flatMap, List.mem_map, Question.mk.injEq]
  constructor
  · rintro ⟨_, _, _, hm, rfl, rfl⟩
    exact hm
  · exact fun hn => ⟨c, c.mem_all, n, hn, rfl, rfl⟩

/-- About each node there are six questions. -/
theorem length_questionsAbout (ns : List Node) : (questionsAbout ns).length = 6 * ns.length := by
  simp only [questionsAbout, Category.all, List.flatMap_cons, List.flatMap_nil, List.length_append,
    List.length_map, List.length_nil]
  omega

/-- Different questions about some nodes are at most six for each node. -/
theorem length_le_of_nodup {ns : List Node} (hnodup : es.Nodup) (h : ∀ q ∈ es, q.node ∈ ns) :
    es.length ≤ 6 * ns.toFinset.card := by
  have hsub : es ⊆ questionsAbout ns.dedup := fun q hq =>
    mem_questionsAbout_iff.2 (List.mem_dedup.2 (h q hq))
  calc es.length ≤ (questionsAbout ns.dedup).length :=
        (List.subperm_of_subset hnodup hsub).length_le
    _ = 6 * ns.dedup.length := length_questionsAbout _
    _ = 6 * ns.toFinset.card := by rw [List.card_toFinset]

end TripleSet

open TripleSet

/-- **Bookkeeping of a search.** After any questions asked one after another in one search, with any
budget, nothing is under way.  What was evaluated on the way was evaluated once, so the steps, which
count it, are at most six for each node that was asked about or is in the graph.  The steps are
within the budget, and a search that ran out of it has used it up and changes no more.  Every yes,
answered or remembered, is derivable, and a new search without budget answers it too. -/
theorem Graph.decideAll_bookkeeping (g : Graph) (budget : Option Nat)
    (asked : List (Category × Term)) :
    let S := g.union
    let answers := (S.decideAll asked { budget }).1
    let σ := (S.decideAll asked { budget }).2
    σ.underway = [] ∧
      (∃ evaluated, S.EvaluatesAll asked { budget } evaluated answers σ) ∧
      (∀ evaluated, S.EvaluatesAll asked { budget } evaluated answers σ →
        evaluated.Nodup ∧ evaluated.length = σ.steps) ∧
      σ.steps ≤ 6 * (askedNodes asked ++ S.positions).toFinset.card ∧
      (∀ n, budget = some n → σ.steps ≤ n) ∧
      (σ.exhausted = true → budget = some σ.steps ∧ ∀ later, (S.decideAll later σ).2 = σ) ∧
      List.Forall₂ (fun p b => b = true →
        (∃ n, p.2 = .node n ∧ S.Derivable ⟨p.1, n⟩) ∧ S.isA none p.1 p.2 = true) asked answers ∧
      ∀ q, (q, true) ∈ σ.decided → S.Derivable q ∧ S.isA none q.category q.node = true := by
  intro S answers σ
  obtain ⟨evaluated, hev⟩ : ∃ es, S.EvaluatesAll asked { budget } es answers σ :=
    exists_evaluatesAll asked rfl
  have hadv : Search.Advances { budget } evaluated σ := hev.advances
  -- each evaluated question is a step, and the count of steps starts at zero
  have hlength : ∀ es, Search.Advances { budget } es σ → es.length = σ.steps := by
    intro es h
    rw [h.steps]
    exact (Nat.zero_add _).symm
  have hstart : Search.InBudget { budget } := ⟨fun _ _ => Nat.zero_le _, fun h => nomatch h⟩
  have hbudget : σ.InBudget := hadv.inBudget hstart
  obtain ⟨htrue, hanswers⟩ := hev.truthful fun _ h => nomatch h
  refine ⟨hadv.underway, ⟨evaluated, hev⟩, fun es hes => ?_, ?_, ?_, ?_, ?_, ?_⟩
  · exact ⟨hes.advances.nodup, hlength es hes.advances⟩
  · rw [← hlength evaluated hadv]
    exact length_le_of_nodup hadv.nodup hev.mem_nodes
  · intro n hn
    exact hbudget.le n (hadv.budget.trans hn)
  · intro hex
    refine ⟨hadv.budget.symm.trans (hbudget.spent hex), fun later => ?_⟩
    obtain ⟨_, hlater⟩ := exists_evaluatesAll (S := S) later hadv.underway
    exact (hlater.advances.frozen hex).1
  · refine hanswers.imp fun p b h hb => ?_
    obtain ⟨n, hn, hder⟩ := h hb
    exact ⟨⟨n, hn, hder⟩, by rw [hn]; exact isA_node_iff.2 hder⟩
  · intro q hq
    exact ⟨htrue q hq, isA_node_iff.2 (htrue q hq)⟩

end Ontograph
