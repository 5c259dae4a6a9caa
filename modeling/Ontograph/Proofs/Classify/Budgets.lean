import Ontograph.Proofs.Classify.Evaluation

/-!
# Searches with more and with less budget

A budget turns answers to no and never to yes (`Graph.decideIn_budget`).  Two searches that differ
in their budgets go on in step until the smaller budget runs out (`Search.Pace`).  From then on the
search with that budget answers every question with no, so that only a lead that needs no question
can still turn an answer to yes; the other search, wherever its questions have taken it, comes to
that lead too unless it has said yes before.

This takes that no yes is remembered while a search goes on.  It is so in a search that started
afresh, because a yes is passed up at once through every question under way.
-/

namespace Ontograph

open TripleSet

namespace Search

variable {S : TripleSet} {σ τ υ : Search} {q r : Question} {ls : List Lead} {β : Option Nat}
  {answer answer' : Question → Search → Bool × Search}

/-! ## Budgets -/

/-- The same search with another budget. -/
def withBudget (σ : Search) (β : Option Nat) : Search := { σ with budget := β }

/-- A budget is at most another one; no budget is the largest. -/
def BudgetLe (β β' : Option Nat) : Prop := ∀ n, β' = some n → ∃ m, β = some m ∧ m ≤ n

/-- A step that a budget leaves is left by a larger one. -/
theorem spend?_withBudget (hle : BudgetLe σ.budget β) (hs : σ.spend? = some υ) :
    (σ.withBudget β).spend? = some (υ.withBudget β) := by
  obtain ⟨hex, rfl⟩ := spend?_eq_some hs
  have hleft : (β.any fun n => decide (n ≤ σ.steps)) = false := by
    cases β with
    | none => rfl
    | some n =>
      obtain ⟨m, hm, hmn⟩ := hle n rfl
      have hbudget := (inBudget_of_spend? hs).le m hm
      simp only [Option.any_some, decide_eq_false_iff_not]
      dsimp only at hbudget
      omega
  unfold spend? withBudget
  simp only [hex, hleft, Bool.or_false, Bool.false_eq_true, if_false]

/-- Every answer that a search remembers is no. -/
def Denied (σ : Search) : Prop := ∀ e ∈ σ.decided, e.2 = false

/-- A search that starts afresh remembers nothing. -/
theorem denied_start : Denied { budget := β } := fun _ he => absurd he List.not_mem_nil

/-- Remembering one more no leaves a search that remembers no yes. -/
theorem Denied.leave (h : σ.Denied) : (σ.leave q false).Denied := by
  intro e he
  unfold Search.leave at he
  dsimp only at he
  split at he
  case isTrue => exact h e he
  case isFalse =>
    rcases List.mem_cons.1 he with rfl | he
    · rfl
    · exact h e he

/-! ## Leads after the budget -/

/-- A lead that is certain is found, whatever the questions before it are answered with. -/
theorem follow_of_certain (h : .certain ∈ ls) : (follow answer ls σ).1 = true := by
  induction ls generalizing σ with
  | nil => cases h
  | cons l ls ih =>
    cases l with
    | certain => rfl
    | ask r =>
      have hmem : Lead.certain ∈ ls := by simpa using h
      rw [follow]
      cases answer r σ with
      | mk b τ =>
        cases b with
        | true => rfl
        | false => exact ih hmem

/-- Where every question is answered with no, only a lead that is certain is found. -/
theorem follow_of_denying (h : ∀ r, answer r σ = (false, σ)) :
    follow answer ls σ = (decide (.certain ∈ ls), σ) := by
  induction ls with
  | nil => rfl
  | cons l ls ih =>
    cases l with
    | certain => simp [follow]
    | ask r =>
      rw [follow, h r]
      simpa using ih

/-! ## Two searches in step -/

/-- An outcome under a larger budget keeps up with an outcome: it is the same one as long as that
one did not run out of its budget, and it is yes if that one is. -/
structure Pace (σ : Search) (β : Option Nat) (o o' : Bool × Search) : Prop where
  budget : o.2.budget = σ.budget
  denied : o.1 = false → o.2.Denied
  same : o.2.exhausted = false → o' = (o.1, o.2.withBudget β)
  yes : o.1 = true → o'.1 = true

/-- Outcomes that differ in the budget only keep up with each other. -/
theorem Pace.ofSame {b : Bool} (hbudget : τ.budget = σ.budget) (hdenied : b = false → τ.Denied) :
    σ.Pace β (b, τ) (b, τ.withBudget β) := ⟨hbudget, hdenied, fun _ => rfl, id⟩

/-- A yes under the smaller budget is kept up with by the same yes. -/
theorem Pace.found (hbudget : τ.budget = σ.budget) :
    σ.Pace β (true, τ) (true, τ.withBudget β) := .ofSame hbudget Bool.noConfusion

/-- With the outcome of an exhausted search every outcome keeps up that is no less. -/
theorem Pace.ofExhausted {b b' : Bool} (hbudget : τ.budget = σ.budget) (hex : τ.exhausted = true)
    (hdenied : b = false → τ.Denied) (hyes : b = true → b' = true) :
    σ.Pace β (b, τ) (b', υ) :=
  ⟨hbudget, hdenied, fun h => absurd (hex.symm.trans h) Bool.noConfusion, hyes⟩

/-- Keeping up with an outcome only depends on the budget that the search started with. -/
theorem Pace.trans {o o' : Bool × Search} (h : τ.Pace β o o') (hbudget : τ.budget = σ.budget) :
    σ.Pace β o o' := ⟨h.budget.trans hbudget, h.denied, h.same, h.yes⟩

/-- Leads are followed in step, if questions are answered in step and an exhausted search answers
them with no. -/
theorem follow_pace (hask : ∀ (r : Question) (τ : Search), .ask r ∈ ls → τ.exhausted = false →
      τ.Denied → τ.budget = σ.budget → τ.Pace β (answer r τ) (answer' r (τ.withBudget β)))
    (hdeny : ∀ (r : Question) (τ : Search), τ.exhausted = true → τ.Denied →
      answer r τ = (false, τ))
    (hex : σ.exhausted = false) (hσ : σ.Denied) :
    σ.Pace β (follow answer ls σ) (follow answer' ls (σ.withBudget β)) := by
  induction ls generalizing σ with
  | nil => exact .ofSame rfl fun _ => hσ
  | cons l ls ih =>
    cases l with
    | certain => exact .found rfl
    | ask r =>
      have hr := hask r σ List.mem_cons_self hex hσ rfl
      rw [follow, follow]
      rcases hans : answer r σ with ⟨b, τ⟩
      rcases hans' : answer' r (σ.withBudget β) with ⟨b', τ'⟩
      rw [hans, hans'] at hr
      obtain ⟨hbudget, hdenied, hsame, hyes⟩ := hr
      dsimp only at hbudget hdenied hsame hyes
      cases hτ : τ.exhausted with
      | false =>
        obtain ⟨rfl, rfl⟩ := Prod.mk.inj (hsame hτ)
        cases b' with
        | true => exact .found hbudget
        | false =>
          refine Pace.trans (ih (fun r' υ hmem hυ hd hb => ?_) hτ (hdenied rfl)) hbudget
          exact hask r' υ (List.mem_cons_of_mem _ hmem) hυ hd (hb.trans hbudget)
      | true =>
        cases b with
        | true =>
          obtain rfl : b' = true := hyes rfl
          exact .ofExhausted hbudget hτ hdenied id
        | false =>
          -- the rest of the leads says yes only by one that the other search comes to as well
          dsimp only
          rw [follow_of_denying fun r => hdeny r τ hτ (hdenied rfl)]
          refine .ofExhausted hbudget hτ (fun _ => hdenied rfl) fun hcertain => ?_
          have hmem : Lead.certain ∈ ls := of_decide_eq_true hcertain
          cases b' with
          | true => rfl
          | false => exact follow_of_certain hmem

end Search

namespace TripleSet

open Search

variable {S : TripleSet} {σ : Search} {q : Question} {β : Option Nat}

/-- An exhausted search answers with no and stays as it is. -/
theorem answerWithin_of_exhausted {depth : Nat} (hex : σ.exhausted = true) (hσ : σ.Denied) :
    S.answerWithin depth q σ = (false, σ) := by
  cases depth with
  | zero => rfl
  | succ depth =>
    rw [answerWithin]
    cases hk : σ.known? q with
    | some b =>
      have hb : b = false := hσ _ (mem_of_known? hk)
      rw [hb]
    | none =>
      have hs : σ.spend? = none := by simp [spend?, hex]
      have hsame : { σ with exhausted := true } = σ := by rw [← hex]
      simp only [hs, hsame, ite_self]

/-- A question is answered in step under a larger budget. -/
theorem answerWithin_pace : ∀ (depth : Nat) (q : Question) (σ : Search), σ.exhausted = false →
    σ.Denied → BudgetLe σ.budget β →
    σ.Pace β (S.answerWithin depth q σ) (S.answerWithin depth q (σ.withBudget β))
  | 0, _, _, _, hσ, _ => .ofSame rfl fun _ => hσ
  | depth + 1, q, σ, hex, hσ, hle => by
    rw [answerWithin, answerWithin]
    have hknown : (σ.withBudget β).known? q = σ.known? q := rfl
    have hunderway : (σ.withBudget β).underway = σ.underway := rfl
    rw [hknown, hunderway]
    cases hk : σ.known? q with
    | some b =>
      have hb : b = false := hσ _ (mem_of_known? hk)
      exact .ofSame rfl fun _ => hσ
    | none =>
      dsimp only
      by_cases hunder : q ∈ σ.underway
      · rw [if_pos hunder, if_pos hunder]
        exact .ofSame rfl fun _ => hσ
      · rw [if_neg hunder, if_neg hunder]
        -- the smaller budget may run out here; up to here the two searches are the same
        cases hs : σ.spend? with
        | none => exact .ofExhausted rfl rfl (fun _ => hσ) Bool.noConfusion
        | some υ =>
          rw [spend?_withBudget hle hs]
          obtain ⟨-, rfl⟩ := spend?_eq_some hs
          cases S.settled? q with
          | some b =>
            refine .ofSame rfl ?_
            rintro rfl
            exact Denied.leave fun e he => hσ e he
          | none =>
            dsimp only
            set υ : Search := { σ with steps := σ.steps + 1 } with hυ
            have hpace : (υ.enter q).Pace β
                (follow (S.answerWithin depth) (S.leads q) (υ.enter q))
                (follow (S.answerWithin depth) (S.leads q) ((υ.enter q).withBudget β)) := by
              refine follow_pace (fun r τ _ hτ hd hb => ?_) (fun r τ hτ hd => ?_) hex hσ
              · exact answerWithin_pace depth r τ hτ hd (hb ▸ hle)
              · exact answerWithin_of_exhausted hτ hd
            have henter : (υ.withBudget β).enter q = (υ.enter q).withBudget β := rfl
            rw [henter]
            generalize follow (S.answerWithin depth) (S.leads q) (υ.enter q) = o at hpace
            generalize follow (S.answerWithin depth) (S.leads q) ((υ.enter q).withBudget β) = o'
              at hpace
            obtain ⟨hbudget, hdenied, hsame, hyes⟩ := hpace
            refine ⟨hbudget, fun h => ?_, fun h => ?_, hyes⟩
            · dsimp only at h ⊢
              rw [h]
              exact (hdenied h).leave
            · obtain rfl := hsame h
              rfl

/-- A search that starts afresh takes no more steps than its budget. -/
theorem steps_decideIn_le {c : Category} {x : Term} {b : Nat} :
    (S.decideIn c x { budget := some b }).2.steps ≤ b := by
  cases x with
  | literal l => exact Nat.zero_le b
  | node n =>
    have hstart : Search.InBudget { budget := some b } :=
      ⟨fun _ _ => Nat.zero_le _, Bool.noConfusion⟩
    obtain ⟨_, hes⟩ := exists_evaluates (S := S) (q := ⟨c, n⟩) (σ := { budget := some b }) rfl
    exact (hes.advances.inBudget hstart).le b hes.advances.budget

/-- A search that starts afresh is kept up with by one that starts with a larger budget. -/
theorem decideIn_pace {c : Category} {x : Term} {b : Nat} (hle : BudgetLe (some b) β) :
    Search.Pace { budget := some b } β (S.decideIn c x { budget := some b })
      (S.decideIn c x { budget := β }) := by
  cases x with
  | literal l => exact .ofSame rfl fun _ => denied_start
  | node n => exact answerWithin_pace _ _ { budget := some b } rfl denied_start hle

end TripleSet

/-- **Budgets only deny.** A search that starts afresh with a budget takes no more steps than the
budget.  If it does not run out of it, it answers as a search without budget and takes the same
steps.  If it answers yes, so does a search with any larger budget, or with none. -/
theorem Graph.decideIn_budget (g : Graph) (c : Category) (x : Term) (b : Nat) (b' : Option Nat)
    (hb : ∀ n, b' = some n → b ≤ n) :
    let run (budget : Option Nat) := g.union.decideIn c x { budget }
    (run (some b)).2.steps ≤ b ∧
      ((run (some b)).2.exhausted = false →
        (run (some b)).1 = (run none).1 ∧ (run (some b)).2.steps = (run none).2.steps) ∧
      ((run (some b)).1 = true → (run b').1 = true) := by
  intro run
  refine ⟨steps_decideIn_le, fun hex => ?_, (decideIn_pace fun n hn => ⟨b, rfl, hb n hn⟩).yes⟩
  have hsame : run none = ((run (some b)).1, (run (some b)).2.withBudget none) :=
    (decideIn_pace fun _ h => absurd h.symm (Option.some_ne_none _)).same hex
  rw [hsame]
  exact ⟨rfl, rfl⟩

/-- A filler of a restriction on a blank property that also is the domain of an unknown property:
one question is enough to use the budget up, and the filler is still found to be a class, by the
restriction; two questions find the same. -/
theorem Graph.decideIn_budget_exhausted :
    let n : Node := .iri (.ofValue "http://example.org/n")
    let p : Node := .iri (.ofValue "http://example.org/p")
    let r : Node := .blank ⟨"r"⟩
    let g : Graph :=
      { base := .ofList [⟨p, .rdfs .domain, n⟩, ⟨r, .owl .someValuesFrom, n⟩,
          ⟨r, .owl .onProperty, (.blank ⟨"q"⟩ : Node)⟩] }
    let run (budget : Option Nat) := g.union.decideIn .owlClass n { budget }
    (∀ k, some 2 = some k → 1 ≤ k) ∧ (run (some 1)).2.exhausted = true ∧
      (run (some 1)).2.steps ≤ 1 ∧ (run (some 1)).1 = true ∧ (run (some 2)).1 = true := by
  intro n p r g run
  have hle : ∀ k, some 2 = some k → 1 ≤ k := by
    rintro k ⟨⟩
    decide
  have hex : (run (some 1)).2.exhausted = true := by decide +kernel
  have hyes : (run (some 1)).1 = true := by decide +kernel
  -- from here on the graph is any graph, and nothing is computed
  clear_value g
  obtain ⟨hsteps, -, hlarger⟩ := g.decideIn_budget .owlClass n 1 (some 2) hle
  exact ⟨hle, hex, hsteps, hyes, hlarger hyes⟩

end Ontograph
