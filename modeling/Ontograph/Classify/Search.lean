import Ontograph.Classify.Evidence
import Ontograph.Settings

/-!
# Searching for a category

A question is answered by following its leads depth first. The search remembers the questions
under way, which count as answered with no when they are met again, and the answers found, and it
may be given a budget: once that is spent, every open question is answered with no and nothing
more is remembered. A single call starts from an empty search; a caller may also keep one search
over several calls.
-/

namespace Ontograph

/-! ## The state of a search -/

/-- What a search remembers. -/
structure Search where
  underway : List Question := []
  decided : List (Question × Bool) := []
  steps : Nat := 0
  budget : Option Nat := none
  exhausted : Bool := false
  deriving DecidableEq

namespace Search

/-- The answer already found for a question. -/
def known? (σ : Search) (q : Question) : Option Bool := σ.decided.lookup q

/-- One step of the budget, if there is one left. -/
def spend? (σ : Search) : Option Search :=
  if σ.exhausted || σ.budget.any (· ≤ σ.steps) then none
  else some { σ with steps := σ.steps + 1 }

/-- The question is under way from now on. -/
def enter (σ : Search) (q : Question) : Search := { σ with underway := q :: σ.underway }

/-- The question is answered; the answer is remembered unless the budget ran out. -/
def leave (σ : Search) (q : Question) (answer : Bool) : Search :=
  { σ with
    underway := σ.underway.erase q
    decided := if σ.exhausted then σ.decided else (q, answer) :: σ.decided }

/-- Follows leads with a given way to answer questions, up to the first that holds. -/
def follow (answer : Question → Search → Bool × Search) : List Lead → Search → Bool × Search
  | [], σ => (false, σ)
  | .certain :: _, σ => (true, σ)
  | .ask q :: rest, σ =>
    match answer q σ with
    | (true, σ) => (true, σ)
    | (false, σ) => follow answer rest σ

end Search

/-! ## Answering questions -/

namespace TripleSet

variable (S : TripleSet)

/-- Answers a question with a bound on how many questions may be under way at once. -/
def answerWithin : Nat → Question → Search → Bool × Search
  | 0, _, σ => (false, σ)
  | depth + 1, q, σ =>
    match σ.known? q with
    | some answer => (answer, σ)
    | none =>
      if q ∈ σ.underway then (false, σ)
      else match σ.spend? with
      | none => (false, { σ with exhausted := true })
      | some σ =>
        let (answer, σ) :=
          match S.settled? q with
          | some answer => (answer, σ.enter q)
          | none => σ.enter q |> Search.follow (answerWithin depth) (S.leads q)
        (answer, σ.leave q answer)

/-- A bound on the number of questions about the graph: each category for each position of each
triple, and for one node more. -/
def questionBound : Nat := Category.all.length * (3 * S.size + 1) + 1

/-- Answers a question in the course of a search. -/
def answer (q : Question) (σ : Search) : Bool × Search := S.answerWithin S.questionBound q σ

/-- Is the term of the category, as far as a search already begun can tell? A literal has no
category and costs nothing. -/
def decideIn (c : Category) (x : Term) (σ : Search) : Bool × Search :=
  match x with
  | .node n => S.answer ⟨c, n⟩ σ
  | .literal _ => (false, σ)

/-- Is the term of the category? -/
def isA (budget : Option Nat) (c : Category) (x : Term) : Bool :=
  (S.decideIn c x { budget }).1

end TripleSet

/-! ## The roles of a node -/

/-- The role a node plays in an ontology. -/
inductive Role
  | owlClass | objectProperty | dataProperty | annotationProperty | datatype
  | namedIndividual | anonymousIndividual | unclassified
  deriving DecidableEq, Repr

/-- The name of the role. -/
def Role.name : Role → String
  | .owlClass => "Class"
  | .objectProperty => "ObjectProperty"
  | .dataProperty => "DataProperty"
  | .annotationProperty => "AnnotationProperty"
  | .datatype => "Datatype"
  | .namedIndividual => "NamedIndividual"
  | .anonymousIndividual => "AnonymousIndividual"
  | .unclassified => "Unclassified"

/-- The categories of a term, and whether it is a blank node. -/
structure Classification where
  categories : List Category
  anonymous : Bool
  deriving DecidableEq

namespace Classification

/-- The role that goes with a category. -/
def role (k : Classification) : Category → Role
  | .owlClass => .owlClass
  | .objectProperty => .objectProperty
  | .dataProperty => .dataProperty
  | .annotationProperty => .annotationProperty
  | .datatype => .datatype
  | .individual => if k.anonymous then .anonymousIndividual else .namedIndividual

/-- All roles of the node; a node of no category is unclassified. -/
def roles (k : Classification) : List Role :=
  match k.categories with
  | [] => [.unclassified]
  | cs => cs.map k.role

/-- Is the node used in more than one role? -/
def isPunned (k : Classification) : Bool := k.roles.length > 1

end Classification

/-- The categories of a term, each found by a search of its own. -/
def TripleSet.classify (S : TripleSet) (budget : Option Nat) (x : Term) : Classification :=
  ⟨Category.all.filter fun c => S.isA budget c x, x.isBlank⟩

end Ontograph
