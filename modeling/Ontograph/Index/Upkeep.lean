import Ontograph.Classify.Locality
import Ontograph.Index.Ascent
import Ontograph.Index.Axioms
import Ontograph.Index.Topics

/-!
# Keeping the indices up to date

After an edit of some triples only the main triples near them are read again, and those near each
node that a touched question is now answered differently for. This suffices as long as the touched
questions can be listed and no other question leads to one that changed; where it may not suffice,
`Indices.follow` gives the indices up.
-/

namespace Ontograph

/-- The index of axioms and, once it was asked for, the index of topics. These might be two indices
that are there or not independently of each other. But an index of topics is only ever built from
one of axioms, and is dropped together with it; so it is kept beside it here, and that there are no
topics without axioms holds by the type. -/
structure Indices where
  axioms : AxiomIndex
  topics? : Option TopicIndex := none
  deriving DecidableEq

namespace Indices

/-- The indices of a set of triples before any topic was asked for. -/
def ofSource (R : Source) : Indices := ⟨.ofSource R, none⟩

/-- The index of topics. -/
def topics (I : Indices) : TopicIndex := I.topics?.getD (.ofList I.axioms.axioms)

/-- The indices with an index of topics. -/
def withTopics (I : Indices) : Indices := { I with topics? := some I.topics }

/-- Brings the topics of some axioms in line with the index of axioms. -/
def refile (axioms : AxiomIndex) (touched : List AnnotatedAxiom) (T : TopicIndex) : TopicIndex :=
  touched.foldl (fun T a => if axioms.contains a then T.insert a else T.erase a) T

/-- Reads some main triples again. -/
def refresh (R : Source) (mains : List Triple) (I : Indices) : Indices :=
  let (touched, axioms) := AxiomIndex.rereadAll R mains I.axioms
  ⟨axioms, I.topics?.map (refile axioms touched)⟩

/-- The questions that an edit of some triples touches and that are answered differently after
it; unanswered if those it touches cannot be listed. -/
def changedAnswers? (s : Settings) (before after : TripleSet) (ts : List Triple) :
    Option (List Question) :=
  (before.touched? s.listLimit ts).map fun qs => qs.filter fun q =>
    before.isA s.budget q.category q.node != after.isA s.budget q.category q.node

/-- The indices after an edit of some triples turned one set into another, or none if they have to
be built anew. -/
def follow (I : Indices) (s : Settings) (before after : TripleSet) (ts : List Triple) :
    Option Indices :=
  match changedAnswers? s before after ts with
  | none => none
  | some changed =>
    if changed.any after.isDependedOn then none
    else
      let seeds := ts ++ changed.flatMap fun q => after.mentioning q.node
      some (I.refresh ⟨after, s⟩ (before.mainsNear ts ++ after.mainsNear seeds).eraseDups)

end Indices

end Ontograph
