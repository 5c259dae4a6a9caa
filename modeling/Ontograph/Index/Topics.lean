import Ontograph.Index.Table
import Ontograph.Owl.Axiom

/-!
# The index of topics

Axioms filed under the entities and individuals they are about. The general class axioms, which
are about no class, have a list of their own.
-/

namespace Ontograph

/-- Axioms by topic, and the general class axioms. -/
structure TopicIndex where
  byTopic : Table Node (List AnnotatedAxiom) := ∅
  general : List AnnotatedAxiom := []
  deriving DecidableEq

namespace TopicIndex

variable (I : TopicIndex)

/-- The axioms about a term; there are none about a literal. -/
def about (x : Term) : List AnnotatedAxiom :=
  match x with
  | .node n => I.byTopic.bucket n
  | .literal _ => []

/-- Files an axiom. -/
def insert (a : AnnotatedAxiom) : TopicIndex where
  byTopic := a.base.topics.foldl (fun T n => T.file n a) I.byTopic
  general := if a.base.isGeneral && !I.general.contains a then I.general ++ [a] else I.general

/-- Takes an axiom out of every place it is filed in. -/
def erase (a : AnnotatedAxiom) : TopicIndex where
  byTopic := a.base.topics.foldl (fun T n => T.unfile n a) I.byTopic
  general := I.general.filter fun b => decide (b ≠ a)

/-- The index of some axioms. -/
def ofList (as : List AnnotatedAxiom) : TopicIndex := as.foldl insert {}

end TopicIndex

end Ontograph
