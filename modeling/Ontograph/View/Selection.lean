import Ontograph.Classify.Search

/-!
# Selecting nodes

A finder lists the nodes worth testing, a filter tests one. A finder may list too many nodes, in
any order and repeatedly; the nodes of an interface are those found and accepted.
-/

namespace Ontograph

/-- A way to list candidate nodes. -/
inductive Finder
  | typed (c : Iri)
  | subjectsOf (p : Iri)
  | objectsOf (p : Iri)
  | predicates
  | nodes
  | union (f g : Finder)
  deriving DecidableEq

/-- The candidates that a finder lists, each once in a union. -/
def Finder.find (S : TripleSet) : Finder → List Term
  | .typed c => (S.subjects (.rdf .type) (.iri c : Node)).map .node
  | .subjectsOf p => (S.uses p).map fun t => .node t.subject
  | .objectsOf p => (S.uses p).map Triple.object
  | .predicates => S.toList.map fun t => .node (.iri t.predicate)
  | .nodes => (S.toList.flatMap fun t => [.node t.subject, t.object]).filter fun x => !x.isLiteral
  | .union f g => (f.find S ++ g.find S).eraseDups

/-- A test of a node. -/
inductive Filter
  | named
  | blank
  | isA (c : Category)
  | has (p : Iri)
  | and (f g : Filter)
  | or (f g : Filter)
  | not (f : Filter)
  deriving DecidableEq

/-- Does the filter accept the term? -/
def Filter.accepts (S : TripleSet) (budget : Option Nat) : Filter → Term → Bool
  | .named, x => x.isNamed
  | .blank, x => x.isBlank
  | .isA c, x => S.isA budget c x
  | .has p, x => x.node?.any fun n => S.hasProperty n p
  | .and f g, x => f.accepts S budget x && g.accepts S budget x
  | .or f g, x => f.accepts S budget x || g.accepts S budget x
  | .not f, x => !f.accepts S budget x

end Ontograph
