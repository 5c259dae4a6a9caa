import Ontograph.Rdf.Term

/-!
# The rank of terms

Where several terms answer a look-up they are listed by rank: IRIs first, then blank nodes, then
plain literals, those with a language and those with a datatype. Terms of equal rank are listed in
the order in which they came.

The rank is a convention. It fixes one of the orders in which a store may list the same triples, so
that a look-up that several terms answer always gives the same one of them. No result depends on
it: the theorems are about sets whose triples are listed in whatever order they are.
-/

namespace Ontograph

/-- The rank of a node. -/
def Node.rank : Node → Nat
  | .iri _ => 0
  | .blank _ => 1

/-- The rank of a term; literals come after nodes. -/
def Term.rank : Term → Nat
  | .node n => n.rank
  | .literal (.plain _) => 2
  | .literal (.tagged _ _) => 3
  | .literal (.typed _ _ _) => 4

/-- Is the triple listed before the other one: by the rank of its object, then of its subject? Only
insertions into a set ask this. -/
def Triple.precedes (t u : Triple) : Bool :=
  decide (t.object.rank < u.object.rank ∨
    t.object.rank = u.object.rank ∧ t.subject.rank < u.subject.rank)

end Ontograph
