import Ontograph.Canonical.Edit

/-!
# One ontology header

The base of a normalized graph has exactly one `owl:Ontology` header. Without one, a blank header
is added. Of several, the one with the most statements takes over the statements of the others and
the references to them.
-/

namespace Ontograph

namespace Graph

/-- The headers of the base. -/
def headers (g : Graph) : List Node := g.base.subjects (.rdf .type) (.iri (.owl .Ontology) : Node)

/-- The first of some nodes with the most statements in the base. -/
def fullest? (g : Graph) : List Node → Option Node
  | [] => none
  | n :: ns =>
    match g.fullest? ns with
    | none => some n
    | some m => if (g.base.outgoing m).length > (g.base.outgoing n).length then some m else some n

/-- The edits that hand the statements of a node over to another node. -/
def statementEdits (g : Graph) (loser winner : Node) : List Edit :=
  (g.base.outgoing loser).flatMap fun t => [.add { t with subject := winner }, .delete t]

/-- The edits that make references to a node refer to another node. -/
def referenceEdits (g : Graph) (loser winner : Node) : List Edit :=
  (g.base.incoming loser).flatMap fun t => [.add { t with object := winner }, .delete t]

/-- Replaces a node by another one in the base: its statements first, then the references to it.
Also answers how many triples were added or taken out. -/
def absorb (g : Graph) (winner loser : Node) : Nat × Graph :=
  let (n, g) := g.edits (g.statementEdits loser winner)
  let (m, g) := g.edits (g.referenceEdits loser winner)
  (n + m, g)

/-- Replaces nodes one after another by a node. -/
def absorbAll (g : Graph) (winner : Node) : List Node → Nat × Graph
  | [] => (0, g)
  | loser :: losers =>
    let (n, g) := g.absorb winner loser
    let (m, g) := g.absorbAll winner losers
    (n + m, g)

end Graph

/-- Leaves exactly one header in the base. -/
def Workbench.mergeHeaders (w : Workbench) : Nat × Workbench :=
  match w.graph.fullest? w.graph.headers with
  | none =>
    let (header, supply) := w.supply.take
    let (n, g) := w.graph.edits [.add (.typing header (.owl .Ontology))]
    (n, ⟨g, supply⟩)
  | some winner =>
    let (n, g) := w.graph.absorbAll winner (w.graph.headers.filter (· != winner))
    (n, { w with graph := g })

/-- Leaves exactly one header. -/
def headerPass : Pass where
  name := "header-merger"
  applies g := g.headers.length != 1
  run := fun _ w => w.mergeHeaders

end Ontograph
