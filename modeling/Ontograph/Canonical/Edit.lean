import Ontograph.Graph.Layered
import Ontograph.Mapping.Encode
import Ontograph.Settings

/-!
# Edits and passes

A normalization changes a graph by edits, each of which adds one triple or takes one out of the
base, and counts the edits that changed something. A pass is a named step of a normalization: a
cheap test whether it applies, and the step itself.
-/

namespace Ontograph

/-! ## Edits -/

/-- A change of one triple. -/
inductive Edit
  | add (t : Triple)
  | delete (t : Triple)
  deriving DecidableEq

namespace Graph

/-- Makes one edit. Also answers whether it changed the graph. -/
def edit (g : Graph) : Edit → Bool × Graph
  | .add t => g.insert t
  | .delete t => g.remove t

/-- Makes edits one after another. Also answers how many changed the graph. -/
def edits (g : Graph) : List Edit → Nat × Graph
  | [] => (0, g)
  | e :: es =>
    let (changed, g) := g.edit e
    let (n, g) := g.edits es
    (changed.toNat + n, g)

end Graph

/-! ## Passes -/

/-- A graph under work, with names for new blank nodes. -/
structure Workbench where
  graph : Graph
  supply : Supply
  deriving DecidableEq

/-- A step of a normalization. It answers how many triples it added or took out. -/
structure Pass where
  name : String
  applies : Graph → Bool := fun _ => true
  run : Settings → Workbench → Nat × Workbench

/-- A step that needs no new names. -/
def Pass.ofGraph (step : Settings → Graph → Nat × Graph) (s : Settings) (w : Workbench) :
    Nat × Workbench :=
  let (n, g) := step s w.graph
  (n, { w with graph := g })

end Ontograph
