import Ontograph.Graph.Layered
import Ontograph.Rdf.Text

/-!
# Written forms of graphs

A graph is written as its triples, a line each, with a dot at the end of the line.
-/

namespace Ontograph

/-- The refusal in words. -/
def InvalidSubject.message (e : InvalidSubject) : String :=
  e.subject.text ++ " can not be used as the subject of a triple"

/-- The lines of a graph, a triple each. -/
def Graph.lines (g : Graph) : List String := g.union.toList.map fun t => t.text ++ " .\n"

/-- The written form of a graph. -/
def Graph.text (g : Graph) : String := String.join g.lines

end Ontograph
