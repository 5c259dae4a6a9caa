import Ontograph.Canonical.Legacy
import Ontograph.Classify.Search

/-!
# Settling types

The characteristics that only object properties have make their subjects object properties. A
node that is only said to be functional, or just a property, gets the sort of property that the
graph implies; settling one node may settle another, so this is repeated until nothing changes.
Then the types that say less than another type of the same node are taken out.
-/

namespace Ontograph

namespace TripleSet

variable (S : TripleSet)

/-- The edits that type the subjects of object property characteristics. -/
def characteristicEdits : List Edit :=
  Characteristic.objectOnly.flatMap fun c =>
    (S.typed c.type).map fun n => .add (.typing n (.owl .ObjectProperty))

/-- Is the node typed with a sort of property? -/
def hasPropertyType (n : Node) : Bool := propertyTypes.any fun c => S.hasType n c

/-- The nodes said to be functional, or to be properties, without a sort. -/
def unsortedProperties : List Node :=
  ((S.typed (.owl .FunctionalProperty) ++ S.typed (.rdf .Property)).filter
    fun n => !S.hasPropertyType n).eraseDups

/-- The sort of property that the graph implies for a node, if it does. Only a node that is not
said to be functional can be an annotation property. -/
def impliedSort? (budget : Option Nat) (n : Node) : Option Iri :=
  if S.isA budget .objectProperty n then some (.owl .ObjectProperty)
  else if S.isA budget .dataProperty n then some (.owl .DatatypeProperty)
  else if !S.hasType n (.owl .FunctionalProperty) && S.isA budget .annotationProperty n then
    some (.owl .AnnotationProperty)
  else none

/-- The edits that type the unsorted properties the graph implies a sort for. -/
def sortEdits (budget : Option Nat) : List Edit :=
  S.unsortedProperties.filterMap fun n =>
    (S.impliedSort? budget n).map fun c => .add (.typing n c)

/-- The edits that take out types that say less than another type of their node. -/
def redundancyEdits : List Edit :=
  redundant (.owl .Class) [.owl .Restriction] ++
  redundant (.rdfs .Class) [.owl .Class, .rdfs .Datatype] ++
  redundant (.rdf .Property) propertyTypes
where
  /-- The edits that take out a type where one of some other types is there. -/
  redundant (c : Iri) (others : List Iri) : List Edit :=
    ((S.typed c).filter fun n => others.any fun d => S.hasType n d).map fun n =>
      .delete (.typing n c)

end TripleSet

namespace Graph

/-- Settles the sorts of properties in a bounded number of rounds, up to the first that changes
nothing. Also answers how many triples were added. -/
def settleWithin (budget : Option Nat) : Nat → Graph → Nat × Graph
  | 0, g => (0, g)
  | rounds + 1, g =>
    let (n, g) := g.edits (g.union.sortEdits budget)
    if n = 0 then (0, g)
    else
      let (m, g) := settleWithin budget rounds g
      (n + m, g)

/-- Settles the sorts of properties. A round that changes something settles an unsorted property,
so there is one round more than unsorted properties at most. -/
def settleSorts (budget : Option Nat) (g : Graph) : Nat × Graph :=
  settleWithin budget (g.union.unsortedProperties.length + 1) g

/-- Settles types: of characteristics, of unsorted properties, and without redundant ones. -/
def settleTypes (budget : Option Nat) (g : Graph) : Nat × Graph :=
  let (n, g) := g.edits g.union.characteristicEdits
  let (m, g) := g.settleSorts budget
  let (k, g) := g.edits g.union.redundancyEdits
  (n + m + k, g)

end Graph

/-- Settles types. -/
def typingPass : Pass where
  name := "typing-fixer"
  run := Pass.ofGraph fun s g => g.settleTypes s.budget

end Ontograph
