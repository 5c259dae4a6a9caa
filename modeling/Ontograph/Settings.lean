/-!
# Settings

The bounds that an ontology is worked on with.
-/

namespace Ontograph

/-- How much work may be spent on an ontology, and whether a loaded graph is normalized. -/
structure Settings where
  /-- How many questions one search for a category may evaluate; without a number, any. -/
  budget : Option Nat := none
  /-- How many items of one list are read. -/
  listLimit : Nat := 10000
  /-- How many rounds a normalization runs; at least one is always run. -/
  rounds : Nat := 8
  /-- Is a graph normalized when it is loaded? -/
  normalizeOnLoad : Bool := true
  deriving DecidableEq

end Ontograph
