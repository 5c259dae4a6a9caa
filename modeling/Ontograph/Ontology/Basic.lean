import Ontograph.Canonical.Pipeline
import Ontograph.Index.Store
import Ontograph.View.Accessors
import Ontograph.View.Factory

/-!
# Ontologies

An ontology is one graph, seen as triples, as axioms and as views of nodes. Triples and axioms may
be edited in any order: the store keeps its indices in line with the graph, and drops them when
the graph is normalized or replaced or its imports change.
-/

namespace Ontograph

/-- A graph with names for new blank nodes, the store of its axioms, and the views it offers. -/
structure Ontology where
  bench : Workbench
  store : AxiomStore := {}
  personality : Personality := .owl2

namespace Ontology

variable (o : Ontology)

/-- The graph of the ontology. -/
abbrev graph : Graph := o.bench.graph

/-- The settings of the ontology. -/
abbrev settings : Settings := o.store.settings

/-- All triples of the ontology. -/
def triples : TripleSet := o.graph.union

/-! ## Loading -/

/-- Normalizes the graph. Also answers what was done; the indices stay if nothing was. -/
def normalize : Report × Ontology :=
  let (report, bench) := Pipeline.standard.normalize o.settings o.bench
  (report, { o with bench, store := if report.isUnchanged then o.store else o.store.invalidate })

/-- The ontology of a graph, normalized first if the settings say so. -/
def ofGraph (s : Settings) (bench : Workbench) : Ontology :=
  let o : Ontology := { bench, store := { settings := s } }
  if s.normalizeOnLoad then o.normalize.2 else o

/-- The ontology with another choice of views. -/
def withPersonality (P : Personality) : Ontology := { o with personality := P }

/-! ## The graph -/

/-- Writes a triple to the base. Also answers whether it was new. -/
def insert (t : Triple) : Bool × Ontology :=
  let (r, store, graph) := o.store.insertTriple o.graph t
  (r, { o with store, bench := { o.bench with graph } })

/-- Takes a triple out of the base. Also answers whether it was there. -/
def remove (t : Triple) : Bool × Ontology :=
  let (r, store, graph) := o.store.removeTriple o.graph t
  (r, { o with store, bench := { o.bench with graph } })

/-- Works on another graph from now on. -/
def replaceGraph (g : Graph) : Ontology :=
  { o with store := o.store.invalidate, bench := { o.bench with graph := g } }

/-- Adds an import. -/
def addImport (i : Import) : Ontology :=
  { o with bench := { o.bench with graph := o.graph.addImport i } }

/-- Takes out the import with a given tag. Also answers whether there was one. -/
def removeImport (tag : Nat) : Bool × Ontology :=
  let (r, graph) := o.graph.dropImport tag
  (r, { o with bench := { o.bench with graph } })

/-! ## The header -/

/-- The node of the base that is typed as the ontology. -/
def header? : Option Node :=
  (o.graph.base.subjects (.rdf .type) (.iri (.owl .Ontology) : Node)).head?

/-- The IRI of the ontology, if its header is named. -/
def iri? : Option Iri := o.header?.bind Node.iri?

/-- The IRIs that the header has for a predicate. -/
def headerIris (p : Iri) : List Iri :=
  match o.header? with
  | some n => (o.triples.objects n p).filterMap Term.iri?
  | none => []

/-- The IRI of this version of the ontology. -/
def versionIri? : Option Iri := (o.headerIris (.owl .versionIRI)).head?

/-- The IRIs of the ontologies that the header says are imported. -/
def importedIris : List Iri := o.headerIris (.owl .imports)

/-! ## Axioms -/

/-- Reads the store of axioms. -/
def readStore {α : Type} (f : AxiomStore → Graph → α × AxiomStore) : α × Ontology :=
  let (r, store) := f o.store o.graph
  (r, { o with store })

/-- Writes an axiom. Answers false if it is there already. -/
def addAxiom (a : AnnotatedAxiom) : Except AxiomError Bool × Ontology :=
  let (r, store, bench) := o.store.add o.bench a
  (r, { o with store, bench })

/-- Removes an axiom. Answers false if it is not there, or not to be removed. -/
def removeAxiom (a : AnnotatedAxiom) : Except AxiomError Bool × Ontology :=
  let (r, store, bench) := o.store.remove o.bench a
  (r, { o with store, bench })

/-- Is the axiom in the ontology? -/
def containsAxiom (a : AnnotatedAxiom) : Bool × Ontology := o.readStore (·.contains · a)

/-- The footprints of an axiom. -/
def footprints (a : AnnotatedAxiom) : List Footprint × Ontology := o.readStore (·.footprints · a)

/-- The axioms of the ontology. -/
def axioms : List AnnotatedAxiom × Ontology := o.readStore (·.axioms ·)

/-- The number of axioms. -/
def axiomCount : Nat × Ontology := o.readStore (·.count ·)

/-- The axioms of a kind. -/
def axiomsOfKind (k : AxiomKind) : List AnnotatedAxiom × Ontology :=
  o.readStore (·.axiomsOfKind · k)

/-- The axioms about an entity or individual. -/
def axiomsAbout (x : Term) : List AnnotatedAxiom × Ontology := o.readStore (·.axiomsAbout · x)

/-- The general class axioms. -/
def generalAxioms : List AnnotatedAxiom × Ontology := o.readStore (·.generalAxioms ·)

/-! ## Views -/

/-- The categories of a term. -/
def classify (x : Term) : Classification := o.triples.classify o.settings.budget x

/-- A term under an interface, whether it admits the term or not. -/
def viewAs (i : Interface) (x : Term) : View := ⟨i, x, o.triples, o.settings.listLimit⟩

/-- Can the term be seen under the interface? One that is not supported admits nothing. -/
def canView (i : Interface) (x : Term) : Bool :=
  (o.personality.factory? i).any fun f => f.admits o.triples o.settings.budget x

/-- A term seen under an interface. -/
def view (i : Interface) (x : Term) : Except ViewError View := do
  (← o.personality.factory i).check o.triples o.settings.budget x
  return o.viewAs i x

/-- Every term that can be found under an interface. -/
def findAll (i : Interface) : Except ViewError (List Term) :=
  (o.personality.factory i).map fun f => f.findAll o.triples o.settings.budget

/-- Makes a term an instance of an interface. Answers whether that was possible, with the ontology
it leaves behind. -/
def create (i : Interface) (x : Term) : Except CreateError Unit × Ontology :=
  match o.personality.factory i with
  | .error e => (.error (.view e), o)
  | .ok f =>
    let (r, graph) := f.create o.settings.budget o.graph x
    (r, { o with bench := { o.bench with graph } })

end Ontology

end Ontograph
