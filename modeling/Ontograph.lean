import Ontograph.Graph.Collection
import Ontograph.Graph.Text
import Ontograph.Ontology.Shared
import Ontograph.Proofs.Canonical.Convergence
import Ontograph.Proofs.Canonical.Headers
import Ontograph.Proofs.Canonical.Settling
import Ontograph.Proofs.Classify.Budgets
import Ontograph.Proofs.Classify.Locality
import Ontograph.Proofs.Graph.Refinement
import Ontograph.Proofs.Mapping.Grounding
import Ontograph.Proofs.Mapping.Isolation
import Ontograph.Proofs.Mapping.Nesting
import Ontograph.Proofs.Mapping.OrderIndependence
import Ontograph.Proofs.Mapping.RoundTrip
import Ontograph.Proofs.Index.Entries
import Ontograph.Proofs.Index.Writing
import Ontograph.Proofs.Index.Current
import Ontograph.Proofs.Ontology.Generations
import Ontograph.Proofs.Ontology.Runs
import Ontograph.Proofs.Index.Additions
import Ontograph.Proofs.Index.Agreement
import Ontograph.Proofs.Index.Ascent
import Ontograph.Proofs.Index.Effect
import Ontograph.Proofs.Index.Reachable
import Ontograph.Proofs.Index.Removals
import Ontograph.Proofs.View.Agreement
import Ontograph.Proofs.View.Listing
import Ontograph.Proofs.View.Making
