import Ontograph.Canonical.Edit
import Ontograph.Index.Upkeep

/-!
# The store of axioms

A store answers questions about the axioms of a graph and writes axioms to it. The graph is the
truth: the store only keeps indices of it, built when they are first asked for, and the generation
of the graph they belong to. A write through the store keeps the indices it finds up to date; any
other change of the graph is noticed by its generation, and the indices are dropped.

Writing an axiom is all or nothing: the triples must read back as the axiom, or they are taken out
again. Removing an axiom takes out the triples that no other axiom is read from.
-/

namespace Ontograph

/-- Why an axiom cannot be written. -/
inductive AxiomError
  | malformed (e : MalformedAxiom)
  | roleMismatch (a : AnnotatedAxiom)
  deriving DecidableEq

/-- The refusal in words. -/
def AxiomError.message : AxiomError → String
  | .malformed e => e.message
  | .roleMismatch a =>
    "the graph does not support " ++ a.text ++
      ": the written triples do not read back as the same axiom"

namespace Source

variable (R : Source)

/-- Does the axiom's written main triple fit the triple, where a blank node fits every term? -/
def mainPattern (written : Triple) : TripleSet.Pattern where
  subject? := if written.subject.isBlank then none else some written.subject
  predicate? := some written.predicate
  object? := if written.object.isBlank then none else some written.object

/-- The footprints of an axiom, found from one that was written for it. -/
def locate (a : AnnotatedAxiom) (written : Footprint) : List Footprint :=
  ((R.triples.find (mainPattern written.main)).flatMap R.axiomsAt).filterMap fun r =>
    if r.1 = a then some r.2 else none

/-- The triples that axioms near the given footprints of an axiom, other than it, are read from. -/
def sharedTriples (a : AnnotatedAxiom) (fs : List Footprint) : List Triple :=
  ((R.triples.mainsNear (fs.flatMap Footprint.triples)).flatMap R.axiomsAt).flatMap fun r =>
    if r.1 = a then [] else r.2.triples

/-- Does the main triple read as the axiom? -/
def readsAs (main : Triple) (a : AnnotatedAxiom) : Bool := (R.axiomsAt main).any (·.1 == a)

end Source

/-- The indices kept of a graph, if they are built, and the generation they belong to. An index of
topics can only be there inside of `indices?`, that is beside an index of axioms. -/
structure AxiomStore where
  settings : Settings := {}
  indices? : Option Indices := none
  generation : Nat := 0
  deriving DecidableEq

namespace AxiomStore

variable (st : AxiomStore)

/-! ## The state of the indices -/

/-- Is the index of axioms built? -/
def hasAxiomIndex : Bool := st.indices?.isSome

/-- Is the index of topics built? -/
def hasTopicIndex : Bool := st.indices?.any fun I => I.topics?.isSome

/-- Drops the indices. -/
def invalidate : AxiomStore := { st with indices? := none }

/-- Drops the indices if the graph has changed since they were in line with it. -/
def sync (g : Graph) : AxiomStore :=
  if st.generation = g.generation then st
  else { st with indices? := none, generation := g.generation }

/-- From then on the store is of the generation of the graph. -/
theorem generation_sync {st : AxiomStore} {g : Graph} : (st.sync g).generation = g.generation := by
  unfold sync
  split
  case isTrue hsame => exact hsame
  case isFalse => rfl

/-- Dropping outdated indices leaves the settings alone. -/
theorem settings_sync {st : AxiomStore} {g : Graph} : (st.sync g).settings = st.settings := by
  unfold sync
  split <;> rfl

/-- A graph with the settings of the store. -/
def source (g : Graph) : Source := ⟨g.union, st.settings⟩

/-- The indices of the graph, built if they are not, and the store that keeps them. -/
def indices (g : Graph) : Indices × AxiomStore :=
  let st := st.sync g
  let I := st.indices?.getD (.ofSource (st.source g))
  (I, { st with indices? := some I })

/-- The indices after an edit of some triples, if there are any to keep up to date. -/
def follow (before after : Graph) (ts : List Triple) : AxiomStore :=
  { st with
    indices? := st.indices?.bind fun I => I.follow st.settings before.union after.union ts
    generation := after.generation }

/-! ## Reading -/

/-- Reads the index of axioms. -/
def readAxioms {α : Type} (g : Graph) (f : AxiomIndex → α) : α × AxiomStore :=
  let (I, st) := st.indices g
  (f I.axioms, st)

/-- Reads the index of topics. -/
def readTopics {α : Type} (g : Graph) (f : TopicIndex → α) : α × AxiomStore :=
  let (I, st) := st.indices g
  (f I.topics, { st with indices? := some I.withTopics })

/-- Is the axiom in the graph? -/
def contains (g : Graph) (a : AnnotatedAxiom) : Bool × AxiomStore :=
  st.readAxioms g (·.contains a)

/-- The footprints of an axiom in the graph. -/
def footprints (g : Graph) (a : AnnotatedAxiom) : List Footprint × AxiomStore :=
  st.readAxioms g (·.footprintsOf a)

/-- The axioms of the graph. -/
def axioms (g : Graph) : List AnnotatedAxiom × AxiomStore := st.readAxioms g (·.axioms)

/-- The number of axioms of the graph. -/
def count (g : Graph) : Nat × AxiomStore := st.readAxioms g (·.size)

/-- The axioms of a kind. -/
def axiomsOfKind (g : Graph) (k : AxiomKind) : List AnnotatedAxiom × AxiomStore :=
  st.readAxioms g (·.ofKind k)

/-- The axioms about an entity or individual. -/
def axiomsAbout (g : Graph) (x : Term) : List AnnotatedAxiom × AxiomStore :=
  st.readTopics g (·.about x)

/-- The general class axioms. -/
def generalAxioms (g : Graph) : List AnnotatedAxiom × AxiomStore := st.readTopics g (·.general)

/-! ## Writing -/

/-- Is the axiom in the graph? Without an index its main triple is looked for, by the footprint
written for it. -/
def isPresent (g : Graph) (a : AnnotatedAxiom) (written : Footprint) : Bool :=
  match st.indices? with
  | some I => I.axioms.contains a
  | none => !((st.source g).locate a written).isEmpty

/-- Writes the triples of a footprint that no layer holds, if they make its main triple read as
the axiom. Answers whether there were any. -/
def write (g : Graph) (a : AnnotatedAxiom) (f : Footprint) :
    Except AxiomError Bool × AxiomStore × Graph :=
  let missing := f.triples.filter fun t => !g.contains t
  if missing.isEmpty then (.ok false, st, g)
  else
    let after := (g.insertAll missing).2
    if (st.source after).readsAs f.main a then (.ok true, st.follow g after missing, after)
    else
      let back := (after.removeAll missing).2
      (.error (.roleMismatch a), { st with generation := back.generation }, back)

/-- Writes an axiom to the graph. Answers false if it is there already, or all its triples are. -/
def add (w : Workbench) (a : AnnotatedAxiom) : Except AxiomError Bool × AxiomStore × Workbench :=
  let st := st.sync w.graph
  match a.encode w.supply with
  | .error e => (.error (.malformed e), st, w)
  | .ok (f, supply) =>
    if st.isPresent w.graph a f then (.ok false, st, { w with supply })
    else
      let (r, st, graph) := st.write w.graph a f
      (r, st, { graph, supply })

/-- The triples that leave the graph with an axiom; none if the axiom is not in the graph. Without
an index it is found by the footprint written for it. -/
def leaving? (w : Workbench) (a : AnnotatedAxiom) : Except AxiomError (Option (List Triple)) :=
  match st.indices? with
  | some I => .ok (if I.axioms.contains a then some (I.axioms.ownTriples a) else none)
  | none =>
    match a.encode w.supply with
    | .error e => .error (.malformed e)
    | .ok (written, _) =>
      let R := st.source w.graph
      match R.locate a written with
      | [] => .ok none
      | fs =>
        let shared := R.sharedTriples a fs
        .ok (some ((fs.flatMap Footprint.triples).eraseDups.filter fun t => !shared.contains t))

/-- Removes an axiom from the graph. Answers false if it is not there, or if an import holds one
of the triples that would have to leave with it. -/
def remove (w : Workbench) (a : AnnotatedAxiom) :
    Except AxiomError Bool × AxiomStore × Workbench :=
  let st := st.sync w.graph
  match st.leaving? w a with
  | .error e => (.error e, st, w)
  | .ok none => (.ok false, st, w)
  | .ok (some ts) =>
    if ts.any w.graph.isImported then (.ok false, st, w)
    else
      let after := (w.graph.removeAll ts).2
      (.ok true, st.follow w.graph after ts, { w with graph := after })

/-- Writes a triple to the base. Answers whether it was new. -/
def insertTriple (g : Graph) (t : Triple) : Bool × AxiomStore × Graph :=
  if g.contains t then (false, st, g)
  else
    let after := (g.insert t).2
    (true, (st.sync g).follow g after [t], after)

/-- Takes a triple out of the base. Answers whether it was there. -/
def removeTriple (g : Graph) (t : Triple) : Bool × AxiomStore × Graph :=
  if t ∈ g.base then
    let after := (g.remove t).2
    (true, (st.sync g).follow g after [t], after)
  else (false, st, g)

end AxiomStore

end Ontograph
