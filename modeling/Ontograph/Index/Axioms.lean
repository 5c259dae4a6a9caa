import Ontograph.Index.Table
import Ontograph.Mapping.Recognise

/-!
# The index of axioms

The index keeps what was read from a set of triples: under each axiom its footprints. Three more
tables follow from these and are kept beside them: the axioms of each kind, the axioms read from
each main triple, and how many of the footprints use each triple.
-/

namespace Ontograph

/-- Axioms with the footprints they were read from. -/
structure AxiomIndex where
  footprints : Table AnnotatedAxiom (List Footprint) := ∅
  byKind : Table AxiomKind (List AnnotatedAxiom) := ∅
  byMain : Table Triple (List AnnotatedAxiom) := ∅
  uses : Table Triple Nat := ∅
  deriving DecidableEq

namespace AxiomIndex

variable (I : AxiomIndex)

/-! ## Reading -/

/-- The axioms, each once. -/
def axioms : List AnnotatedAxiom := I.footprints.keys

/-- The number of axioms. -/
def size : Nat := I.footprints.size

/-- Is the axiom in the index? -/
def contains (a : AnnotatedAxiom) : Bool := (I.footprints.get? a).isSome

/-- The footprints of an axiom. -/
def footprintsOf (a : AnnotatedAxiom) : List Footprint := I.footprints.bucket a

/-- The axioms of a kind. -/
def ofKind (k : AxiomKind) : List AnnotatedAxiom := I.byKind.bucket k

/-! ## Writing -/

/-- Enters a footprint of an axiom, unless it is entered already. -/
def insert (a : AnnotatedAxiom) (f : Footprint) : AxiomIndex :=
  if f ∈ I.footprintsOf a then I
  else
    { footprints := I.footprints.file a f
      byKind := I.byKind.file a.kind a
      byMain := I.byMain.file f.main a
      uses := f.triples.foldl Table.increment I.uses }

/-- Enters what was read. -/
def insertAll (rs : List (AnnotatedAxiom × Footprint)) : AxiomIndex :=
  rs.foldl (fun I r => I.insert r.1 r.2) I

/-- The index of all that is read from a set of triples. -/
def ofSource (R : Source) : AxiomIndex := insertAll {} R.scan

/-- Forgets the footprints of an axiom that have a given main triple, and the axiom itself if it
has no other. -/
def forget (main : Triple) (a : AnnotatedAxiom) : AxiomIndex :=
  let (gone, kept) := (I.footprintsOf a).partition (·.main == main)
  { I with
    footprints := I.footprints.setBucket a kept
    byKind := if kept.isEmpty then I.byKind.unfile a.kind a else I.byKind
    uses := (gone.flatMap Footprint.triples).foldl Table.decrement I.uses }

/-- Forgets every footprint with a given main triple. Also answers whose they were. -/
def eraseMain (main : Triple) : List AnnotatedAxiom × AxiomIndex :=
  let as := I.byMain.bucket main
  (as, as.foldl (fun I a => I.forget main a) { I with byMain := I.byMain.erase main })

/-- Reads a main triple again. Also answers which axioms were or are read from it. -/
def reread (R : Source) (main : Triple) : List AnnotatedAxiom × AxiomIndex :=
  let (gone, I) := I.eraseMain main
  let found := R.axiomsAt main
  (gone ++ found.map Prod.fst, I.insertAll found)

/-- Reads several main triples again. Also answers which axioms were or are read from them. -/
def rereadAll (R : Source) : List Triple → AxiomIndex → List AnnotatedAxiom × AxiomIndex
  | [], I => ([], I)
  | m :: ms, I =>
    let (touched, I) := I.reread R m
    let (others, I) := rereadAll R ms I
    (touched ++ others, I)

/-! ## Triples that leave with an axiom -/

/-- The triples that no footprint of another axiom uses: those used as often by the footprints of
this axiom as by all. -/
def ownTriples (a : AnnotatedAxiom) : List Triple :=
  let used := (I.footprintsOf a).flatMap Footprint.triples
  used.eraseDups.filter fun t => decide (I.uses.count t ≤ used.count t)

end AxiomIndex

end Ontograph
