import Ontograph.View.Selection
import Ontograph.View.Creation

/-!
# Factories and personalities

A factory admits, lists and creates the nodes of one interface. A leaf does so with a finder, a
filter and perhaps a maker; a composite asks its leaves. A personality is a choice of factories,
one for each interface it supports.
-/

namespace Ontograph

/-! ## Factories -/

/-- A factory with strategies of its own. -/
structure Leaf where
  interface : Interface
  finder : Finder
  filter : Filter
  maker? : Option Maker := none
  deriving DecidableEq

/-- A factory. -/
inductive Factory
  | leaf (l : Leaf)
  | composite (i : Interface) (leaves : List Leaf)
  deriving DecidableEq

namespace Leaf

variable (S : TripleSet) (budget : Option Nat)

/-- Can the term be seen under the interface? -/
def admits (l : Leaf) (x : Term) : Bool := l.filter.accepts S budget x

/-- Every term that is found and admitted, once. -/
def findAll (l : Leaf) : List Term := (l.finder.find S).eraseDups.filter (l.admits S budget)

end Leaf

namespace Factory

/-- The interface of the factory. -/
def interface : Factory → Interface
  | .leaf l => l.interface
  | .composite i _ => i

/-- The leaves of the factory. -/
def leaves : Factory → List Leaf
  | .leaf l => [l]
  | .composite _ ls => ls

/-- Can the term be seen under the interface? -/
def admits (S : TripleSet) (budget : Option Nat) (f : Factory) (x : Term) : Bool :=
  f.leaves.any fun l => l.admits S budget x

/-- Every term that one of the leaves lists, once. -/
def findAll (S : TripleSet) (budget : Option Nat) (f : Factory) : List Term :=
  (f.leaves.flatMap fun l => l.findAll S budget).eraseDups

/-- Refuses a term that cannot be seen under the interface. -/
def check (S : TripleSet) (budget : Option Nat) (f : Factory) (x : Term) : Except ViewError Unit :=
  if f.admits S budget x then .ok () else .error (.incompatible x f.interface)

/-- The interface of the first leaf that admits the term. -/
def leafFor? (S : TripleSet) (budget : Option Nat) (f : Factory) (x : Term) : Option Interface :=
  (f.leaves.find? fun l => l.admits S budget x).map Leaf.interface

/-- Makes a term an instance of the interface: the maker is run on the graph if its check passes.
Answers whether that was possible, with the graph it leaves behind. -/
def create (budget : Option Nat) (f : Factory) (g : Graph) (x : Term) :
    Except CreateError Unit × Graph :=
  match f with
  | .composite i _ => (.error (.view (.noMaker i)), g)
  | .leaf l =>
    match l.maker? with
    | none => (.error (.view (.noMaker l.interface)), g)
    | some m =>
      match m.check g.union budget x with
      | .error e => (.error (.make e), g)
      | .ok () =>
        let (r, g) := m.make g x
        (r.mapError .make, g)

end Factory

/-! ## Personalities -/

/-- A choice of factories, by interface. -/
structure Personality where
  factories : List (Interface × Factory)
  deriving DecidableEq

namespace Personality

/-- The personality that supports nothing. -/
def empty : Personality := ⟨[]⟩

/-- The factory of an interface, if it is supported. -/
def factory? (P : Personality) (i : Interface) : Option Factory := P.factories.lookup i

/-- Is the interface supported? -/
def supports (P : Personality) (i : Interface) : Bool := (P.factory? i).isSome

/-- The factory of an interface. -/
def factory (P : Personality) (i : Interface) : Except ViewError Factory :=
  match P.factory? i with
  | some f => .ok f
  | none => .error (.unsupported i)

/-- The supported interfaces. -/
def interfaces (P : Personality) : List Interface := Interface.all.filter P.supports

/-- Supports an interface no longer. -/
def without (P : Personality) (i : Interface) : Personality :=
  ⟨P.factories.filter fun f => f.1 != i⟩

/-- Supports the interface of a factory by that factory. -/
def withFactory (P : Personality) (f : Factory) : Personality :=
  ⟨(f.interface, f) :: (P.without f.interface).factories⟩

/-- The leaf interfaces only. -/
def leavesOnly (P : Personality) : Personality :=
  ⟨P.factories.filter fun f => !f.1.isComposite⟩

/-- The leaves that a composite interface is made of, as far as they are supported. -/
def componentLeaves (P : Personality) (i : Interface) : List Leaf :=
  (i.components.filterMap P.factory?).flatMap Factory.leaves

/-- Supports the composite interfaces that have no factory but supported components. -/
def complete (P : Personality) : Personality :=
  (Interface.all.filter Interface.isComposite).foldl
    (fun Q i =>
      match Q.supports i, Q.componentLeaves i with
      | false, l :: ls => Q.withFactory (.composite i (l :: ls))
      | _, _ => Q)
    P

/-- A leaf for the IRIs of a category, declared by a type. -/
def entityLeaf (i : Interface) (finder : Finder) (c : Category) (declaration : Iri) : Leaf :=
  ⟨i, finder, .and .named (.isA c), some (.entity i declaration)⟩

/-- A leaf for the blank nodes that have a predicate and pass a filter. -/
def structureLeaf (i : Interface) (p : Iri) (rest : Filter → Filter := id) : Leaf :=
  ⟨i, .subjectsOf p, rest (.and .blank (.has p)), none⟩

/-- Predicates and nodes: where a property can be met. -/
def propertyFinder : Finder := .union .predicates .nodes

/-- The leaves of OWL 2. -/
def owl2Leaves : List Leaf :=
  let noDatatype (f : Filter) : Filter := .and f (.not (.isA .datatype))
  [entityLeaf .owlClass .nodes .owlClass (.owl .Class),
    entityLeaf .datatype .nodes .datatype (.rdfs .Datatype),
    entityLeaf .objectProperty propertyFinder .objectProperty (.owl .ObjectProperty),
    entityLeaf .dataProperty propertyFinder .dataProperty (.owl .DatatypeProperty),
    entityLeaf .annotationProperty propertyFinder .annotationProperty (.owl .AnnotationProperty),
    entityLeaf .namedIndividual .nodes .individual (.owl .NamedIndividual),
    ⟨.anonymousIndividual, .nodes, .and .blank (.isA .individual), some .anonymousIndividual⟩,
    structureLeaf .restriction (.owl .onProperty),
    structureLeaf .unionOf (.owl .unionOf) noDatatype,
    structureLeaf .intersectionOf (.owl .intersectionOf) noDatatype,
    structureLeaf .oneOf (.owl .oneOf) noDatatype,
    structureLeaf .complementOf (.owl .complementOf),
    structureLeaf .inverseObjectProperty (.owl .inverseOf),
    ⟨.dataRangeExpression,
      .union (.subjectsOf (.owl .onDatatype)) (.union (.subjectsOf (.owl .datatypeComplementOf))
        (.union (.subjectsOf (.owl .unionOf)) (.union (.subjectsOf (.owl .intersectionOf))
          (.subjectsOf (.owl .oneOf))))),
      .and .blank (.isA .datatype), none⟩]

/-- The factories of OWL 2: its leaves, and every composite interface. -/
def owl2 : Personality :=
  (owl2Leaves.foldl (fun P l => P.withFactory (.leaf l)) empty).complete

end Personality

end Ontograph
