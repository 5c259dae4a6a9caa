import Ontograph.Graph.TripleSet
import Ontograph.Rdf.Text

/-!
# RDF lists

A list is a chain of cells from a head to `rdf:nil`, each with an `rdf:first` item and an
`rdf:rest` cell. `readList` follows the chain and refuses a chain that does not end well;
`listTriples` gathers the triples of the cells it passes. A list belongs to the triples that point
at its head: `listLinks` finds them by walking back from an item.
-/

namespace Ontograph

/-! ## What can be wrong with a list -/

/-- Why a list cannot be read. -/
inductive ListDefect
  | literalCell
  | cyclic
  | tooLong (limit : Nat)
  | missingFirst
  | missingRest
  deriving DecidableEq, Repr

/-- The reason in words. -/
def ListDefect.message : ListDefect → String
  | .literalCell => "a list cell is a literal"
  | .cyclic => "the list is cyclic"
  | .tooLong limit =>
    "the list is longer than " ++ String.ofList (Nat.toDigits 10 limit) ++ " items"
  | .missingFirst => "missing rdf:first"
  | .missingRest => "missing rdf:rest"

/-- A list that cannot be read, named by its head. -/
structure MalformedList where
  head : Term
  defect : ListDefect
  deriving DecidableEq

/-- The refusal in words. -/
def MalformedList.message (e : MalformedList) : String :=
  "malformed RDF list starting at " ++ e.head.text ++ ": " ++ e.defect.message

namespace TripleSet

/-! ## Reading forwards -/

/-- The items of the list from a cell on, given the cells already passed. A list may have at most
`limit` items, if a limit is given. A cell met again is reported before the limit, and the limit
before a missing item. -/
def readCells (S : TripleSet) (limit : Option Nat) (visited : List Node) :
    Term → Except ListDefect (List Term)
  | .literal _ => .error .literalCell
  | .node c =>
    if c = .iri (.rdf .nil) then .ok []
    else if hc : c ∈ visited then .error .cyclic
    else match limit.filter (· ≤ visited.length) with
    | some n => .error (.tooLong n)
    | none =>
      match hf : S.object? c (.rdf .first) with
      | none => .error .missingFirst
      | some first =>
        match S.object? c (.rdf .rest) with
        | none => .error .missingRest
        | some rest =>
          have := unvisited_cons_lt hc (mem_of_object? hf) rfl
          (readCells S limit (c :: visited) rest).map (first :: ·)
termination_by S.unvisited visited

/-- The items of a list. -/
def readList (S : TripleSet) (limit : Nat) (head : Term) : Except MalformedList (List Term) :=
  (S.readCells (some limit) [] head).mapError (⟨head, ·⟩)

/-- The items of a list of any length; none if it cannot be read. -/
def items (S : TripleSet) (head : Term) : List Term :=
  match S.readCells none [] head with
  | .ok xs => xs
  | .error _ => []

/-- The `rdf:first` and `rdf:rest` triples from a cell on, given the cells already passed. -/
def cellTriples (S : TripleSet) (limit : Nat) (visited : List Node) : Term → List Triple
  | .literal _ => []
  | .node c =>
    if hc : limit ≤ visited.length ∨ c ∈ visited then []
    else
      let firsts := S.statements c (.rdf .first)
      match hr : S.statements c (.rdf .rest) with
      | [] => firsts
      | t :: ts =>
        have ht := mem_statements.1 (hr ▸ List.mem_cons_self : t ∈ S.statements c (.rdf .rest))
        have := unvisited_cons_lt (fun h => hc (.inr h)) ht.1 ht.2.2
        firsts ++ t :: ts ++ cellTriples S limit (c :: visited) t.object
termination_by S.unvisited visited

/-- The `rdf:first` and `rdf:rest` triples of a list. -/
def listTriples (S : TripleSet) (limit : Nat) (head : Term) : List Triple :=
  S.cellTriples limit [] head

/-! ## Walking backwards -/

/-- Is the triple an `rdf:rest` link to the cell? -/
def leadsTo (cell : Node) (t : Triple) : Bool := t.predicate == .rdf .rest && t.object == .node cell

/-- The triples that are no `rdf:rest` link to the cell. -/
def unlink (links : List Triple) (cell : Node) : List Triple :=
  links.filter fun t => !leadsTo cell t

/-- Taking out the links to a cell that one of them leads to leaves fewer of them. -/
theorem length_unlink_lt {links : List Triple} {cell : Node} {t : Triple}
    (h : links.find? (leadsTo cell) = some t) : (unlink links cell).length < links.length := by
  rw [unlink, List.length_filter_lt_length_iff_exists]
  exact ⟨t, List.mem_of_find?_eq_some h, by simp [List.find?_some h]⟩

/-- The head of the list a cell is in: from each cell to the first one it is the rest of, until
there is none. A link is followed once, so the walk stops on a cyclic list too. -/
def headOf (links : List Triple) (cell : Node) : Node :=
  match h : links.find? (leadsTo cell) with
  | none => cell
  | some t =>
    have := length_unlink_lt h
    headOf (unlink links cell) t.subject
termination_by links.length

/-- The predicates whose object is a list of entities. -/
def listPredicates : List Iri :=
  [.owl .disjointUnionOf, .owl .members, .owl .distinctMembers, .owl .oneOf,
    .owl .propertyChainAxiom, .owl .unionOf, .owl .intersectionOf]

/-- The triples that give some node a list with the term among its items. -/
def listLinks (S : TripleSet) (item : Term) : List Triple :=
  (S.subjects (.rdf .first) item).flatMap fun cell =>
    (S.incoming (headOf S.toList cell)).filter fun t => listPredicates.contains t.predicate

end TripleSet

end Ontograph
