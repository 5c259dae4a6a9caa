import Ontograph.Rdf.Name

/-!
# IRIs

An IRI is either a word of one of the four vocabularies or any other text. The two cases never
overlap: the second carries the proof that its text is the text of no word. So equality of IRIs is
equality of their texts, and a rule about `owl:onClass` is a `match` on a constructor.
-/

namespace Ontograph

/-! ## Words of the vocabularies -/

/-- A word of the OWL, RDF, RDF Schema or XML Schema vocabulary. -/
inductive Word
  | owl (n : OwlName)
  | rdf (n : RdfName)
  | rdfs (n : RdfsName)
  | xsd (n : XsdName)
  deriving DecidableEq, Repr

namespace Word

/-- The namespace of the OWL vocabulary. -/
def owlSpace : String := "http://www.w3.org/2002/07/owl#"

/-- The namespace of the RDF vocabulary. -/
def rdfSpace : String := "http://www.w3.org/1999/02/22-rdf-syntax-ns#"

/-- The namespace of the RDF Schema vocabulary. -/
def rdfsSpace : String := "http://www.w3.org/2000/01/rdf-schema#"

/-- The namespace of the XML Schema datatypes. -/
def xsdSpace : String := "http://www.w3.org/2001/XMLSchema#"

/-- The characters of the four reserved namespaces. -/
def spaces : List (List Char) :=
  [owlSpace.toList, rdfSpace.toList, rdfsSpace.toList, xsdSpace.toList]

/-- The full text of a word: its namespace, then its local name. -/
def value : Word → String
  | .owl n => owlSpace ++ n.name
  | .rdf n => rdfSpace ++ n.name
  | .rdfs n => rdfsSpace ++ n.name
  | .xsd n => xsdSpace ++ n.name

/-- What follows the namespace in a text, if the text starts with it. -/
def localPart? (space text : String) : Option String :=
  (space.toList.isPrefixOf? text.toList).map String.ofList

/-- The word with a given full text. -/
def ofValue? (text : String) : Option Word :=
  ((localPart? owlSpace text).bind fun s => (OwlName.ofName? s).map .owl) <|>
  ((localPart? rdfSpace text).bind fun s => (RdfName.ofName? s).map .rdf) <|>
  ((localPart? rdfsSpace text).bind fun s => (RdfsName.ofName? s).map .rdfs) <|>
  ((localPart? xsdSpace text).bind fun s => (XsdName.ofName? s).map .xsd)

end Word

/-! ## IRIs -/

/-- An IRI: a word, or a text that is the text of no word. -/
inductive Iri
  | word (w : Word)
  | other (text : String) (unnamed : Word.ofValue? text = none)
  deriving DecidableEq

namespace Iri

/-- The IRI `owl:n`. -/
@[match_pattern] abbrev owl (n : OwlName) : Iri := .word (.owl n)

/-- The IRI `rdf:n`. -/
@[match_pattern] abbrev rdf (n : RdfName) : Iri := .word (.rdf n)

/-- The IRI `rdfs:n`. -/
@[match_pattern] abbrev rdfs (n : RdfsName) : Iri := .word (.rdfs n)

/-- The IRI `xsd:n`. -/
@[match_pattern] abbrev xsd (n : XsdName) : Iri := .word (.xsd n)

/-- The characters of the IRI, as one text. -/
def value : Iri → String
  | .word w => w.value
  | .other text _ => text

/-- The IRI with a given text. -/
def ofValue (text : String) : Iri :=
  match h : Word.ofValue? text with
  | some w => .word w
  | none => .other text h

instance : Inhabited Iri := ⟨.owl .Thing⟩

/-- Is the IRI in one of the four reserved namespaces? -/
def isReserved : Iri → Bool
  | .word _ => true
  | .other text _ =>
    let chars := text.toList
    Word.spaces.any fun space => space.isPrefixOf chars

/-- The written form: the text between angle brackets, nothing escaped. -/
def text (i : Iri) : String := "<" ++ i.value ++ ">"

end Iri

end Ontograph
