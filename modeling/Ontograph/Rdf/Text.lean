import Ontograph.Rdf.Term

/-!
# Written forms of terms and triples

Terms are written as in N-Triples. Inside the quotes of a literal seven characters have a short
escape, the other control characters and the two noncharacters `U+FFFE` and `U+FFFF` a numeric one,
and every other character stands for itself. IRIs and blank node labels are written as they are.
-/

namespace Ontograph

/-! ## Quoted text -/

namespace Quoted

/-- The upper case hexadecimal digit of a number below sixteen. -/
def hexDigit (n : Nat) : Char := "0123456789ABCDEF".toList.getD n '0'

/-- The numeric escape of a character: four hexadecimal digits. -/
def numeric (n : Nat) : List Char :=
  ['\\', 'u', hexDigit (n / 4096 % 16), hexDigit (n / 256 % 16), hexDigit (n / 16 % 16),
    hexDigit (n % 16)]

/-- Must the character be written with a numeric escape? -/
def isHidden (n : Nat) : Bool := n < 0x20 || n == 0x7F || n == 0xFFFE || n == 0xFFFF

/-- How one character is written between quotes. -/
def encodeChar (c : Char) : List Char :=
  match c.toNat with
  | 0x08 => ['\\', 'b']
  | 0x09 => ['\\', 't']
  | 0x0A => ['\\', 'n']
  | 0x0C => ['\\', 'f']
  | 0x0D => ['\\', 'r']
  | 0x22 => ['\\', '"']
  | 0x5C => ['\\', '\\']
  | n => if isHidden n then numeric n else [c]

/-- How a text is written between quotes. -/
def encode (cs : List Char) : List Char := cs.flatMap encodeChar

end Quoted

/-- A text between quotes, escaped. -/
def quoted (s : String) : String := String.ofList ('"' :: Quoted.encode s.toList ++ ['"'])

/-! ## Terms -/

/-- The written form of a blank node. -/
def Blank.text (b : Blank) : String := "_:" ++ b.label

/-- The written form of a node. -/
def Node.text : Node → String
  | .iri i => i.text
  | .blank b => b.text

/-- The written form of a literal. -/
def Literal.text : Literal → String
  | .plain value => quoted value
  | .tagged value language => quoted value ++ "@" ++ language
  | .typed value datatype _ => quoted value ++ "^^" ++ datatype.text

/-- The written form of a term. -/
def Term.text : Term → String
  | .node n => n.text
  | .literal l => l.text

/-- The written form of a triple: its three terms, a space between them. -/
def Triple.text (t : Triple) : String :=
  t.subject.text ++ " " ++ t.predicate.text ++ " " ++ t.object.text

end Ontograph
