import Ontograph.Owl.Entity

/-!
# Expressions

Object property expressions, data ranges and class expressions, with their functional syntax.
Class expressions and data ranges contain lists of themselves, so their equality test is written
out; `ClassExpr.same_iff` and `DataRange.same_iff` say that it is equality.
-/

namespace Ontograph

/-! ## The parts of expressions -/

/-- An object property or the inverse of one. -/
inductive ObjectPropertyExpr
  | named (p : Iri)
  | inverse (p : Iri)
  deriving DecidableEq

namespace ObjectPropertyExpr

/-- The property, seen through a possible inverse. -/
def base : ObjectPropertyExpr → Iri
  | .named p => p
  | .inverse p => p

/-- Is the expression a property and not an inverse? -/
def isNamed : ObjectPropertyExpr → Bool
  | .named _ => true
  | .inverse _ => false

/-- The expression in functional syntax. -/
def text : ObjectPropertyExpr → String
  | .named p => p.text
  | .inverse p => functional "ObjectInverseOf" [p.text]

end ObjectPropertyExpr

/-- The two ways to combine a list of operands. -/
inductive Junction
  | intersection | union
  deriving DecidableEq, Repr

/-- The predicate that holds the operands of a combination. -/
def Junction.predicate : Junction → Iri
  | .intersection => .owl .intersectionOf
  | .union => .owl .unionOf

/-- The name of the combination, without the sort of its operands. -/
def Junction.name : Junction → String
  | .intersection => "IntersectionOf"
  | .union => "UnionOf"

/-- Whether some or all values of a property are restricted. -/
inductive Quantifier
  | some | all
  deriving DecidableEq, Repr

/-- The predicate that holds the filler of a quantified restriction. -/
def Quantifier.predicate : Quantifier → Iri
  | .some => .owl .someValuesFrom
  | .all => .owl .allValuesFrom

/-- The name of the restriction, without the sort of its property. -/
def Quantifier.name : Quantifier → String
  | .some => "SomeValuesFrom"
  | .all => "AllValuesFrom"

/-- How a cardinality bounds the number of values. -/
inductive Bound
  | min | max | exact
  deriving DecidableEq, Repr

namespace Bound

/-- The bounds, in the order in which they are looked for. -/
def all : List Bound := [.min, .max, .exact]

/-- The predicate of a cardinality without filler. -/
def plain : Bound → Iri
  | .min => .owl .minCardinality
  | .max => .owl .maxCardinality
  | .exact => .owl .cardinality

/-- The predicate of a cardinality with a filler. -/
def qualified : Bound → Iri
  | .min => .owl .minQualifiedCardinality
  | .max => .owl .maxQualifiedCardinality
  | .exact => .owl .qualifiedCardinality

/-- The name of the restriction, without the sort of its property. -/
def name : Bound → String
  | .min => "MinCardinality"
  | .max => "MaxCardinality"
  | .exact => "ExactCardinality"

end Bound

/-- The decimal digits of a cardinality. -/
def cardinalityText (n : UInt32) : String := String.ofList (Nat.toDigits 10 n.toNat)

/-! ## Data ranges -/

/-- A data range. -/
inductive DataRange
  | named (d : Iri)
  | junction (j : Junction) (operands : List DataRange)
  | complement (operand : DataRange)
  | oneOf (values : List Literal)
  | restriction (d : Iri) (facets : List (Iri × Literal))

namespace DataRange

/-- The datatype of a data range that is just a datatype. -/
def datatype? : DataRange → Option Iri
  | .named d => some d
  | _ => none

mutual

/-- The data range in functional syntax. -/
def text : DataRange → String
  | .named d => d.text
  | .junction j operands => functional ("Data" ++ j.name) (texts operands)
  | .complement operand => functional "DataComplementOf" [text operand]
  | .oneOf values => functional "DataOneOf" (values.map Literal.text)
  | .restriction d facets =>
    functional "DatatypeRestriction" (d.text :: facets.map fun (f, v) => f.text ++ " " ++ v.text)

/-- The operands in functional syntax. -/
def texts : List DataRange → List String
  | [] => []
  | d :: ds => text d :: texts ds

end

mutual

/-- Are two data ranges the same? -/
def same : DataRange → DataRange → Bool
  | .named d, .named e => d == e
  | .junction j ds, .junction k es => j == k && sameAll ds es
  | .complement d, .complement e => same d e
  | .oneOf vs, .oneOf ws => vs == ws
  | .restriction d fs, .restriction e gs => d == e && fs == gs
  | _, _ => false

/-- Are two lists of data ranges the same? -/
def sameAll : List DataRange → List DataRange → Bool
  | [], [] => true
  | d :: ds, e :: es => same d e && sameAll ds es
  | _, _ => false

end

mutual

/-- Comparing data ranges decides whether they are equal. -/
theorem same_iff : ∀ d e : DataRange, same d e = true ↔ d = e
  | .named _, e => by cases e <;> simp [same]
  | .junction _ ds, e => by cases e <;> simp [same, sameAll_iff ds]
  | .complement d, e => by cases e <;> simp [same, same_iff d]
  | .oneOf _, e => by cases e <;> simp [same]
  | .restriction _ _, e => by cases e <;> simp [same]

/-- Comparing lists of data ranges decides whether they are equal. -/
theorem sameAll_iff : ∀ ds es : List DataRange, sameAll ds es = true ↔ ds = es
  | [], es => by cases es <;> simp [sameAll]
  | d :: ds, es => by cases es <;> simp [sameAll, same_iff d, sameAll_iff ds]

end

instance : DecidableEq DataRange := fun d e => decidable_of_iff _ (same_iff d e)

end DataRange

/-! ## Class expressions -/

/-- A class expression. Cardinalities come with and without a filler. -/
inductive ClassExpr
  | named (c : Iri)
  | junction (j : Junction) (operands : List ClassExpr)
  | complement (operand : ClassExpr)
  | oneOf (members : List Node)
  | objectValues (q : Quantifier) (p : ObjectPropertyExpr) (filler : ClassExpr)
  | objectHasValue (p : ObjectPropertyExpr) (value : Node)
  | objectHasSelf (p : ObjectPropertyExpr)
  | objectCardinality (b : Bound) (n : UInt32) (p : ObjectPropertyExpr)
  | objectQualified (b : Bound) (n : UInt32) (p : ObjectPropertyExpr) (filler : ClassExpr)
  | dataValues (q : Quantifier) (p : Iri) (filler : DataRange)
  | dataHasValue (p : Iri) (value : Literal)
  | dataCardinality (b : Bound) (n : UInt32) (p : Iri)
  | dataQualified (b : Bound) (n : UInt32) (p : Iri) (filler : DataRange)

namespace ClassExpr

/-- Is the expression just a class? -/
def isNamed : ClassExpr → Bool
  | .named _ => true
  | _ => false

/-- The class of an expression that is just a class. -/
def class? : ClassExpr → Option Iri
  | .named c => some c
  | _ => none

mutual

/-- The class expression in functional syntax. -/
def text : ClassExpr → String
  | .named c => c.text
  | .junction j operands => functional ("Object" ++ j.name) (texts operands)
  | .complement operand => functional "ObjectComplementOf" [text operand]
  | .oneOf members => functional "ObjectOneOf" (members.map Node.text)
  | .objectValues q p filler => functional ("Object" ++ q.name) [p.text, text filler]
  | .objectHasValue p value => functional "ObjectHasValue" [p.text, value.text]
  | .objectHasSelf p => functional "ObjectHasSelf" [p.text]
  | .objectCardinality b n p => functional ("Object" ++ b.name) [cardinalityText n, p.text]
  | .objectQualified b n p filler =>
    functional ("Object" ++ b.name) [cardinalityText n, p.text, text filler]
  | .dataValues q p filler => functional ("Data" ++ q.name) [p.text, filler.text]
  | .dataHasValue p value => functional "DataHasValue" [p.text, value.text]
  | .dataCardinality b n p => functional ("Data" ++ b.name) [cardinalityText n, p.text]
  | .dataQualified b n p filler =>
    functional ("Data" ++ b.name) [cardinalityText n, p.text, filler.text]

/-- The operands in functional syntax. -/
def texts : List ClassExpr → List String
  | [] => []
  | c :: cs => text c :: texts cs

end

mutual

/-- Are two class expressions the same? -/
def same : ClassExpr → ClassExpr → Bool
  | .named c, .named d => c == d
  | .junction j cs, .junction k ds => j == k && sameAll cs ds
  | .complement c, .complement d => same c d
  | .oneOf as, .oneOf bs => as == bs
  | .objectValues q p c, .objectValues r s d => q == r && p == s && same c d
  | .objectHasValue p a, .objectHasValue q b => p == q && a == b
  | .objectHasSelf p, .objectHasSelf q => p == q
  | .objectCardinality b n p, .objectCardinality c m q => b == c && n == m && p == q
  | .objectQualified b n p c, .objectQualified e m q d => b == e && n == m && p == q && same c d
  | .dataValues q p d, .dataValues r s e => q == r && p == s && d == e
  | .dataHasValue p v, .dataHasValue q w => p == q && v == w
  | .dataCardinality b n p, .dataCardinality c m q => b == c && n == m && p == q
  | .dataQualified b n p d, .dataQualified c m q e => b == c && n == m && p == q && d == e
  | _, _ => false

/-- Are two lists of class expressions the same? -/
def sameAll : List ClassExpr → List ClassExpr → Bool
  | [], [] => true
  | c :: cs, d :: ds => same c d && sameAll cs ds
  | _, _ => false

end

mutual

/-- Comparing class expressions decides whether they are equal. -/
theorem same_iff : ∀ c d : ClassExpr, same c d = true ↔ c = d
  | .named _, d => by cases d <;> simp [same]
  | .junction _ cs, d => by cases d <;> simp [same, sameAll_iff cs]
  | .complement c, d => by cases d <;> simp [same, same_iff c]
  | .oneOf _, d => by cases d <;> simp [same]
  | .objectValues _ _ c, d => by cases d <;> simp [same, same_iff c, and_assoc]
  | .objectHasValue _ _, d => by cases d <;> simp [same]
  | .objectHasSelf _, d => by cases d <;> simp [same]
  | .objectCardinality _ _ _, d => by cases d <;> simp [same, and_assoc]
  | .objectQualified _ _ _ c, d => by cases d <;> simp [same, same_iff c, and_assoc]
  | .dataValues _ _ _, d => by cases d <;> simp [same, and_assoc]
  | .dataHasValue _ _, d => by cases d <;> simp [same]
  | .dataCardinality _ _ _, d => by cases d <;> simp [same, and_assoc]
  | .dataQualified _ _ _ _, d => by cases d <;> simp [same, and_assoc]

/-- Comparing lists of class expressions decides whether they are equal. -/
theorem sameAll_iff : ∀ cs ds : List ClassExpr, sameAll cs ds = true ↔ cs = ds
  | [], ds => by cases ds <;> simp [sameAll]
  | c :: cs, ds => by cases ds <;> simp [sameAll, same_iff c, sameAll_iff cs]

end

instance : DecidableEq ClassExpr := fun c d => decidable_of_iff _ (same_iff c d)

end ClassExpr

end Ontograph
