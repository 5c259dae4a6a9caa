import Mathlib.Logic.Relation
import Ontograph.Owl.Axiom

/-!
# Expressions inside expressions

Class expressions and data ranges have class expressions and data ranges inside of them.  What is
said of all of them together is said of one type (`Expr`), with the expressions directly inside of
one (`Expr.inner`), those at any depth (`Expr.Inside`), and those an axiom starts from
(`Axiom.exprs`).
-/

namespace Ontograph

/-- A class expression or a data range. -/
inductive Expr
  | cls (c : ClassExpr)
  | rng (d : DataRange)
  deriving DecidableEq

namespace Expr

/-- The expressions directly inside of an expression: its operands, or its filler. -/
def inner : Expr → List Expr
  | .cls (.junction _ cs) => cs.map .cls
  | .cls (.complement c) | .cls (.objectValues _ _ c) | .cls (.objectQualified _ _ _ c) => [.cls c]
  | .cls (.dataValues _ _ d) | .cls (.dataQualified _ _ _ d) => [.rng d]
  | .rng (.junction _ ds) => ds.map .rng
  | .rng (.complement d) => [.rng d]
  | .cls _ | .rng _ => []

/-- The expression is another one, or inside of it at some depth. -/
def Inside (x e : Expr) : Prop := Relation.ReflTransGen (fun outer inner => inner ∈ outer.inner) e x

variable {x e : Expr} {P : Expr → Prop}

/-- What holds inside of an expression holds of it and inside of each expression in it. -/
theorem forall_inside_iff :
    (∀ x, x.Inside e → P x) ↔ P e ∧ ∀ e' ∈ e.inner, ∀ x, x.Inside e' → P x := by
  constructor
  · exact fun h => ⟨h e .refl, fun e' he' x hx => h x (.head he' hx)⟩
  · rintro ⟨hself, hinner⟩ x hx
    rcases Relation.ReflTransGen.cases_head hx with rfl | ⟨e', he', hx⟩
    · exact hself
    · exact hinner e' he' x hx

/-- The expression itself has what is listed in it: operands, members, values or facets. -/
def HasItems : Expr → Prop
  | .cls (.junction _ cs) => cs ≠ []
  | .cls (.oneOf members) => members ≠ []
  | .rng (.junction _ ds) => ds ≠ []
  | .rng (.oneOf values) => values ≠ []
  | .rng (.restriction _ facets) => facets ≠ []
  | .cls _ | .rng _ => True

/-- No list in the expression is empty, at any depth. -/
def Filled (e : Expr) : Prop := ∀ x : Expr, x.Inside e → x.HasItems

/-- An expression is filled if it has its items and what is directly inside is filled. -/
theorem filled_iff : e.Filled ↔ e.HasItems ∧ ∀ e' ∈ e.inner, e'.Filled := forall_inside_iff

end Expr

namespace Axiom

/-- The expressions an axiom is about, in order. -/
def exprs : Axiom → List Expr
  | .subClassOf sub super => [.cls sub, .cls super]
  | .equivalentClasses cs | .disjointClasses cs | .disjointUnion _ cs => cs.map .cls
  | .propertyDomain _ _ c | .objectPropertyRange _ c | .classAssertion c _ | .hasKey c _ _ =>
    [.cls c]
  | .dataPropertyRange _ d | .datatypeDefinition _ d => [.rng d]
  | _ => []

/-- The axiom has as many operands as its kind demands. -/
def HasOperands : Axiom → Prop
  | .equivalentClasses cs => cs.length = 2
  | .equivalentProperties _ ps => ps.length = 2
  | .sameIndividual as => as.length = 2
  | .disjointClasses cs => 2 ≤ cs.length
  | .disjointProperties _ ps => 2 ≤ ps.length
  | .differentIndividuals as => 2 ≤ as.length
  | .subPropertyChainOf chain _ => 2 ≤ chain.length
  | .disjointUnion _ parts => 1 ≤ parts.length
  | .hasKey _ ops dps => 1 ≤ (ops ++ dps).length
  | _ => True

/-- The axiom has enough operands, and no list in its expressions is empty, at any depth. -/
structure WellFormed (ax : Axiom) : Prop where
  operands : ax.HasOperands
  filled : ∀ e ∈ ax.exprs, e.Filled

end Axiom

end Ontograph
