import Ontograph.Ontology.Basic
import Ontograph.Proofs.Canonical.Accounting

/-!
# Generations

A store tells by the generation of a graph whether its indices are still in line with it.  This is
sound because every way to work on a graph either leaves it alone or moves its generation on
(`Graph.Later`): the single edits, the passes of a normalization, the makers of nodes, and changes
of the imports.
-/

namespace Ontograph

namespace Graph

variable {g g' g'' : Graph} {t : Triple}

/-- The graph is the other one, or has a later generation. -/
def Later (g g' : Graph) : Prop := g' = g ∨ g.generation < g'.generation

/-- A graph is no later than itself, and the same. -/
theorem Later.refl : g.Later g := Or.inl rfl

/-- What is later than a later graph is later. -/
theorem Later.trans (h : g.Later g') (h' : g'.Later g'') : g.Later g'' := by
  rcases h with rfl | h
  · exact h'
  · rcases h' with rfl | h'
    · exact Or.inr h
    · exact Or.inr (Nat.lt_trans h h')

/-- A later graph of the same generation is the same graph. -/
theorem Later.eq (h : g.Later g') (hsame : g'.generation = g.generation) : g' = g := by
  rcases h with rfl | h
  · rfl
  · omega

/-- A later graph has no earlier generation. -/
theorem Later.le (h : g.Later g') : g.generation ≤ g'.generation := by
  rcases h with rfl | h
  · exact Nat.le_refl _
  · omega

/-- An insertion makes a graph later, if it changes it. -/
theorem later_insert : g.Later (g.insert t).2 := by
  unfold insert
  split
  case isTrue => exact .refl
  case isFalse => exact Or.inr (Nat.lt_succ_self _)

/-- Adding an import makes a graph later. -/
theorem later_addImport {i : Import} : g.Later (g.addImport i) := Or.inr (Nat.lt_succ_self _)

/-- Dropping imports makes a graph later, if there are any to drop. -/
theorem later_dropImport {tag : Nat} : g.Later (g.dropImport tag).2 := by
  unfold dropImport
  split
  case isTrue => exact Or.inr (Nat.lt_succ_self _)
  case isFalse => exact .refl

/-- Changes that are counted make a graph later. -/
theorem Becomes.later {n : Nat} (h : g.Becomes n g') : g.Later g' := by
  cases n with
  | zero => exact Or.inl (h.eq_of_zero rfl)
  | succ n =>
    right
    rw [h.generation]
    omega

end Graph

open Ontograph.Graph

/-- A normalization leaves the graph alone or moves its generation on. -/
theorem Pipeline.later_normalize {s : Settings} {w : Workbench} :
    w.graph.Later (standard.normalize s w).2.graph := (becomes_normalize fun _ hp => hp).later

/-! ## Creating -/

variable {f : Factory} {m : Maker} {budget : Option Nat} {g g' : Graph} {i : Interface} {x : Term}
  {o o' : Ontology}

/-- A maker leaves the graph alone or moves its generation on. -/
theorem Maker.later_make : g.Later (m.make g x).2 := by
  unfold make
  split
  case h_1 => exact later_insert
  case h_2 => exact .refl
  case h_3 => exact later_insert
  case h_4 => exact .refl

namespace Factory

/-- The maker of the factory; a composite has none. -/
def maker? : Factory → Option Maker
  | .leaf l => l.maker?
  | .composite _ _ => none

/-- A factory with a maker creates what the maker lets pass. -/
theorem create_eq_ok_iff : f.create budget g x = (.ok (), g') ↔
    ∃ m, f.maker? = some m ∧ m.check g.union budget x = .ok () ∧ m.make g x = (.ok (), g') := by
  cases f with
  | composite => simp [create, maker?]
  | leaf l =>
    unfold create maker?
    dsimp only
    cases l.maker? with
    | none => simp
    | some m =>
      dsimp only
      cases hcheck : m.check g.union budget x with
      | error e => simp [hcheck]
      | ok =>
        cases hmake : m.make g x with
        | mk r g'' => cases r <;> simp [hcheck, hmake, Except.mapError]

/-- Creating leaves the graph alone or moves its generation on. -/
theorem later_create : g.Later (f.create budget g x).2 := by
  cases f with
  | composite => exact .refl
  | leaf l =>
    unfold create
    dsimp only
    split
    case h_1 => exact .refl
    case h_2 =>
      split
      case h_1 => exact .refl
      case h_2 => exact Maker.later_make

end Factory

/-- A factory is asked to create, and its graph is taken over. -/
theorem Ontology.create_eq_ok_iff_factory : o.create i x = (.ok (), o') ↔
    ∃ f, o.personality.factory? i = some f ∧
      ∃ g, f.create o.settings.budget o.graph x = (.ok (), g) ∧
        { o with bench := { o.bench with graph := g } } = o' := by
  unfold create Personality.factory
  cases o.personality.factory? i with
  | none => simp
  | some f =>
    dsimp only
    cases hcreate : f.create o.settings.budget o.graph x with
    | mk r g => cases r <;> simp [hcreate]

/-- Creating leaves the graph alone or moves its generation on, and leaves the store as it is. -/
theorem Ontology.later_create :
    o.graph.Later (o.create i x).2.graph ∧ (o.create i x).2.store = o.store := by
  unfold create
  split
  case h_1 => exact ⟨.refl, rfl⟩
  case h_2 f hf => exact ⟨Factory.later_create, rfl⟩

end Ontograph
