import Ontograph.Canonical.Legacy
import Ontograph.Canonical.Typing
import Ontograph.Canonical.Header
import Ontograph.Canonical.Declarations

/-!
# Normalization

A pipeline runs its passes in order, round after round, until a round changes nothing or the
rounds run out. The report says what each pass of each round changed.
-/

namespace Ontograph

/-- What one pass did in one round. -/
structure PassReport where
  name : String
  round : Nat
  changes : Nat
  deriving DecidableEq, Repr

/-- How many triples the passes of some reports added or took out. -/
def PassReport.total : List PassReport → Nat
  | [] => 0
  | r :: rs => r.changes + total rs

/-- What a normalization did: how many rounds it ran, the passes in the order in which they ran,
and whether the last round changed nothing. -/
structure Report where
  rounds : Nat
  passes : List PassReport
  converged : Bool
  deriving DecidableEq, Repr

namespace Report

/-- How many triples the passes added or took out. -/
def changes (r : Report) : Nat := PassReport.total r.passes

/-- Did no pass change anything? -/
def isUnchanged (r : Report) : Bool := r.changes == 0

end Report

/-- Passes in the order in which a round runs them. -/
abbrev Pipeline := List Pass

namespace Pipeline

/-- Superseded vocabulary, then types, then the header, then declarations. -/
def standard : Pipeline := [legacyPass, typingPass, headerPass, declarationPass]

/-- Runs one round: each pass that applies, in order. -/
def round (s : Settings) (number : Nat) : Pipeline → Workbench → List PassReport × Workbench
  | [], w => ([], w)
  | p :: ps, w =>
    if p.applies w.graph then
      let (n, w) := p.run s w
      let (reports, w) := round s number ps w
      (⟨p.name, number, n⟩ :: reports, w)
    else round s number ps w

/-- Runs at most a number of rounds, the first of which has a given number, and reports on them
after the passes already reported on. -/
def runFrom (ps : Pipeline) (s : Settings) (number : Nat) (before : List PassReport) :
    Nat → Workbench → Report × Workbench
  | 0, w => (⟨number - 1, before, false⟩, w)
  | left + 1, w =>
    let (reports, w) := round s number ps w
    if PassReport.total reports = 0 then (⟨number, before ++ reports, true⟩, w)
    else runFrom ps s (number + 1) (before ++ reports) left w

/-- Runs rounds until one changes nothing, or the settings allow no more; at least one is run. -/
def normalize (ps : Pipeline) (s : Settings) (w : Workbench) : Report × Workbench :=
  runFrom ps s 1 [] (max 1 s.rounds) w

end Pipeline

end Ontograph
