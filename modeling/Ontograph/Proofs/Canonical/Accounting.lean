import Ontograph.Canonical.Pipeline
import Ontograph.Proofs.Graph.Edits
import Ontograph.Proofs.Mapping.Fresh

/-!
# Counting changes

A normalization counts the triples that it adds and takes out, and the generation of the graph
moves on by exactly that number (`Graph.Becomes`), whatever the passes and the settings.  So a
normalization that counted nothing left the graph alone.

A round that counts nothing leaves the graph alone in each of its passes, and then every later
round does the same.  The one pass that looks at more than the graph is the one that makes a
header of a new name, and that pass always counts a change, provided that the name is not a header
of an import already (`Workbench.NamesNew`).
-/

namespace Ontograph

/-! ## Changes of a graph -/

namespace Graph

variable {g g' g'' : Graph} {n m : Nat} {t : Triple} {e : Edit} {es : List Edit}

/-- A graph became another one in a number of changes of its base: each change moved the generation
on by one, and without a change it is the same graph. -/
structure Becomes (g : Graph) (n : Nat) (g' : Graph) : Prop where
  generation : g'.generation = g.generation + n
  imports : g'.imports = g.imports
  eq_of_zero : n = 0 → g' = g

/-- No change leaves the graph as it is. -/
theorem Becomes.refl : g.Becomes 0 g := ⟨rfl, rfl, fun _ => rfl⟩

/-- Changes made one after another add up. -/
theorem Becomes.trans (h : g.Becomes n g') (h' : g'.Becomes m g'') : g.Becomes (n + m) g'' where
  generation := by rw [h'.generation, h.generation, Nat.add_assoc]
  imports := h'.imports.trans h.imports
  eq_of_zero hzero := by
    have hn : n = 0 := by omega
    have hm : m = 0 := by omega
    exact (h'.eq_of_zero hm).trans (h.eq_of_zero hn)

/-- An insertion is one change, or none if the triple is there already. -/
theorem becomes_insert : g.Becomes (g.insert t).1.toNat (g.insert t).2 := by
  unfold insert
  split
  case isTrue => exact .refl
  case isFalse => exact ⟨rfl, rfl, fun h => absurd h Nat.one_ne_zero⟩

/-- A removal is one change, or none if there is nothing to take out. -/
theorem becomes_remove : g.Becomes (g.remove t).1.toNat (g.remove t).2 := by
  unfold remove
  split
  case isTrue => exact ⟨rfl, rfl, fun h => absurd h Nat.one_ne_zero⟩
  case isFalse => exact .refl

/-- An edit is one change, or none. -/
theorem becomes_edit : g.Becomes (g.edit e).1.toNat (g.edit e).2 := by
  cases e with
  | add t => exact becomes_insert
  | delete t => exact becomes_remove

/-- The edits of a list are as many changes as are counted for them. -/
theorem becomes_edits : g.Becomes (g.edits es).1 (g.edits es).2 := by
  induction es generalizing g with
  | nil => exact .refl
  | cons e es ih => exact becomes_edit.trans ih

/-! ## Edits that change nothing -/

/-- The edit changes nothing: its triple is there already, or there is nothing to take out. -/
def Idle (g : Graph) : Edit → Prop
  | .add t => t ∈ g
  | .delete t => t ∉ g.base

/-- An edit answers that it changed nothing exactly if it is idle. -/
theorem edit_eq_false_iff : (g.edit e).1 = false ↔ g.Idle e := by
  cases e with
  | add t =>
    have hidle : g.Idle (.add t) ↔ g.contains t = true := contains_iff.symm
    rw [hidle, edit, insert]
    cases g.contains t <;> simp
  | delete t =>
    have hidle : g.Idle (.delete t) ↔ t ∉ g.base := Iff.rfl
    rw [hidle, edit, remove]
    by_cases ht : t ∈ g.base <;> simp [ht]

/-- Edits count no change exactly if none of them changes the graph. -/
theorem edits_eq_zero_iff : (g.edits es).1 = 0 ↔ ∀ e ∈ es, g.Idle e := by
  induction es with
  | nil => simp [edits]
  | cons e es ih =>
    have hcount : (g.edits (e :: es)).1 = (g.edit e).1.toNat + ((g.edit e).2.edits es).1 := rfl
    rw [hcount, Nat.add_eq_zero_iff, List.forall_mem_cons]
    have hfirst : (g.edit e).1.toNat = 0 ↔ g.Idle e := by
      rw [← edit_eq_false_iff]
      cases (g.edit e).1 <;> simp
    rw [hfirst]
    refine and_congr_right fun hidle => ?_
    have hsame : (g.edit e).2 = g := becomes_edit.eq_of_zero (hfirst.2 hidle)
    rw [hsame, ih]

/-! ## Passes -/

/-- Rounds that settle the sorts of properties count their changes. -/
theorem becomes_settleWithin {budget : Option Nat} {rounds : Nat} :
    g.Becomes (g.settleWithin budget rounds).1 (g.settleWithin budget rounds).2 := by
  induction rounds generalizing g with
  | zero => exact .refl
  | succ rounds ih =>
    have hedits : g.Becomes (g.edits (g.union.sortEdits budget)).1
        (g.edits (g.union.sortEdits budget)).2 := becomes_edits
    unfold settleWithin
    dsimp only
    split
    case isTrue hzero =>
      rw [hzero] at hedits
      exact hedits
    case isFalse => exact hedits.trans ih

/-- Settling types counts its changes: those of its rounds and of the edits before and after. -/
theorem becomes_settleTypes {budget : Option Nat} :
    g.Becomes (g.settleTypes budget).1 (g.settleTypes budget).2 := by
  unfold settleTypes settleSorts
  dsimp only
  exact (becomes_edits.trans becomes_settleWithin).trans becomes_edits

/-- A settling of types that counted nothing left no type to take out. -/
theorem edits_redundancy_eq_zero {budget : Option Nat} (h : (g.settleTypes budget).1 = 0) :
    (g.edits g.union.redundancyEdits).1 = 0 := by
  have hfirst : g.Becomes (g.edits g.union.characteristicEdits).1
      (g.edits g.union.characteristicEdits).2 := becomes_edits
  have hsettle : ∀ g : Graph, g.Becomes (g.settleSorts budget).1 (g.settleSorts budget).2 :=
    fun _ => becomes_settleWithin
  unfold settleTypes at h
  dsimp only at h
  obtain ⟨hsum, hlast⟩ := Nat.add_eq_zero_iff.1 h
  obtain ⟨hzero, hzero'⟩ := Nat.add_eq_zero_iff.1 hsum
  rw [hfirst.eq_of_zero hzero] at hzero' hlast
  rw [(hsettle g).eq_of_zero hzero'] at hlast
  exact hlast

/-- Replacing nodes by another one counts the triples that are rewritten. -/
theorem becomes_absorbAll {winner : Node} {losers : List Node} :
    g.Becomes (g.absorbAll winner losers).1 (g.absorbAll winner losers).2 := by
  induction losers generalizing g with
  | nil => exact .refl
  | cons loser losers ih => exact (becomes_edits.trans becomes_edits).trans ih

/-- The headers of a graph are what its base types as an ontology. -/
@[simp] theorem mem_headers {n : Node} :
    n ∈ g.headers ↔ Triple.typing n (.owl .Ontology) ∈ g.base := TripleSet.mem_subjects

/-- A node is listed once among the headers. -/
theorem nodup_headers : g.headers.Nodup := by
  refine List.Nodup.filterMap (fun t u n ht hu => ?_) g.base.nodup
  simp only [Option.mem_def, Option.ite_none_right_eq_some, Bool.and_eq_true, beq_iff_eq,
    Option.some.injEq] at ht hu
  obtain ⟨⟨hp, ho⟩, hs⟩ := ht
  obtain ⟨⟨hp', ho'⟩, hs'⟩ := hu
  obtain ⟨s, p, o⟩ := t
  obtain ⟨s', p', o'⟩ := u
  simp only at hp ho hs hp' ho' hs'
  rw [hs, hs', hp, hp', ho, ho']

/-- Headers that are all the same node are one header. -/
theorem length_headers_of_eq {n : Node} (hsome : g.headers ≠ []) (h : ∀ m ∈ g.headers, m = n) :
    g.headers.length = 1 := by
  have hall : g.headers = List.replicate g.headers.length n := List.eq_replicate_iff.2 ⟨rfl, h⟩
  have hnodup : g.headers.Nodup := nodup_headers
  rw [hall, List.nodup_replicate] at hnodup
  have hpos : 0 < g.headers.length := List.length_pos_iff.2 hsome
  omega

/-- A node that loses a header to another node loses a triple. -/
theorem absorbAll_ne_zero {winner loser : Node} {losers : List Node}
    (h : Triple.typing loser (.owl .Ontology) ∈ g.base) :
    (g.absorbAll winner (loser :: losers)).1 ≠ 0 := by
  intro hzero
  have hstatements : (g.edits (g.statementEdits loser winner)).1 = 0 := by
    unfold absorbAll absorb at hzero
    dsimp only at hzero
    omega
  refine edits_eq_zero_iff.1 hstatements (.delete (.typing loser (.owl .Ontology))) ?_ h
  exact List.mem_flatMap.2 ⟨_, TripleSet.mem_outgoing.2 ⟨h, rfl⟩, by simp⟩

/-- Of some nodes, one has the most statements. -/
theorem fullest?_eq_none_iff {ns : List Node} : g.fullest? ns = none ↔ ns = [] := by
  cases ns with
  | nil => simp [fullest?]
  | cons n ns =>
    unfold fullest?
    cases g.fullest? ns with
    | none => simp
    | some m =>
      dsimp only
      split <;> simp

/-- The node with the most statements is one of the nodes it was chosen from. -/
theorem mem_of_fullest? {n : Node} {ns : List Node} (h : g.fullest? ns = some n) : n ∈ ns := by
  induction ns generalizing n with
  | nil => cases h
  | cons m ns ih =>
    unfold fullest? at h
    cases hrest : g.fullest? ns with
    | none =>
      rw [hrest] at h
      cases h
      exact List.mem_cons_self
    | some k =>
      rw [hrest] at h
      dsimp only at h
      split at h
      case isTrue =>
        cases h
        exact List.mem_cons_of_mem _ (ih hrest)
      case isFalse =>
        cases h
        exact List.mem_cons_self

end Graph

open Ontograph.Graph

namespace Workbench

variable {w w' : Workbench}

/-- Merging headers counts its changes, also where it adds a header. -/
theorem becomes_mergeHeaders : w.graph.Becomes w.mergeHeaders.1 w.mergeHeaders.2.graph := by
  unfold mergeHeaders
  split
  case h_1 => exact becomes_edits
  case h_2 => exact becomes_absorbAll

/-- No name still to be taken is an ontology header of an import. -/
def NamesNew (w : Workbench) : Prop :=
  ∀ k, w.supply.next ≤ k →
    w.graph.isImported (.typing (w.supply.nth k) (.owl .Ontology)) = false

/-- Names that are new stay new as names are taken, if the imports stay. -/
theorem NamesNew.of_precedes (h : w.NamesNew) (himports : w'.graph.imports = w.graph.imports)
    (hsupply : w.supply.Precedes w'.supply) : w'.NamesNew := by
  intro k hk
  rw [hsupply.nth_eq, isImported, himports]
  exact h k (Nat.le_trans hsupply.next hk)

/-- A header of a new name counts as a change. -/
theorem NamesNew.mergeHeaders_pos (h : w.NamesNew) (hnone : w.graph.headers = []) :
    w.mergeHeaders.1 ≠ 0 := by
  intro hzero
  have hfullest : w.graph.fullest? w.graph.headers = none := by
    rw [hnone]
    rfl
  unfold mergeHeaders at hzero
  rw [hfullest] at hzero
  have hidle := edits_eq_zero_iff.1 hzero _ (List.mem_singleton_self _)
  rcases hidle with hbase | himported
  · have hheader := mem_headers.2 hbase
    rw [hnone] at hheader
    cases hheader
  · have hnew : w.graph.isImported (.typing (w.supply.nth w.supply.next) (.owl .Ontology)) = true :=
      isImported_iff.2 himported
    rw [h w.supply.next (Nat.le_refl _)] at hnew
    cases hnew

/-- Another number of headers than one counts as a change. -/
theorem NamesNew.mergeHeaders_ne_zero (h : w.NamesNew) (hlength : w.graph.headers.length ≠ 1) :
    w.mergeHeaders.1 ≠ 0 := by
  by_cases hnone : w.graph.headers = []
  · exact h.mergeHeaders_pos hnone
  · unfold mergeHeaders
    cases hfullest : w.graph.fullest? w.graph.headers with
    | none => exact absurd (fullest?_eq_none_iff.1 hfullest) hnone
    | some winner =>
      dsimp only
      cases hlosers : w.graph.headers.filter (· != winner) with
      | nil =>
        have hsame : ∀ n ∈ w.graph.headers, n = winner := by
          simpa using List.filter_eq_nil_iff.1 hlosers
        exact absurd (length_headers_of_eq hnone hsame) hlength
      | cons loser losers =>
        have hloser : loser ∈ w.graph.headers :=
          List.mem_of_mem_filter (hlosers ▸ List.mem_cons_self)
        exact absorbAll_ne_zero (mem_headers.1 hloser)

/-- Where there is a header, the names to come do not matter. -/
theorem mergeHeaders_congr (hsome : w.graph.headers ≠ []) (supply : Supply) :
    mergeHeaders ⟨w.graph, supply⟩ = (w.mergeHeaders.1, ⟨w.mergeHeaders.2.graph, supply⟩) := by
  unfold mergeHeaders
  cases hfullest : w.graph.fullest? w.graph.headers with
  | none => exact absurd (fullest?_eq_none_iff.1 hfullest) hsome
  | some winner => rfl

/-- Merging headers takes one name from the supply, or none. -/
theorem precedes_mergeHeaders : w.supply.Precedes w.mergeHeaders.2.supply := by
  unfold mergeHeaders
  split
  case h_1 => exact Supply.precedes_tail
  case h_2 => exact .refl

end Workbench

/-! ## Rounds -/

namespace PassReport

/-- The totals of two lists of reports add up. -/
theorem total_append {rs rs' : List PassReport} : total (rs ++ rs') = total rs + total rs' := by
  induction rs with
  | nil => exact (Nat.zero_add _).symm
  | cons r rs ih => rw [List.cons_append, total, total, ih, Nat.add_assoc]

end PassReport

namespace Pipeline

open PassReport

variable {p : Pass} {ps : Pipeline} {s : Settings} {w : Workbench} {number left : Nat}
  {before : List PassReport}

/-- A pass that needs no names counts what its step counts, and leaves the names alone. -/
theorem ofGraph_eq {step : Settings → Graph → Nat × Graph} :
    Pass.ofGraph step s w = ((step s w.graph).1, ⟨(step s w.graph).2, w.supply⟩) := rfl

/-- The pass that replaces superseded vocabulary makes the edits for that. -/
theorem run_legacyPass : legacyPass.run s w =
    ((w.graph.edits w.graph.union.legacyEdits).1,
      ⟨(w.graph.edits w.graph.union.legacyEdits).2, w.supply⟩) := by
  unfold legacyPass
  dsimp only
  rw [ofGraph_eq]

/-- The typing pass settles types with the budget of the settings. -/
theorem run_typingPass : typingPass.run s w =
    ((w.graph.settleTypes s.budget).1, ⟨(w.graph.settleTypes s.budget).2, w.supply⟩) := by
  unfold typingPass
  dsimp only
  rw [ofGraph_eq]

/-- The header pass merges the headers of its workbench. -/
theorem run_headerPass : headerPass.run s w = w.mergeHeaders := by
  unfold headerPass
  rfl

/-- The edits of the pass that declares what the graph implies. -/
def declarationEdits (s : Settings) (g : Graph) : List Edit :=
  g.union.classDeclarations s ++ g.union.propertyDeclarations s

/-- The pass that declares what the graph implies makes the edits for that. -/
theorem run_declarationPass : declarationPass.run s w =
    ((w.graph.edits (declarationEdits s w.graph)).1,
      ⟨(w.graph.edits (declarationEdits s w.graph)).2, w.supply⟩) := by
  unfold declarationPass declarationEdits
  dsimp only
  rw [ofGraph_eq]

/-- The standard pipeline has four passes. -/
theorem mem_standard_iff : p ∈ standard ↔
    p = legacyPass ∨ p = typingPass ∨ p = headerPass ∨ p = declarationPass := by
  simp only [standard, List.mem_cons, List.not_mem_nil, or_false]

/-- Every pass of a standard pipeline counts its changes. -/
theorem becomes_run (hp : p ∈ standard) :
    w.graph.Becomes (p.run s w).1 (p.run s w).2.graph := by
  rcases mem_standard_iff.1 hp with rfl | rfl | rfl | rfl
  · rw [run_legacyPass]
    dsimp only
    exact becomes_edits
  · rw [run_typingPass]
    dsimp only
    exact becomes_settleTypes
  · rw [run_headerPass]
    exact Workbench.becomes_mergeHeaders
  · rw [run_declarationPass]
    dsimp only
    exact becomes_edits

/-- A pass takes names from the supply or leaves it alone. -/
theorem precedes_run (hp : p ∈ standard) : w.supply.Precedes (p.run s w).2.supply := by
  rcases mem_standard_iff.1 hp with rfl | rfl | rfl | rfl
  · rw [run_legacyPass]
    exact .refl
  · rw [run_typingPass]
    exact .refl
  · rw [run_headerPass]
    exact Workbench.precedes_mergeHeaders
  · rw [run_declarationPass]
    exact .refl

/-- A pass that applied and changed nothing does so again, whatever the names to come. -/
theorem run_again (hp : p ∈ standard) (hnew : w.NamesNew) (hzero : (p.run s w).1 = 0)
    (supply : Supply) : p.run s ⟨w.graph, supply⟩ = (0, ⟨w.graph, supply⟩) := by
  have hsame : (p.run s w).2.graph = w.graph := (becomes_run hp).eq_of_zero hzero
  have hrun : p.run s ⟨w.graph, supply⟩ = ((p.run s w).1, ⟨(p.run s w).2.graph, supply⟩) := by
    rcases mem_standard_iff.1 hp with rfl | rfl | rfl | rfl
    · rw [run_legacyPass, run_legacyPass]
    · rw [run_typingPass, run_typingPass]
    · -- only a missing header takes a name, and that would have been counted
      rw [run_headerPass] at hzero
      rw [run_headerPass, run_headerPass]
      exact Workbench.mergeHeaders_congr (fun hnone => hnew.mergeHeaders_pos hnone hzero) supply
    · rw [run_declarationPass, run_declarationPass]
  rw [hrun, hzero, hsame]

/-- A round counts what its passes change. -/
theorem becomes_round (hps : ∀ p ∈ ps, p ∈ standard) :
    w.graph.Becomes (total (round s number ps w).1) (round s number ps w).2.graph := by
  induction ps generalizing w with
  | nil => exact .refl
  | cons p ps ih =>
    obtain ⟨hp, hrest⟩ := List.forall_mem_cons.1 hps
    unfold round
    split
    case isTrue => exact (becomes_run hp).trans (ih hrest)
    case isFalse => exact ih hrest

/-- A round takes names from the supply or leaves it alone. -/
theorem precedes_round (hps : ∀ p ∈ ps, p ∈ standard) :
    w.supply.Precedes (round s number ps w).2.supply := by
  induction ps generalizing w with
  | nil => exact .refl
  | cons p ps ih =>
    obtain ⟨hp, hrest⟩ := List.forall_mem_cons.1 hps
    unfold round
    split
    case isTrue => exact (precedes_run hp).trans (ih hrest)
    case isFalse => exact ih hrest

/-- The names to come are still new after a round. -/
theorem namesNew_round (hps : ∀ p ∈ ps, p ∈ standard) (hnew : w.NamesNew) :
    (round s number ps w).2.NamesNew :=
  hnew.of_precedes (becomes_round hps).imports (precedes_round hps)

/-- A round that changed nothing does so again, whatever its number and the names to come. -/
theorem round_again (hps : ∀ p ∈ ps, p ∈ standard) (hnew : w.NamesNew)
    (hzero : total (round s number ps w).1 = 0) (number' : Nat) (supply : Supply) :
    total (round s number' ps ⟨w.graph, supply⟩).1 = 0 ∧
      (round s number' ps ⟨w.graph, supply⟩).2 = ⟨w.graph, supply⟩ := by
  induction ps generalizing w with
  | nil => exact ⟨rfl, rfl⟩
  | cons p ps ih =>
    obtain ⟨hp, hrest⟩ := List.forall_mem_cons.1 hps
    unfold round at hzero ⊢
    by_cases happlies : p.applies w.graph = true
    · rw [if_pos happlies] at hzero
      have hsum : (p.run s w).1 + total (round s number ps (p.run s w).2).1 = 0 := hzero
      have hfirst : (p.run s w).1 = 0 := by omega
      have hsame : (p.run s w).2.graph = w.graph := (becomes_run hp).eq_of_zero hfirst
      have hnew' : (p.run s w).2.NamesNew :=
        hnew.of_precedes (becomes_run hp).imports (precedes_run hp)
      have hlast := ih hrest hnew' (by omega)
      rw [hsame] at hlast
      rw [if_pos happlies, run_again hp hnew hfirst supply]
      exact ⟨(Nat.zero_add _).trans hlast.1, hlast.2⟩
    · rw [if_neg happlies] at hzero ⊢
      exact ih hrest hnew hzero

/-! ## Runs -/

/-- A run adds what its rounds change to what was counted before. -/
theorem becomes_runFrom (hps : ∀ p ∈ ps, p ∈ standard) :
    ∃ n, (runFrom ps s number before left w).1.changes = total before + n ∧
      w.graph.Becomes n (runFrom ps s number before left w).2.graph := by
  induction left generalizing number before w with
  | zero => exact ⟨0, rfl, .refl⟩
  | succ left ih =>
    have hround : w.graph.Becomes (total (round s number ps w).1)
        (round s number ps w).2.graph := becomes_round hps
    unfold runFrom
    dsimp only
    split
    case isTrue => exact ⟨_, total_append, hround⟩
    case isFalse =>
      obtain ⟨n, hn, hbecomes⟩ :
          ∃ n, (runFrom ps s (number + 1) (before ++ (round s number ps w).1) left
              (round s number ps w).2).1.changes = total (before ++ (round s number ps w).1) + n ∧
            (round s number ps w).2.graph.Becomes n
              (runFrom ps s (number + 1) (before ++ (round s number ps w).1) left
                (round s number ps w).2).2.graph := ih
      rw [total_append, Nat.add_assoc] at hn
      exact ⟨_, hn, hround.trans hbecomes⟩

/-- A normalization counts what it changes. -/
theorem becomes_normalize (hps : ∀ p ∈ ps, p ∈ standard) :
    w.graph.Becomes (ps.normalize s w).1.changes (ps.normalize s w).2.graph := by
  obtain ⟨n, hn, hbecomes⟩ :
      ∃ n, (ps.normalize s w).1.changes = total [] + n ∧
        w.graph.Becomes n (ps.normalize s w).2.graph := becomes_runFrom hps
  have hchanges : (ps.normalize s w).1.changes = n := hn.trans (Nat.zero_add n)
  rw [hchanges]
  exact hbecomes

/-- A run that converged ended with a round that changed nothing. -/
theorem exists_last_round (hps : ∀ p ∈ ps, p ∈ standard) (hnew : w.NamesNew)
    (hconverged : (runFrom ps s number before left w).1.converged = true) :
    ∃ number' w', w'.NamesNew ∧ total (round s number' ps w').1 = 0 ∧
      (runFrom ps s number before left w).2 = (round s number' ps w').2 := by
  induction left generalizing number before w with
  | zero => cases hconverged
  | succ left ih =>
    unfold runFrom at hconverged ⊢
    dsimp only at hconverged ⊢
    by_cases hzero : total (round s number ps w).1 = 0
    · rw [if_pos hzero]
      exact ⟨number, w, hnew, hzero, rfl⟩
    · rw [if_neg hzero] at hconverged ⊢
      exact ih (namesNew_round hps hnew) hconverged

/-- From where a round changes nothing, a normalization ends after one round. -/
theorem normalize_of_round (hzero : total (round s 1 ps w).1 = 0)
    (hsame : (round s 1 ps w).2 = w) :
    ps.normalize s w = (⟨1, (round s 1 ps w).1, true⟩, w) := by
  obtain ⟨left, hleft⟩ : ∃ left, max 1 s.rounds = left + 1 := ⟨max 1 s.rounds - 1, by omega⟩
  unfold normalize
  rw [hleft, runFrom]
  dsimp only
  rw [if_pos hzero, hsame, List.nil_append]

/-- **Accounting and idempotence.** A normalization by any passes counts exactly the moves of the
generation, and if it counted none, the graph is as it was.  Once it converged, another
normalization by the same passes is one round that changes nothing, provided that the names to come
are new. -/
theorem changes_eq_and_normalize_again (s : Settings) (w : Workbench)
    (hps : ∀ p ∈ ps, p ∈ standard) :
    let first := ps.normalize s w
    let second := ps.normalize s first.2
    first.2.graph.generation = w.graph.generation + first.1.changes ∧
      (first.1.isUnchanged = true ↔ first.2.graph.generation = w.graph.generation) ∧
      (first.1.isUnchanged = true → first.2.graph = w.graph) ∧
      (w.NamesNew → first.1.converged = true →
        second.1.rounds = 1 ∧ second.1.converged = true ∧ second.1.changes = 0 ∧
          second.2 = first.2) := by
  intro first second
  have hbecomes : w.graph.Becomes first.1.changes first.2.graph := becomes_normalize hps
  have hunchanged : first.1.isUnchanged = true ↔ first.1.changes = 0 := beq_iff_eq
  refine ⟨hbecomes.generation, ?_, fun h => hbecomes.eq_of_zero (hunchanged.1 h),
    fun hnew h => ?_⟩
  · rw [hunchanged, hbecomes.generation]
    omega
  · obtain ⟨number, w', hnew', hzero, hlast⟩ := exists_last_round hps hnew h
    have hfirst : first.2 = (round s number ps w').2 := hlast
    have hgraph : first.2.graph = w'.graph := by
      rw [hfirst]
      exact (becomes_round hps).eq_of_zero hzero
    -- the second run begins with the last round of the first one, under another number
    obtain ⟨hzero', hsame⟩ := round_again hps hnew' hzero 1 first.2.supply
    rw [← hgraph] at hzero' hsame
    have hsecond : second = (⟨1, (round s 1 ps first.2).1, true⟩, first.2) :=
      normalize_of_round hzero' hsame
    rw [hsecond]
    exact ⟨rfl, rfl, hzero', rfl⟩

/-- Two headers, one of them with a statement, and a superseded type, under an import that has a
header of its own: the header pass, the promoter and the typing pass make eight changes. -/
theorem changes_eq_and_normalize_again_headers :
    let a : Node := .iri (.ofValue "http://example.org/a")
    let b : Node := .iri (.ofValue "http://example.org/b")
    let c : Node := .iri (.ofValue "http://example.org/c")
    let header (n : Node) : Triple := .typing n (.owl .Ontology)
    let w : Workbench :=
      ⟨{ base := .ofList [header a, header b, ⟨a, .rdfs .label, .literal (.plain "x")⟩,
          ⟨b, .owl .versionInfo, .literal (.plain "y")⟩, ⟨a, .rdfs .comment, .node b⟩,
          .typing c (.owl .DeprecatedClass)]
         imports := [⟨0, .ofList [header c]⟩] }, ⟨"n", 0⟩⟩
    let ps : Pipeline := [headerPass, legacyPass, typingPass]
    (ps.normalize {} w).1.changes = 8 ∧ (ps.normalize {} w).1.converged = true ∧
      (ps.normalize {} w).2.graph.generation =
        w.graph.generation + (ps.normalize {} w).1.changes ∧
      (ps.normalize {} (ps.normalize {} w).2).1.rounds = 1 ∧
      (ps.normalize {} (ps.normalize {} w).2).2 = (ps.normalize {} w).2 := by
  intro a b c header w ps
  have hps : ∀ p ∈ ps, p ∈ standard := by
    intro p hp
    rw [mem_standard_iff]
    simp only [ps, List.mem_cons, List.not_mem_nil, or_false] at hp
    rcases hp with rfl | rfl | rfl <;> simp
  have hnew : w.NamesNew := by
    intro k _
    simp [w, header, isImported, Supply.nth, c]
  have hchanges : (ps.normalize {} w).1.changes = 8 := by decide +kernel
  have hconverged : (ps.normalize {} w).1.converged = true := by decide +kernel
  have haccounts := changes_eq_and_normalize_again {} w hps
  have hagain := haccounts.2.2.2 hnew hconverged
  exact ⟨hchanges, hconverged, haccounts.1, hagain.1, hagain.2.2.2⟩

end Pipeline

end Ontograph
