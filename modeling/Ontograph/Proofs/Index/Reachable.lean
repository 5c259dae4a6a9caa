import Ontograph.Proofs.Index.Representation
import Ontograph.Proofs.Index.Writing

/-!
# Reachable stores

A store is worked on by operations in any order (`AxiomStore.Operation`): it writes axioms and
triples, answers questions, drops its indices, and is used with whatever the graph has become
meanwhile, or with another graph.  What indices have when they are built, and keep when topics are
asked for and main triples are read again, the indices of every reachable store have
(`AxiomStore.keeps_run`).  The main result is `AxiomStore.represented_of_run`: the tables of every
reachable store hang together.
-/

namespace Ontograph

namespace AxiomStore

variable {st st' : AxiomStore} {w w' : Workbench} {g g' : Graph} {ts : List Triple}
  {P : Indices → Prop}

/-! ## Operations -/

/-- What can be done with a store: writing axioms and triples, asking, dropping the indices, and
working on the graph outside of the store, with whatever result. -/
inductive Operation
  | add (a : AnnotatedAxiom)
  | remove (a : AnnotatedAxiom)
  | insertTriple (t : Triple)
  | removeTriple (t : Triple)
  | contains (a : AnnotatedAxiom)
  | footprints (a : AnnotatedAxiom)
  | axioms
  | count
  | axiomsOfKind (k : AxiomKind)
  | axiomsAbout (x : Term)
  | generalAxioms
  | invalidate
  | outside (w : Workbench)

/-- The store and the graph after an operation. -/
def perform (x : AxiomStore × Workbench) : Operation → AxiomStore × Workbench
  | .add a => (x.1.add x.2 a).2
  | .remove a => (x.1.remove x.2 a).2
  | .insertTriple t =>
    let (_, st, graph) := x.1.insertTriple x.2.graph t
    (st, { x.2 with graph })
  | .removeTriple t =>
    let (_, st, graph) := x.1.removeTriple x.2.graph t
    (st, { x.2 with graph })
  | .contains a => ((x.1.contains x.2.graph a).2, x.2)
  | .footprints a => ((x.1.footprints x.2.graph a).2, x.2)
  | .axioms => ((x.1.axioms x.2.graph).2, x.2)
  | .count => ((x.1.count x.2.graph).2, x.2)
  | .axiomsOfKind k => ((x.1.axiomsOfKind x.2.graph k).2, x.2)
  | .axiomsAbout n => ((x.1.axiomsAbout x.2.graph n).2, x.2)
  | .generalAxioms => ((x.1.generalAxioms x.2.graph).2, x.2)
  | .invalidate => (x.1.invalidate, x.2)
  | .outside w => (x.1, w)

/-- The store and the graph after operations, one after another. -/
def run (x : AxiomStore × Workbench) (ops : List Operation) : AxiomStore × Workbench :=
  ops.foldl perform x

/-! ## What the indices keep -/

/-- A property of indices that those just built have, and that is kept when topics are asked for
and when main triples are read again. -/
structure Stable (P : Indices → Prop) : Prop where
  ofSource : ∀ R, P (.ofSource R)
  withTopics : ∀ I, P I → P I.withTopics
  refresh : ∀ R ms I, P I → P (I.refresh R ms)

/-- The indices have the property, if there are any. -/
def Keeps (P : Indices → Prop) (st : AxiomStore) : Prop := ∀ I, st.indices? = some I → P I

/-- Without indices there is nothing to have the property. -/
theorem keeps_of_none (h : st.indices? = none) : st.Keeps P := by
  intro I hI
  cases h.symm.trans hI

/-- Whether the indices have a property is a matter of the indices alone. -/
theorem Keeps.congr (h : st.Keeps P) (hst : st'.indices? = st.indices?) : st'.Keeps P := by
  intro I hI
  exact h I (hst ▸ hI)

/-- Dropping outdated indices leaves none without the property. -/
theorem Keeps.sync (h : st.Keeps P) : (st.sync g).Keeps P := by
  unfold AxiomStore.sync
  split
  case isTrue => exact h
  case isFalse => exact keeps_of_none rfl

/-- The indices that a store answers from have the property, just built or not. -/
theorem Keeps.indices (h : st.Keeps P) (hP : Stable P) : P (st.indices g).1 := by
  have hindices : (st.indices g).1 =
      (st.sync g).indices?.getD (.ofSource ((st.sync g).source g)) := rfl
  rw [hindices]
  cases hI : (st.sync g).indices? with
  | none => exact hP.ofSource _
  | some I => exact h.sync I hI

/-- Indices that follow an edit have read some main triples again. -/
theorem Keeps.follow (h : st.Keeps P) (hP : Stable P) : (st.follow g g' ts).Keeps P := by
  intro I' hI'
  obtain ⟨I, hI, hfollow⟩ := Option.bind_eq_some_iff.1 hI'
  rw [Indices.follow_eq] at hfollow
  obtain ⟨ms, -, rfl⟩ := Option.map_eq_some_iff.1 hfollow
  exact hP.refresh _ _ _ (h I hI)

/-- Reading the index of axioms leaves indices with the property. -/
theorem Keeps.readAxioms {α : Type} (h : st.Keeps P) (hP : Stable P) (f : AxiomIndex → α) :
    (st.readAxioms g f).2.Keeps P := by
  rintro I ⟨⟩
  exact h.indices hP

/-- Reading the index of topics leaves indices with the property. -/
theorem Keeps.readTopics {α : Type} (h : st.Keeps P) (hP : Stable P) (f : TopicIndex → α) :
    (st.readTopics g f).2.Keeps P := by
  rintro I ⟨⟩
  exact hP.withTopics _ (h.indices hP)

/-- Adding an axiom leaves indices with the property. -/
theorem Keeps.add {a : AnnotatedAxiom} (h : st.Keeps P) (hP : Stable P) :
    (st.add w a).2.1.Keeps P := by
  have houtcome : Outcome (st.sync w.graph) w a (st.add w a) := outcome_add
  generalize st.add w a = r at houtcome
  cases houtcome with
  | refused => exact h.sync
  | undone => exact h.sync.congr rfl
  | written => exact h.sync.follow hP

/-- Removing an axiom leaves indices with the property. -/
theorem Keeps.remove {a : AnnotatedAxiom} (h : st.Keeps P) (hP : Stable P) :
    (st.remove w a).2.1.Keeps P := by
  unfold AxiomStore.remove
  dsimp only
  split
  case h_1 => exact h.sync
  case h_2 => exact h.sync
  case h_3 =>
    split
    case isTrue => exact h.sync
    case isFalse => exact h.sync.follow hP

/-- Inserting a triple leaves indices with the property. -/
theorem Keeps.insertTriple {t : Triple} (h : st.Keeps P) (hP : Stable P) :
    (st.insertTriple g t).2.1.Keeps P := by
  unfold AxiomStore.insertTriple
  split
  case isTrue => exact h
  case isFalse => exact h.sync.follow hP

/-- Removing a triple leaves indices with the property. -/
theorem Keeps.removeTriple {t : Triple} (h : st.Keeps P) (hP : Stable P) :
    (st.removeTriple g t).2.1.Keeps P := by
  unfold AxiomStore.removeTriple
  split
  case isTrue => exact h.sync.follow hP
  case isFalse => exact h

/-! ## Runs -/

variable {x : AxiomStore × Workbench} {ops : List Operation}

/-- One operation keeps what is stable. -/
theorem keeps_perform (hP : Stable P) (h : x.1.Keeps P) (op : Operation) :
    (perform x op).1.Keeps P := by
  cases op with
  | add a => exact h.add hP
  | remove a => exact h.remove hP
  | insertTriple t => exact h.insertTriple hP
  | removeTriple t => exact h.removeTriple hP
  | contains a => exact h.readAxioms hP (·.contains a)
  | footprints a => exact h.readAxioms hP (·.footprintsOf a)
  | axioms => exact h.readAxioms hP (·.axioms)
  | count => exact h.readAxioms hP (·.size)
  | axiomsOfKind k => exact h.readAxioms hP (·.ofKind k)
  | axiomsAbout n => exact h.readTopics hP (·.about n)
  | generalAxioms => exact h.readTopics hP (·.general)
  | invalidate => exact keeps_of_none rfl
  | outside w => exact h

/-- Operations one after another keep what each of them keeps. -/
theorem keeps_run (hP : Stable P) (h : x.1.Keeps P) : (run x ops).1.Keeps P := by
  unfold run
  induction ops generalizing x with
  | nil => exact h
  | cons op ops ih => exact ih (keeps_perform hP h op)

/-- Being regular is such a property. -/
theorem stable_regular : Stable Indices.Regular where
  ofSource _ := Indices.regular_ofSource
  withTopics _ h := h.withTopics
  refresh _ _ _ h := h.refresh

/-- **Reachable stores.** After any operations on a new store and any graph, in any order, there is
an index of topics only beside an index of axioms, and the tables of both hang together. -/
theorem represented_of_run (s : Settings) (w : Workbench) (ops : List Operation) :
    let st := (run ({ settings := s }, w) ops).1
    (st.hasTopicIndex = true → st.hasAxiomIndex = true) ∧
      ∀ I, st.indices? = some I → I.Represented := by
  intro st
  refine ⟨fun h => ?_, fun I hI => ?_⟩
  · unfold hasTopicIndex at h
    unfold hasAxiomIndex
    cases hI : st.indices? with
    | none =>
      rw [hI] at h
      cases h
    | some I => rfl
  · exact (keeps_run stable_regular (keeps_of_none rfl) I hI).represented

end AxiomStore

end Ontograph
