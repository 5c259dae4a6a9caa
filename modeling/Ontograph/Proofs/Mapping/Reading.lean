import Ontograph.Graph.Lookup
import Ontograph.Mapping.Recognise

/-!
# What a step of reading yields

A step of reading *yields* a value from some triples if it gathers exactly these triples, in some
order and with repetitions, whatever was gathered before.  A step that is put together from others
yields its value from the triples of all of them, so each reader of the mapping is followed by the
law of what it yields.

What is read from a main triple is listed once, in three cases (`Source.ReadAt`), for the theorems
that start from an axiom that was read.
-/

namespace Ontograph

namespace Reading

variable {α β : Type} {m : Reading α} {f : α → Reading β} {a : α} {b : β} {ts us : List Triple}

/-- The step answers with a value and gathers the given triples. -/
def Yields (m : Reading α) (a : α) (ts : List Triple) : Prop :=
  ∃ us : List Triple, (∀ acc, m.run acc = some (a, acc ++ us)) ∧ ∀ t, t ∈ us ↔ t ∈ ts

/-- Only the set of the triples matters. -/
theorem Yields.congr (ts : List Triple) (h : Yields m a ts) (hts : ∀ t, t ∈ ts ↔ t ∈ us) :
    Yields m a us := by
  obtain ⟨vs, hrun, hmem⟩ := h
  refine ⟨vs, hrun, fun t => ?_⟩
  rw [hmem, hts]

/-- An answer alone yields it and gathers nothing. -/
theorem yields_pure : Yields (pure a) a [] := by
  refine ⟨[], fun acc => ?_, fun t => Iff.rfl⟩
  rw [List.append_nil]
  rfl

/-- A step after another one adds its triples. -/
theorem Yields.bind (hm : Yields m a ts) (hf : Yields (f a) b us) :
    Yields (m >>= f) b (ts ++ us) := by
  obtain ⟨vs, hrun, hmem⟩ := hm
  obtain ⟨ws, hrun', hmem'⟩ := hf
  refine ⟨vs ++ ws, fun acc => ?_, fun t => ?_⟩
  · rw [StateT.run_bind, hrun, ← List.append_assoc, ← hrun']
    rfl
  · rw [List.mem_append, List.mem_append, hmem, hmem']

/-- A last step that gathers nothing adds nothing. -/
theorem Yields.bind_last (hm : Yields m a ts) (hf : Yields (f a) b []) :
    Yields (m >>= f) b ts := by
  have h := hm.bind hf
  rwa [List.append_nil] at h

/-- A last step that only computes adds nothing. -/
theorem Yields.map {g : α → β} (hm : Yields m a ts) :
    Yields (m >>= fun x => pure (g x)) (g a) ts := hm.bind_last yields_pure

/-- A first step that gathers nothing may be taken for granted. -/
theorem Yields.bind_nil (hm : Yields m a []) (hf : Yields (f a) b us) :
    Yields (m >>= f) b us := hm.bind hf

/-- Operands are read one by one, and gather the triples of each. -/
theorem Yields.mapM_cons {γ : Type} {read : γ → Reading α} {x : γ} {xs : List γ} {as : List α}
    (hx : Yields (read x) a ts) (hxs : Yields (xs.mapM read) as us) :
    Yields ((x :: xs).mapM read) (a :: as) (ts ++ us) := by
  rw [List.mapM_cons]
  exact hx.bind hxs.map

/-- Operands whose reading gathers nothing. -/
theorem yields_mapM_map {γ : Type} {read : γ → Reading α} {value : α → γ} {as : List α}
    (h : ∀ a, Yields (read (value a)) a []) : Yields ((as.map value).mapM read) as [] := by
  induction as with
  | nil => exact yields_pure
  | cons a as ih => exact (h a).mapM_cons ih

/-- A look-up that finds something. -/
theorem yields_lift {o : Option α} (h : o = some a) : Yields (liftM o) a [] := by
  subst h
  exact yields_pure

/-- Gathering yields the triples. -/
theorem yields_gather : Yields (Source.gather ts) () ts :=
  ⟨ts, fun _ => rfl, fun _ => Iff.rfl⟩

/-- A step that yields a value does not fail. -/
theorem Yields.run_nil (h : Yields m a ts) :
    ∃ us, m.run [] = some (a, us) ∧ ∀ t, t ∈ us ↔ t ∈ ts := by
  obtain ⟨us, hrun, hmem⟩ := h
  exact ⟨us, hrun [], hmem⟩

/-- Two steps that agree gather the same triples. -/
theorem Yields.mem_iff (h : Yields m a ts) (h' : Yields m a us) {t : Triple} : t ∈ ts ↔ t ∈ us := by
  obtain ⟨vs, hrun, hmem⟩ := h.run_nil
  obtain ⟨ws, hrun', hmem'⟩ := h'.run_nil
  have hsame : vs = ws := congrArg Prod.snd (Option.some.inj (hrun.symm.trans hrun'))
  rw [← hmem, hsame, hmem']

/-- The step fails, whatever was gathered before. -/
def Fails (m : Reading α) : Prop := ∀ acc, m.run acc = none

/-- A failure fails. -/
theorem fails_failure : Fails (failure : Reading α) := fun _ => rfl

/-- If the first step fails, both do. -/
theorem Fails.bind (h : Fails m) : Fails (m >>= f) := by
  intro acc
  rw [StateT.run_bind, h acc]
  rfl

/-- If a second step fails after every first one, both do. -/
theorem fails_bind (h : ∀ a, Fails (f a)) : Fails (m >>= f) := by
  intro acc
  rw [StateT.run_bind]
  cases m.run acc with
  | none => rfl
  | some r => exact h r.1 r.2

end Reading

/-! ## What is read from a triple -/

/-- The types of the nodes that group the members of an axiom or deny an assertion. -/
def rootTypes : List Iri :=
  [.owl .NegativePropertyAssertion, .owl .AllDisjointClasses, .owl .AllDisjointProperties,
    .owl .AllDifferent]

/-- A footprint lists each triple once, however often it was gathered. -/
theorem Footprint.nodup_triples_of {main : Triple} {gathered : List Triple} :
    (of main gathered).triples.Nodup := by
  unfold of triples
  rw [List.nodup_cons, List.mem_eraseDups, List.mem_filter]
  exact ⟨by simp, Graph.nodup_eraseDups _⟩

namespace Source

variable {R : Source} {e : AnnotatedAxiom × Footprint} {a : AnnotatedAxiom} {f : Footprint}
  {m : Triple}

/-- The nodes that stand for a triple are those that have its subject, its predicate and its
object. -/
theorem mem_reifiers {n : Node} : n ∈ R.reifiers m ↔
    ⟨n, .owl .annotatedSource, .node m.subject⟩ ∈ R.triples ∧
      ⟨n, .owl .annotatedProperty, .node (.iri m.predicate)⟩ ∈ R.triples ∧
      ⟨n, .owl .annotatedTarget, m.object⟩ ∈ R.triples := by
  unfold reifiers
  rw [List.mem_filter, TripleSet.mem_subjects, Bool.and_eq_true, decide_eq_true_iff,
    decide_eq_true_iff]

/-- An axiom with the remarks on a node, and what was gathered with the triples of the remarks. -/
def noted (R : Source) (m : Triple) (ax : Axiom) (ts : List Triple) (n : Node) :
    AnnotatedAxiom × Footprint :=
  (.of ax (remarksOf (R.remarkTriples n)), .of m (ts ++ R.remarkTriples n))

/-- An axiom is read from a triple of the source: with the remarks on its subject if they belong
there; without remarks if no node stands for the triple; or with the remarks on such a node. -/
inductive ReadAt (R : Source) (m : Triple) : AnnotatedAxiom × Footprint → Prop
  | rooted {ax : Axiom} {ts : List Triple} (hm : m ∈ R.triples)
      (hrun : (R.statement m).run [] = some ((ax, true), ts)) :
      R.ReadAt m (R.noted m ax ts m.subject)
  | bare {ax : Axiom} {ts : List Triple} (hm : m ∈ R.triples)
      (hrun : (R.statement m).run [] = some ((ax, false), ts)) (hnone : R.reifiers m = []) :
      R.ReadAt m (⟨ax, []⟩, .of m ts)
  | reified {ax : Axiom} {ts : List Triple} {n : Node} (hm : m ∈ R.triples)
      (hrun : (R.statement m).run [] = some ((ax, false), ts)) (hn : n ∈ R.reifiers m) :
      R.ReadAt m (R.noted m ax (ts ++ R.reification n m) n)

/-- An axiom is read at a triple of the source. -/
theorem ReadAt.mem (h : R.ReadAt m e) : m ∈ R.triples := by
  cases h <;> assumption

/-- The axiom is read from the triple, whatever remarks are added to it. -/
theorem ReadAt.exists_run (h : R.ReadAt m e) :
    ∃ b ts, (R.statement m).run [] = some ((e.1.base, b), ts) := by
  cases h with
  | rooted _ hrun => exact ⟨_, _, hrun⟩
  | bare _ hrun => exact ⟨_, _, hrun⟩
  | reified _ hrun => exact ⟨_, _, hrun⟩

/-- What is listed at a triple is what is read from it. -/
theorem mem_axiomsAt_iff : e ∈ R.axiomsAt m ↔ R.ReadAt m e := by
  unfold axiomsAt
  constructor
  · intro he
    split at he
    case isFalse => cases he
    case isTrue hm =>
      split at he
      case h_1 => cases he
      case h_2 hrun =>
        obtain rfl := List.mem_singleton.1 he
        exact .rooted hm hrun
      case h_3 hrun =>
        split at he
        case h_1 hnone =>
          obtain rfl := List.mem_singleton.1 he
          exact .bare hm hrun hnone
        case h_2 =>
          obtain ⟨n, hn, rfl⟩ := List.mem_map.1 he
          exact .reified hm hrun hn
  · intro he
    cases he with
    | rooted hm hrun =>
      rw [if_pos hm, hrun]
      exact List.mem_singleton.2 rfl
    | bare hm hrun hnone =>
      rw [if_pos hm, hrun, hnone]
      exact List.mem_singleton.2 rfl
    | @reified ax ts n hm hrun hn =>
      rw [if_pos hm, hrun]
      dsimp only
      split
      case h_1 hnone =>
        rw [hnone] at hn
        cases hn
      case h_2 => exact List.mem_map.2 ⟨n, hn, rfl⟩

/-- The footprints read from a main triple have this main triple. -/
theorem main_of_mem_axiomsAt (h : (a, f) ∈ R.axiomsAt m) : f.main = m := by
  cases mem_axiomsAt_iff.1 h <;> rfl

/-- A footprint that is read has each triple once. -/
theorem nodup_triples_of_mem_axiomsAt (h : e ∈ R.axiomsAt m) : e.2.triples.Nodup := by
  cases mem_axiomsAt_iff.1 h <;> exact Footprint.nodup_triples_of

/-- The axioms are read with their footprints from the main triples of these. -/
theorem mem_scan_iff : (a, f) ∈ R.scan ↔ (a, f) ∈ R.axiomsAt f.main := by
  unfold scan
  rw [List.mem_flatMap]
  constructor
  · rintro ⟨m, -, h⟩
    rwa [main_of_mem_axiomsAt h]
  · exact fun h => ⟨f.main, (mem_axiomsAt_iff.1 h).mem, h⟩

/-- What a scan lists was read from its main triple. -/
theorem exists_run_of_mem_scan (h : (a, f) ∈ R.scan) :
    ∃ b ts, (R.statement f.main).run [] = some ((a.base, b), ts) :=
  (mem_axiomsAt_iff.1 (mem_scan_iff.1 h)).exists_run

end Source

end Ontograph
