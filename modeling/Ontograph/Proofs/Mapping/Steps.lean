import Ontograph.Proofs.Mapping.Soundness

/-!
# Two steps of reading

A step of reading *answers* with a value if it is given the right triples (`Reading.Answers`).  One
step *lifts* to another one if this answers whatever the first one answers, provided that meets a
condition (`Reading.Lifts`).  A rule for each way to combine steps lets two readings be walked in
step, each with its own source.
-/

namespace Ontograph

namespace Reading

variable {α β γ : Type} {m m' : Reading α} {f f' : α → Reading β} {a : α} {b : β}
  {K K' : α → Prop} {L : β → Prop} {o o' : Option α}

/-! ## Answers -/

/-- The step answers with the value, if it is given the right triples. -/
def Answers (m : Reading α) (a : α) : Prop := ∃ acc out, m.run acc = some (a, out)

/-- An answer alone answers with nothing else. -/
theorem Answers.eq_of_pure {a' : α} (h : Answers (pure a) a') : a' = a := by
  obtain ⟨acc, out, hrun⟩ := h
  cases hrun
  rfl

/-- A step that fails has no answer. -/
theorem not_answers_of_fails (h : Fails m) : ¬ Answers m a := by
  rintro ⟨acc, out, hrun⟩
  rw [h acc] at hrun
  cases hrun

/-- A step followed by another answers through an answer of the first. -/
theorem Answers.bind (h : Answers (m >>= f) b) : ∃ a, Answers m a ∧ Answers (f a) b := by
  obtain ⟨acc, out, hrun⟩ := h
  rw [StateT.run_bind] at hrun
  obtain ⟨⟨a, mid⟩, hfirst, hsecond⟩ := Option.bind_eq_some_iff.1 hrun
  exact ⟨a, ⟨acc, mid, hfirst⟩, ⟨mid, out, hsecond⟩⟩

/-- A step whose answer is changed answers with what its answer becomes. -/
theorem Answers.map {g : α → β} (h : Answers (m >>= fun a => pure (g a)) b) :
    ∃ a, Answers m a ∧ b = g a := by
  obtain ⟨a, ha, hb⟩ := h.bind
  exact ⟨a, ha, hb.eq_of_pure⟩

/-- A test answers with what the branch that is taken answers. -/
theorem Answers.ite {c : Prop} [Decidable c] (h : Answers (if c then m else m') a) :
    c ∧ Answers m a ∨ ¬ c ∧ Answers m' a := by
  split at h
  case isTrue hc => exact Or.inl ⟨hc, h⟩
  case isFalse hc => exact Or.inr ⟨hc, h⟩

/-- A failure has no answer. -/
theorem not_answers_failure : ¬ Answers (failure : Reading α) a :=
  not_answers_of_fails fails_failure

/-- The answers of a step have the property that it promises. -/
theorem Answers.of_sound {S : TripleSet} (h : Answers m a) (hm : Sound S m K) : K a := by
  obtain ⟨acc, out, hrun⟩ := h
  exact (hm acc a out hrun).1

/-- A name is answered for the term that is the name. -/
theorem Answers.named {x : Term} {i : Iri} (h : Answers (Source.named x) i) :
    x = .node (.iri i) := h.of_sound (Source.sound_named (S := ∅))

/-! ## Lifting -/

/-- What the first step answers and meets a condition, the second one answers, whatever was
gathered before. -/
def Lifts (m m' : Reading α) (K : α → Prop) : Prop :=
  ∀ a, Answers m a → K a → ∀ acc, ∃ out, m'.run acc = some (a, out)

/-- What the first step answers and meets the condition, the second one answers. -/
theorem Lifts.answers (h : Lifts m m' K) (ha : Answers m a) (hK : K a) : Answers m' a :=
  ⟨[], h a ha hK []⟩

/-- The condition may be strengthened. -/
theorem Lifts.mono (h : Lifts m m' K) (hK : ∀ a, K' a → K a) : Lifts m m' K' :=
  fun a ha hKa => h a ha (hK a hKa)

/-- A test fails if both branches do. -/
theorem fails_ite {c : Prop} [Decidable c] (h : Fails m) (h' : Fails m') :
    Fails (if c then m else m') := by
  split <;> assumption

/-- A step that fails has nothing to lift. -/
theorem lifts_of_fails (h : Fails m) : Lifts m m' K :=
  fun _ ha => absurd ha (not_answers_of_fails h)

/-- A failure has nothing to lift. -/
theorem lifts_failure : Lifts (failure : Reading α) m' K := lifts_of_fails fails_failure

/-- An answer alone is lifted to itself. -/
theorem lifts_pure : Lifts (pure a) (pure a) K := by
  intro b hb _ acc
  rw [hb.eq_of_pure]
  exact ⟨acc, rfl⟩

/-- Gathering is lifted to gathering anything else. -/
theorem lifts_gather {ts us : List Triple} {K : Unit → Prop} :
    Lifts (Source.gather ts) (Source.gather us) K :=
  fun _ _ _ acc => ⟨acc ++ us, rfl⟩

/-- A choice is lifted to one that makes the same choices. -/
theorem lifts_lift (h : ∀ a, o = some a → o' = some a) :
    Lifts (liftM o : Reading α) (liftM o') K := by
  cases o with
  | none => exact lifts_failure
  | some a =>
    rw [h a rfl]
    exact lifts_pure

/-- A look-up that does not depend on the source. -/
theorem lifts_same : Lifts (liftM o : Reading α) (liftM o) K := lifts_lift fun _ h => h

/-- The condition on what two steps answer must say enough of what the first one answers. -/
theorem Lifts.bind (hm : Lifts m m' K) (hK : ∀ a b, Answers (f a) b → L b → K a)
    (hf : ∀ a, Answers m a → Lifts (f a) (f' a) L) : Lifts (m >>= f) (m' >>= f') L := by
  intro b hb hL acc
  obtain ⟨a, ha, hab⟩ := hb.bind
  obtain ⟨mid, hfirst⟩ := hm a ha (hK a b hab hL) acc
  obtain ⟨out, hsecond⟩ := hf a ha b hab hL mid
  refine ⟨out, ?_⟩
  rw [StateT.run_bind, hfirst]
  exact hsecond

/-- A first step that lifts without a condition. -/
theorem Lifts.then (hm : Lifts m m' fun _ => True)
    (hf : ∀ a, Answers m a → Lifts (f a) (f' a) L) : Lifts (m >>= f) (m' >>= f') L :=
  hm.bind (fun _ _ _ _ => trivial) hf

/-- A last step that only computes. -/
theorem Lifts.map {g : α → β} (hm : Lifts m m' K) (hK : ∀ a, L (g a) → K a) :
    Lifts (m >>= fun a => pure (g a)) (m' >>= fun a => pure (g a)) L :=
  hm.bind (fun a _ hb hL => hK a (hb.eq_of_pure ▸ hL)) fun _ _ => lifts_pure

/-- A test is lifted to the same test if each branch is. -/
theorem lifts_ite {c : Prop} [Decidable c] {n n' : Reading α} (h : c → Lifts m m' K)
    (h' : ¬ c → Lifts n n' K) : Lifts (if c then m else n) (if c then m' else n') K := by
  split
  case isTrue hc => exact h hc
  case isFalse hc => exact h' hc

/-- A choice between two steps before the same one. -/
theorem lifts_ite_then {c : Prop} [Decidable c] {n n' : Reading α}
    (hm : Lifts m m' fun _ => True) (hn : Lifts n n' fun _ => True)
    (hf : ∀ a, Lifts (f a) (f' a) L) :
    Lifts (if c then m >>= f else n >>= f) (if c then m' >>= f' else n' >>= f') L :=
  lifts_ite (fun _ => hm.then fun a _ => hf a) fun _ => hn.then fun a _ => hf a

/-- Reading each of some items is lifted if reading one is. -/
theorem lifts_mapM {read read' : γ → Reading α} {xs : List γ}
    (h : ∀ x ∈ xs, Lifts (read x) (read' x) K) :
    Lifts (xs.mapM read) (xs.mapM read') fun as => ∀ a ∈ as, K a := by
  induction xs with
  | nil => exact lifts_pure
  | cons x xs ih =>
    rw [List.mapM_cons, List.mapM_cons]
    refine (h x List.mem_cons_self).bind (fun a as has hK => ?_) fun a _ => ?_
    · obtain ⟨_, -, has⟩ := has.bind
      rw [has.eq_of_pure] at hK
      exact hK a List.mem_cons_self
    · exact (ih fun y hy => h y (List.mem_cons_of_mem _ hy)).map fun as hK b hb =>
        hK b (List.mem_cons_of_mem _ hb)

end Reading

end Ontograph
