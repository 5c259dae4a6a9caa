import Mathlib.Data.Finset.Card
import Ontograph.Proofs.Index.Coverage
import Ontograph.Proofs.Ontology.Generations

/-!
# Runs

An ontology is worked on by operations in any order (`Ontology.Operation`).  Its store is sound if
indices of the current generation hold exactly what is read from the graph (`AxiomStore.Sound`);
then every answer is right (`Ontology.AnswersRight`).  A store without indices is sound, and each
operation keeps it sound as long as the edits that the indices follow are covered, so the answers
are right all along a run exactly if every followed edit is covered (`Ontology.right_along`).  Edits
of tidy triples are covered, so without a budget the answers are right as long as the triples are
tidy, whatever is written or taken out, as triples or as axioms.
-/

namespace Ontograph

open Indices TripleSet

/-! ## Stores -/

namespace AxiomStore

variable {st : AxiomStore} {g g' : Graph} {ts : List Triple} {I : Indices}

/-- Indices of the generation of the graph are current, and there are none of a later one. -/
structure Sound (st : AxiomStore) (g : Graph) : Prop where
  le : ∀ I, st.indices? = some I → st.generation ≤ g.generation
  current : ∀ I, st.indices? = some I → st.generation = g.generation → I.Current (st.source g)

/-- The store is in line with the graph. -/
structure InLine (st : AxiomStore) (g : Graph) : Prop where
  generation : st.generation = g.generation
  current : ∀ I, st.indices? = some I → I.Current (st.source g)

/-- A store in line with its graph is sound. -/
theorem InLine.sound (h : st.InLine g) : st.Sound g :=
  ⟨fun _ _ => Nat.le_of_eq h.generation, fun I hI _ => h.current I hI⟩

/-- A store without indices is sound. -/
theorem sound_of_none (h : st.indices? = none) : st.Sound g := by
  refine ⟨fun I hI => ?_, fun I hI => ?_⟩ <;> rw [h] at hI <;> cases hI

/-- Indices that are not of the generation of the graph are dropped. -/
theorem Sound.sync (h : st.Sound g) : (st.sync g).InLine g := by
  unfold AxiomStore.sync
  split
  case isTrue hsame => exact ⟨hsame, fun I hI => h.current I hI hsame⟩
  case isFalse => exact ⟨rfl, fun I hI => nomatch hI⟩

/-- Dropping outdated indices does not change how graphs are read. -/
theorem source_sync : (st.sync g).source g' = st.source g' := by
  unfold source
  rw [settings_sync]

/-- Work on the graph that the store does not see keeps it sound. -/
theorem Sound.later (h : st.Sound g) (hlater : g.Later g') : st.Sound g' := by
  refine ⟨fun I hI => Nat.le_trans (h.le I hI) hlater.le, fun I hI hsame => ?_⟩
  have hle := h.le I hI
  have heq : g' = g := hlater.eq (Nat.le_antisymm (hsame ▸ hle) hlater.le)
  subst heq
  exact h.current I hI hsame

/-- A covered edit keeps the store in line. -/
theorem InLine.follow (h : st.InLine g)
    (hcovered : st.indices? ≠ none → Covered st.settings g.union g'.union ts) :
    (st.follow g g' ts).InLine g' := by
  refine ⟨rfl, fun I' hI' => ?_⟩
  obtain ⟨I, hI, hfollow⟩ := Option.bind_eq_some_iff.1 hI'
  exact (h.current I hI).follow hfollow (hcovered (by simp [hI]))

/-- Indices that follow an edit are those asked for afterwards. -/
theorem indices_of_follow {st' : AxiomStore} {I' : Indices} (hst : st' = st.follow g g' ts)
    (hI : st.indices? = some I) (hfollow : I.follow st.settings g.union g'.union ts = some I') :
    (st'.indices g').1 = I' := by
  have hkept : st'.indices? = some I' := by
    rw [hst]
    exact Option.bind_eq_some_iff.2 ⟨I, hI, hfollow⟩
  have hsync : st'.sync g' = st' := by
    refine if_pos ?_
    rw [hst]
    rfl
  unfold AxiomStore.indices
  rw [hsync]
  dsimp only
  rw [hkept, Option.getD_some]

/-- The indices that are built, or were, are current. -/
theorem Sound.indices (h : st.Sound g) : (st.indices g).1.Current (st.source g) := by
  have hcurrent : ((st.sync g).indices?.getD (.ofSource ((st.sync g).source g))).Current
      (st.source g) := by
    rw [source_sync]
    cases hI : (st.sync g).indices? with
    | none => exact current_ofSource
    | some I =>
      rw [← source_sync]
      exact h.sync.current I hI
  exact hcurrent

/-- Indices of the same triples and settings keep a store in line. -/
theorem inLine_of_same {st' : AxiomStore} (hunion : g'.union = g.union)
    (hsettings : st'.settings = st.settings) (hgeneration : st'.generation = g'.generation)
    (hcurrent : ∀ I, st'.indices? = some I → I.Current (st.source g)) : st'.InLine g' := by
  refine ⟨hgeneration, fun I hI => ?_⟩
  have hsource : st'.source g' = st.source g := by
    unfold source
    rw [hunion, hsettings]
  rw [hsource]
  exact hcurrent I hI

end AxiomStore

/-! ## Operations -/

namespace Ontology

/-- What can be done with an ontology: writing triples and axioms, making instances, normalizing,
changing the layers, and asking for axioms. -/
inductive Operation
  | insert (t : Triple)
  | remove (t : Triple)
  | addAxiom (a : AnnotatedAxiom)
  | removeAxiom (a : AnnotatedAxiom)
  | create (i : Interface) (x : Term)
  | normalize
  | addImport (i : Import)
  | removeImport (tag : Nat)
  | replaceGraph (g : Graph)
  | containsAxiom (a : AnnotatedAxiom)
  | footprints (a : AnnotatedAxiom)
  | axioms
  | axiomCount
  | axiomsOfKind (k : AxiomKind)
  | axiomsAbout (x : Term)
  | generalAxioms

variable {o o' : Ontology} {op : Operation} {ops : List Operation}

/-- The ontology after an operation, met or refused. -/
def perform (o : Ontology) : Operation → Ontology
  | .insert t => (o.insert t).2
  | .remove t => (o.remove t).2
  | .addAxiom a => (o.addAxiom a).2
  | .removeAxiom a => (o.removeAxiom a).2
  | .create i x => (o.create i x).2
  | .normalize => o.normalize.2
  | .addImport i => o.addImport i
  | .removeImport tag => (o.removeImport tag).2
  | .replaceGraph g => o.replaceGraph g
  | .containsAxiom a => (o.containsAxiom a).2
  | .footprints a => (o.footprints a).2
  | .axioms => o.axioms.2
  | .axiomCount => o.axiomCount.2
  | .axiomsOfKind k => (o.axiomsOfKind k).2
  | .axiomsAbout x => (o.axiomsAbout x).2
  | .generalAxioms => o.generalAxioms.2

/-- The triples that an operation writes or takes out through the store. -/
def edit? (o : Ontology) : Operation → Option (List Triple)
  | .insert t => if o.graph.contains t then none else some [t]
  | .remove t => if t ∈ o.graph.base then some [t] else none
  | .addAxiom a =>
    match a.encode o.bench.supply with
    | .ok (f, _) => some (f.triples.filter fun t => !o.graph.contains t)
    | .error _ => none
  | .removeAxiom a =>
    match (o.store.sync o.graph).leaving? o.bench a with
    | .ok ts? => ts?
    | .error _ => none
  | _ => none

/-- What there is to read. -/
def source (o : Ontology) : Source := o.store.source o.graph

/-- The store is sound for the graph. -/
def Sound (o : Ontology) : Prop := o.store.Sound o.graph

/-- Everything an operation can do to the store and the graph: leave the store aside, drop the
indices, write nothing in the end, write triples that the indices follow, or ask the indices. -/
inductive Step (o o' : Ontology) (edit? : Option (List Triple)) : Prop
  | aside (hlater : o.graph.Later o'.graph) (hstore : o'.store = o.store) (hedit : edit? = none)
  | dropped (hnone : o'.store.indices? = none) (hedit : edit? = none)
  | rested (hsame : o'.triples = o.triples) (hsettings : o'.settings = o.settings)
      (hgeneration : o'.store.generation = o'.graph.generation)
      (hindices : o'.store.indices? = (o.store.sync o.graph).indices?)
  | followed (ts : List Triple) (hedit : edit? = some ts)
      (hstore : o'.store = (o.store.sync o.graph).follow o.graph o'.graph ts)
  | asked (hgraph : o'.graph = o.graph) (hsettings : o'.settings = o.settings)
      (hgeneration : o'.store.generation = o.graph.generation) (I : Indices)
      (hI : I = (o.store.indices o.graph).1 ∨ I = (o.store.indices o.graph).1.withTopics)
      (hindices : o'.store.indices? = some I) (hedit : edit? = none)

/-- Inserting a triple is a step: nothing is written, or the indices follow the triple. -/
theorem step_insert {t : Triple} : Step o (o.insert t).2 (o.edit? (.insert t)) := by
  unfold insert AxiomStore.insertTriple edit?
  dsimp only
  by_cases ht : o.graph.contains t = true
  · rw [if_pos ht, if_pos ht]
    exact .aside .refl rfl rfl
  · rw [if_neg ht, if_neg ht]
    exact .followed [t] rfl rfl

/-- Removing a triple is a step: nothing is taken out, or the indices follow the triple. -/
theorem step_remove {t : Triple} : Step o (o.remove t).2 (o.edit? (.remove t)) := by
  unfold remove AxiomStore.removeTriple edit?
  dsimp only
  by_cases ht : t ∈ o.graph.base
  · rw [if_pos ht, if_pos ht]
    exact .followed [t] rfl rfl
  · rw [if_neg ht, if_neg ht]
    exact .aside .refl rfl rfl

/-- An axiom is added whole, or taken back whole. -/
theorem step_addAxiom {a : AnnotatedAxiom} :
    Step o (o.addAxiom a).2 (o.edit? (.addAxiom a)) := by
  unfold addAxiom AxiomStore.add edit?
  dsimp only
  cases hencode : a.encode o.bench.supply with
  | error e => exact .rested rfl AxiomStore.settings_sync AxiomStore.generation_sync rfl
  | ok r =>
    obtain ⟨f, supply⟩ := r
    dsimp only
    by_cases hpresent : (o.store.sync o.graph).isPresent o.graph a f = true
    · rw [if_pos hpresent]
      exact .rested rfl AxiomStore.settings_sync AxiomStore.generation_sync rfl
    · rw [if_neg hpresent]
      unfold AxiomStore.write
      dsimp only
      split
      case isTrue => exact .rested rfl AxiomStore.settings_sync AxiomStore.generation_sync rfl
      case isFalse =>
        split
        case isTrue => exact .followed _ rfl rfl
        case isFalse =>
          refine .rested (Graph.union_removeAll_insertAll fun t ht => ?_) AxiomStore.settings_sync
            rfl rfl
          have hnew := (List.mem_filter.1 ht).2
          rw [Bool.not_eq_true', ← Bool.not_eq_true, Graph.contains_iff] at hnew
          exact hnew

/-- Removing an axiom is a step: nothing is taken out, or the indices follow what leaves. -/
theorem step_removeAxiom {a : AnnotatedAxiom} :
    Step o (o.removeAxiom a).2 (o.edit? (.removeAxiom a)) := by
  unfold removeAxiom AxiomStore.remove edit?
  dsimp only
  cases hleaving : (o.store.sync o.graph).leaving? o.bench a with
  | error e => exact .rested rfl AxiomStore.settings_sync AxiomStore.generation_sync rfl
  | ok ts? =>
    cases ts? with
    | none => exact .rested rfl AxiomStore.settings_sync AxiomStore.generation_sync rfl
    | some ts =>
      dsimp only
      split
      case isTrue => exact .rested rfl AxiomStore.settings_sync AxiomStore.generation_sync rfl
      case isFalse => exact .followed ts rfl rfl

/-- Creating works on the graph without the store. -/
theorem step_create {i : Interface} {x : Term} :
    Step o (o.create i x).2 (o.edit? (.create i x)) := by
  obtain ⟨hlater, hstore⟩ := later_create (o := o) (i := i) (x := x)
  exact .aside hlater hstore rfl

/-- A normalization that changes nothing keeps the indices, and any other drops them. -/
theorem step_normalize : Step o o.normalize.2 (o.edit? .normalize) := by
  unfold normalize
  dsimp only
  by_cases hsame : (Pipeline.standard.normalize o.settings o.bench).1.isUnchanged = true
  · rw [if_pos hsame]
    exact .aside Pipeline.later_normalize rfl rfl
  · rw [if_neg hsame]
    exact .dropped rfl rfl

/-- Removing an import is a step that leaves the store aside. -/
theorem step_removeImport {tag : Nat} :
    Step o (o.removeImport tag).2 (o.edit? (.removeImport tag)) :=
  .aside Graph.later_dropImport rfl rfl

/-- A question about axioms is asked of the indices. -/
theorem step_readAxioms {α : Type} {f : AxiomIndex → α} :
    Step o (o.readStore fun st g => st.readAxioms g f).2 none :=
  .asked rfl AxiomStore.settings_sync AxiomStore.generation_sync _ (Or.inl rfl) rfl rfl

/-- A question about topics leaves an index of topics behind. -/
theorem step_readTopics {α : Type} {f : TopicIndex → α} :
    Step o (o.readStore fun st g => st.readTopics g f).2 none :=
  .asked rfl AxiomStore.settings_sync AxiomStore.generation_sync _ (Or.inr rfl) rfl rfl

/-- What one operation does. -/
theorem step_perform : Step o (o.perform op) (o.edit? op) := by
  cases op with
  | insert t => exact step_insert
  | remove t => exact step_remove
  | addAxiom a => exact step_addAxiom
  | removeAxiom a => exact step_removeAxiom
  | create i x => exact step_create
  | normalize => exact step_normalize
  | addImport i => exact .aside Graph.later_addImport rfl rfl
  | removeImport tag => exact step_removeImport
  | replaceGraph g => exact .dropped rfl rfl
  | containsAxiom a => exact step_readAxioms
  | footprints a => exact step_readAxioms
  | axioms => exact step_readAxioms
  | axiomCount => exact step_readAxioms
  | axiomsOfKind k => exact step_readAxioms
  | axiomsAbout x => exact step_readTopics
  | generalAxioms => exact step_readTopics

/-! ## One operation -/

/-- The answers about axioms are those that the graph gives when it is read anew. -/
structure AnswersRight (o : Ontology) : Prop where
  axioms : ∀ a, a ∈ o.axioms.1 ↔ ∃ f, (a, f) ∈ o.source.scan
  footprints : ∀ a f, f ∈ (o.footprints a).1 ↔ (a, f) ∈ o.source.scan
  axiomCount : o.axiomCount.1 = (o.source.scan.map Prod.fst).toFinset.card
  axiomsOfKind : ∀ k a, a ∈ (o.axiomsOfKind k).1 ↔ a.kind = k ∧ ∃ f, (a, f) ∈ o.source.scan
  axiomsAbout : ∀ x a, a ∈ (o.axiomsAbout x).1 ↔
    (∃ n ∈ a.base.topics, x = .node n) ∧ ∃ f, (a, f) ∈ o.source.scan
  generalAxioms : ∀ a, a ∈ o.generalAxioms.1 ↔
    a.base.isGeneral = true ∧ ∃ f, (a, f) ∈ o.source.scan

/-- If the indices follow an edit, they read again whatever the operation makes read differently. -/
def Keeps (o : Ontology) (op : Operation) : Prop :=
  ∀ ts, o.edit? op = some ts → (o.store.sync o.graph).indices? ≠ none →
    Covered o.settings o.triples (o.perform op).triples ts

/-- A sound store answers right. -/
theorem Sound.answersRight (h : o.Sound) : o.AnswersRight := by
  have hcurrent := AxiomStore.Sound.indices h
  have haxioms := hcurrent.axioms
  have htopics := hcurrent.holds_topics
  refine ⟨fun a => haxioms.mem_axioms_iff, fun a f => haxioms.mem_footprintsOf a f, ?_,
    fun k a => haxioms.mem_ofKind a k, fun x a => ?_, fun a => ?_⟩
  · have hsize : o.axiomCount.1 = (o.store.indices o.graph).1.axioms.axioms.length := by
      unfold AxiomIndex.axioms Table.keys
      rw [List.length_map]
      rfl
    -- each axiom read is listed once, so their number is the size of the set
    have hset : (o.source.scan.map Prod.fst).toFinset =
        (o.store.indices o.graph).1.axioms.axioms.toFinset := by
      ext a
      rw [List.mem_toFinset, List.mem_toFinset, haxioms.mem_axioms_iff, List.mem_map]
      constructor
      · rintro ⟨⟨b, f⟩, hf, rfl⟩
        exact ⟨f, hf⟩
      · rintro ⟨f, hf⟩
        exact ⟨(a, f), hf, rfl⟩
    rw [hsize, hset]
    exact (List.toFinset_card_of_nodup (Table.nodup_keys _)).symm
  · cases x with
    | literal l =>
      constructor
      · intro ha
        cases ha
      · rintro ⟨⟨n, -, hn⟩, -⟩
        cases hn
    | node n =>
      have habout : a ∈ (o.axiomsAbout (.node n)).1 ↔
          a ∈ (o.store.indices o.graph).1.topics.byTopic.bucket n := Iff.rfl
      rw [habout, htopics.mem_byTopic, and_comm]
      refine and_congr_left fun _ => ?_
      simp
  · rw [and_comm]
    exact htopics.mem_general a

/-- A step keeps a store sound, if the indices read again whatever its edit makes read
differently. -/
theorem Step.sound {edit? : Option (List Triple)} (hstep : Step o o' edit?) (h : o.Sound)
    (hkeeps : ∀ ts, edit? = some ts → (o.store.sync o.graph).indices? ≠ none →
      Covered o.settings o.triples o'.triples ts) : o'.Sound := by
  have hline := AxiomStore.Sound.sync h
  unfold Ontology.Sound
  cases hstep with
  | aside hlater hstore =>
    rw [hstore]
    exact AxiomStore.Sound.later h hlater
  | dropped hnone => exact AxiomStore.sound_of_none hnone
  | rested hsame hsettings hgeneration hindices =>
    refine (AxiomStore.inLine_of_same hsame hsettings hgeneration fun I hI => ?_).sound
    rw [hindices] at hI
    have hcurrent := hline.current I hI
    rw [AxiomStore.source_sync] at hcurrent
    exact hcurrent
  | followed ts hedit hstore =>
    rw [hstore]
    refine (hline.follow fun hsome => ?_).sound
    rw [AxiomStore.settings_sync]
    exact hkeeps ts hedit hsome
  | asked hgraph hsettings hgeneration I hI hindices =>
    have hcurrent := AxiomStore.Sound.indices h
    rw [hgraph]
    refine (AxiomStore.inLine_of_same rfl hsettings hgeneration fun I' hI' => ?_).sound
    obtain rfl : I = I' := Option.some.inj (hindices.symm.trans hI')
    rcases hI with rfl | rfl
    · exact hcurrent
    · exact hcurrent.withTopics

/-- If the answers are right after an operation, the edit was covered. -/
theorem Step.covered {edit? : Option (List Triple)} (hstep : Step o o' edit?) (h : o.Sound)
    (hright : o'.AnswersRight) {ts : List Triple} (hedit : edit? = some ts)
    (hsome : (o.store.sync o.graph).indices? ≠ none) :
    Covered o.settings o.triples o'.triples ts := by
  cases hstep with
  | aside _ _ hnone => cases hnone.symm.trans hedit
  | dropped _ hnone => cases hnone.symm.trans hedit
  | asked _ _ _ _ _ _ hnone => cases hnone.symm.trans hedit
  | rested hsame =>
    rw [hsame]
    exact fun _ _ _ _ _ => Iff.rfl
  | followed us hus hstore =>
    obtain rfl : us = ts := Option.some.inj (hus.symm.trans hedit)
    obtain ⟨I, hI⟩ := Option.ne_none_iff_exists'.1 hsome
    have hcurrent := (AxiomStore.Sound.sync h).current I hI
    cases hfollow : I.follow o.settings o.triples o'.triples us with
    | none =>
      rw [follow_eq, Option.map_eq_none_iff] at hfollow
      intro ms hms
      cases hfollow.symm.trans hms
    | some I' =>
      unfold AxiomStore.source at hcurrent
      rw [AxiomStore.settings_sync] at hcurrent
      -- the indices followed the edit, so their footprints are those of the answers
      refine (covered_iff hcurrent hfollow).2 fun a f => ?_
      have hkept : (o'.store.indices o'.graph).1 = I' :=
        AxiomStore.indices_of_follow hstore hI (by rw [AxiomStore.settings_sync]; exact hfollow)
      have hsource : o'.source = ⟨o'.triples, o.settings⟩ := by
        unfold source AxiomStore.source
        rw [hstore]
        exact congrArg (Source.mk _) AxiomStore.settings_sync
      have hanswer := hright.footprints a f
      rw [hsource] at hanswer
      rw [← hanswer, ← hkept]
      exact Iff.rfl

/-! ## Runs -/

/-- Every operation of a run is kept up with. -/
def KeepsAlong : Ontology → List Operation → Prop
  | _, [] => True
  | o, op :: ops => o.Keeps op ∧ (o.perform op).KeepsAlong ops

/-- The answers are right at the start of a run and after each operation. -/
def AnswersRightAlong : Ontology → List Operation → Prop
  | o, [] => o.AnswersRight
  | o, op :: ops => o.AnswersRight ∧ (o.perform op).AnswersRightAlong ops

/-- The answers are right all along a run exactly if every operation is kept up with. -/
theorem Sound.answersRightAlong_iff (h : o.Sound) : o.AnswersRightAlong ops ↔ o.KeepsAlong ops := by
  induction ops generalizing o with
  | nil => exact iff_of_true h.answersRight trivial
  | cons op ops ih =>
    constructor
    · rintro ⟨-, hright⟩
      have hnext : (o.perform op).AnswersRight := by
        cases ops with
        | nil => exact hright
        | cons op' ops => exact hright.1
      have hkeeps : o.Keeps op := fun ts hedit hsome =>
        step_perform.covered h hnext hedit hsome
      exact ⟨hkeeps, (ih (step_perform.sound h hkeeps)).1 hright⟩
    · rintro ⟨hkeeps, hrest⟩
      exact ⟨h.answersRight, (ih (step_perform.sound h hkeeps)).2 hrest⟩

/-! ## Tidy runs -/

/-- The triples of the ontology are tidy. -/
def Tidy (o : Ontology) : Prop := o.triples.Tidy o.settings.listLimit

/-- The triples are tidy at the start of a run and after each operation. -/
def TidyAlong : Ontology → List Operation → Prop
  | o, [] => o.Tidy
  | o, op :: ops => o.Tidy ∧ (o.perform op).TidyAlong ops

/-- The triples of an edit are all that the operation changes. -/
theorem sameBut_perform {ts : List Triple} (hedit : o.edit? op = some ts) :
    SameBut ts o.triples (o.perform op).triples := by
  have hrest : ∀ {g : Graph}, g.union = o.graph.union → SameBut ts o.triples g.union :=
    fun heq => congrArg (fun S : TripleSet => S.toList.filter _) heq.symm
  cases op with
  | insert t =>
    unfold perform insert AxiomStore.insertTriple
    unfold edit? at hedit
    dsimp only at hedit ⊢
    split at hedit
    case isTrue => cases hedit
    case isFalse hnew =>
      cases hedit
      rw [if_neg hnew]
      show SameBut [t] o.graph.union (o.graph.insertAll [t]).2.union
      exact Graph.sameBut_insertAll
  | remove t =>
    unfold perform remove AxiomStore.removeTriple
    unfold edit? at hedit
    dsimp only at hedit ⊢
    split at hedit
    case isFalse => cases hedit
    case isTrue hold =>
      cases hedit
      rw [if_pos hold]
      show SameBut [t] o.graph.union (o.graph.removeAll [t]).2.union
      exact Graph.sameBut_removeAll
  | addAxiom a =>
    have hmissing : ∀ {f supply}, a.encode o.bench.supply = .ok (f, supply) →
        o.graph.missing f = ts := by
      intro f supply hencode
      unfold edit? at hedit
      dsimp only at hedit
      rw [hencode] at hedit
      exact Option.some.inj hedit
    have houtcome : AxiomStore.Outcome (o.store.sync o.graph) o.bench a (o.store.add o.bench a) :=
      AxiomStore.outcome_add
    show SameBut ts o.triples (o.store.add o.bench a).2.2.graph.union
    generalize o.store.add o.bench a = r at houtcome ⊢
    cases houtcome with
    | refused hgraph => exact hrest (congrArg Graph.union hgraph)
    -- an addition that is taken back leaves the graph it found
    | undone hback =>
      subst hback
      exact hrest (Graph.union_removeAll_insertAll fun t ht => (Graph.mem_missing.1 ht).2)
    | written hencode =>
      rw [← hmissing hencode]
      exact Graph.sameBut_insertAll
  | removeAxiom a =>
    unfold perform removeAxiom AxiomStore.remove
    unfold edit? at hedit
    dsimp only at hedit ⊢
    split at hedit
    case h_2 => cases hedit
    case h_1 hleaving =>
      subst hedit
      rw [hleaving]
      dsimp only
      split
      case isTrue => exact hrest rfl
      case isFalse => exact Graph.sameBut_removeAll
  | _ => cases hedit

/-- No operation changes the settings. -/
theorem settings_perform : (o.perform op).settings = o.settings := by
  have hdone : ∀ {g : Graph} {ts}, ((o.store.sync o.graph).follow o.graph g ts).settings =
      o.settings := AxiomStore.settings_sync
  cases op with
  | insert t =>
    unfold perform insert AxiomStore.insertTriple
    dsimp only
    split
    case isTrue => rfl
    case isFalse => exact hdone
  | remove t =>
    unfold perform remove AxiomStore.removeTriple
    dsimp only
    split
    case isTrue => exact hdone
    case isFalse => rfl
  | addAxiom a =>
    have houtcome : AxiomStore.Outcome (o.store.sync o.graph) o.bench a (o.store.add o.bench a) :=
      AxiomStore.outcome_add
    show (o.store.add o.bench a).2.1.settings = o.settings
    generalize o.store.add o.bench a = r at houtcome ⊢
    cases houtcome with
    | refused => exact AxiomStore.settings_sync
    | undone => exact AxiomStore.settings_sync
    | written => exact hdone
  | removeAxiom a =>
    unfold perform removeAxiom AxiomStore.remove
    dsimp only
    split
    case h_1 => exact AxiomStore.settings_sync
    case h_2 => exact AxiomStore.settings_sync
    case h_3 =>
      split
      case isTrue => exact AxiomStore.settings_sync
      case isFalse => exact hdone
  | create i x => exact congrArg AxiomStore.settings later_create.2
  | normalize =>
    unfold perform normalize
    dsimp only
    split <;> rfl
  | addImport i => rfl
  | removeImport tag => rfl
  | replaceGraph g => rfl
  | _ => exact AxiomStore.settings_sync

/-- Operations between tidy ontologies are kept up with. -/
theorem Tidy.keeps (h : o.Tidy) (hnext : (o.perform op).Tidy) (hbudget : o.settings.budget = none) :
    o.Keeps op := by
  intro ts hedit _
  unfold Tidy at hnext
  rw [settings_perform] at hnext
  exact covered_of_tidy (sameBut_perform hedit) h hnext hbudget

/-- A tidy run is kept up with. -/
theorem TidyAlong.keepsAlong (h : o.TidyAlong ops) (hbudget : o.settings.budget = none) :
    o.KeepsAlong ops := by
  induction ops generalizing o with
  | nil => trivial
  | cons op ops ih =>
    obtain ⟨htidy, hrest⟩ := h
    have hnext : (o.perform op).Tidy := by
      cases ops with
      | nil => exact hrest
      | cons op' ops => exact hrest.1
    exact ⟨htidy.keeps hnext hbudget, ih hrest (by rw [settings_perform, hbudget])⟩

/-- An ontology starts without indices. -/
theorem sound_ofGraph {s : Settings} {w : Workbench} : (ofGraph s w).Sound := by
  refine AxiomStore.sound_of_none ?_
  unfold ofGraph normalize
  dsimp only
  split
  case isTrue =>
    split
    case isTrue => rfl
    case isFalse => rfl
  case isFalse => rfl

/-- An ontology made of a graph has the settings it was given. -/
theorem settings_ofGraph {s : Settings} {w : Workbench} : (ofGraph s w).settings = s := by
  unfold ofGraph normalize
  dsimp only
  split
  case isTrue => split <;> rfl
  case isFalse => rfl

/-- **Runs.** Whatever is done with the ontology of a graph, in any order, its answers about axioms
are those that the graph gives when it is read anew, exactly if each edit that the indices follow
makes no main triple read differently but those that they read again.  Without a budget this is so
as long as the triples are tidy. -/
theorem right_along (s : Settings) (w : Workbench) (ops : List Operation) :
    ((ofGraph s w).AnswersRightAlong ops ↔ (ofGraph s w).KeepsAlong ops) ∧
      (s.budget = none → (ofGraph s w).TidyAlong ops → (ofGraph s w).AnswersRightAlong ops) := by
  have hiff : (ofGraph s w).AnswersRightAlong ops ↔ (ofGraph s w).KeepsAlong ops :=
    sound_ofGraph.answersRightAlong_iff
  refine ⟨hiff, fun hbudget htidy => hiff.2 (htidy.keepsAlong ?_)⟩
  rw [settings_ofGraph, hbudget]

/-- A run that is kept up with: the triple that gives a group its members is written after the
axioms were asked for, and the group is a blank node. -/
theorem right_along_of_blank_group :
    let a : Iri := .ofValue "http://example.org/a"
    let b : Iri := .ofValue "http://example.org/b"
    let group : Node := .blank ⟨"group"⟩
    let list : Node := .blank ⟨"list"⟩
    let cell : Node := .blank ⟨"cell"⟩
    let typed : Triple := .typing group (.owl .AllDisjointClasses)
    let members : Triple := ⟨group, .owl .members, .node list⟩
    let cells : List Triple := [⟨list, .rdf .first, .node (.iri a)⟩, ⟨list, .rdf .rest, .node cell⟩,
      ⟨cell, .rdf .first, .node (.iri b)⟩, ⟨cell, .rdf .rest, .node (.iri (.rdf .nil))⟩]
    let o := ofGraph { normalizeOnLoad := false } ⟨{ base := .ofList (typed :: cells) }, ⟨"n", 0⟩⟩
    let ops : List Operation := [.axioms, .insert members]
    o.AnswersRightAlong ops ∧ .of (.disjointClasses [.named a, .named b]) [] ∈
      ((o.perform .axioms).perform (.insert members)).axioms.1 := by
  intro a b group list cell typed members cells o ops
  let after := (o.perform .axioms).perform (.insert members)
  let disjoint : AnnotatedAxiom := .of (.disjointClasses [.named a, .named b]) []
  have hstart : o.Tidy := tidy_of_forall (by decide +kernel) (by decide +kernel)
    (by decide +kernel) (by decide +kernel)
  have hend : after.Tidy := tidy_of_forall (by decide +kernel) (by decide +kernel)
    (by decide +kernel) (by decide +kernel)
  have hright : o.AnswersRightAlong ops :=
    (right_along { normalizeOnLoad := false } _ ops).2 rfl ⟨hstart, hstart, hend⟩
  have hread : (disjoint, (⟨typed, members :: cells⟩ : Footprint)) ∈ after.source.scan := by
    decide +kernel
  have hafter : after.AnswersRight := hright.2.2
  exact ⟨hright, (hafter.axioms disjoint).2 ⟨_, hread⟩⟩

/-- A run that is not kept up with: the triple that gives a named group its members is written
after the axioms were asked for, and the axiom of the group is not read. -/
theorem not_right_along_of_named_group :
    let a : Iri := .ofValue "http://example.org/a"
    let b : Iri := .ofValue "http://example.org/b"
    let group : Node := .iri (.ofValue "http://example.org/group")
    let list : Node := .blank ⟨"list"⟩
    let cell : Node := .blank ⟨"cell"⟩
    let typed : Triple := .typing group (.owl .AllDisjointClasses)
    let members : Triple := ⟨group, .owl .members, .node list⟩
    let cells : List Triple := [⟨list, .rdf .first, .node (.iri a)⟩, ⟨list, .rdf .rest, .node cell⟩,
      ⟨cell, .rdf .first, .node (.iri b)⟩, ⟨cell, .rdf .rest, .node (.iri (.rdf .nil))⟩]
    let declared : List Triple := [.typing (.iri a) (.owl .Class), .typing (.iri b) (.owl .Class)]
    let o := ofGraph { normalizeOnLoad := false }
      ⟨{ base := .ofList (typed :: declared ++ cells) }, ⟨"n", 0⟩⟩
    ¬ o.AnswersRightAlong [.axioms, .insert members] := by
  intro a b group list cell typed members cells declared o hright
  let after := (o.perform .axioms).perform (.insert members)
  let disjoint : AnnotatedAxiom := .of (.disjointClasses [.named a, .named b]) []
  have hread : (disjoint, (⟨typed, members :: cells⟩ : Footprint)) ∈ after.source.scan := by
    decide +kernel
  have hmissing : disjoint ∉ after.axioms.1 := by decide +kernel
  have hafter : after.AnswersRight := hright.2.2
  exact hmissing ((hafter.axioms disjoint).2 ⟨_, hread⟩)

end Ontology

end Ontograph
