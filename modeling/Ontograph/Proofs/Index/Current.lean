import Ontograph.Index.Upkeep
import Ontograph.Proofs.Index.Entries

/-!
# Keeping the indices current

Indices are current if they hold exactly what is read from a source (`Indices.Current`).  After an
edit only some main triples are read again, so current indices stay current exactly if every main
triple that is read differently is among these (`Indices.covered_iff`, `Indices.Current.follow`).
-/

namespace Ontograph

/-! ## The index of topics -/

namespace TopicIndex

variable {T : TopicIndex} {A : AnnotatedAxiom → Prop} {a : AnnotatedAxiom}

/-- The axioms filed, in every place where they belong. -/
structure Holds (T : TopicIndex) (A : AnnotatedAxiom → Prop) : Prop where
  mem_byTopic : ∀ a n, a ∈ T.byTopic.bucket n ↔ A a ∧ n ∈ a.base.topics
  mem_general : ∀ a, a ∈ T.general ↔ A a ∧ a.base.isGeneral = true

/-- What is filed depends on which axioms are meant, and not on how they are described. -/
theorem Holds.congr {A' : AnnotatedAxiom → Prop} (h : T.Holds A) (heq : ∀ a, A a ↔ A' a) :
    T.Holds A' := by
  obtain rfl : A = A' := by
    funext a
    exact propext (heq a)
  exact h

/-- The empty index of topics files no axioms. -/
theorem holds_empty : Holds {} fun _ => False := by
  refine ⟨fun a n => ?_, fun a => ?_⟩
  · simp
  · simp

/-- Filing an axiom adds it wherever it belongs. -/
theorem Holds.insert (h : T.Holds A) : (T.insert a).Holds fun b => A b ∨ b = a := by
  have hfile : ∀ (ns : List Node) (B : Table Node (List AnnotatedAxiom)) (b : AnnotatedAxiom)
      (n : Node), b ∈ (ns.foldl (fun B n => B.file n a) B).bucket n ↔
        b ∈ B.bucket n ∨ n ∈ ns ∧ b = a := by
    intro ns
    induction ns with
    | nil => simp
    | cons m ns ih =>
      intro B b n
      rw [List.foldl_cons, ih, Table.mem_bucket_file, List.mem_cons]
      tauto
  refine ⟨fun b n => ?_, fun b => ?_⟩
  · rw [TopicIndex.insert, hfile, h.mem_byTopic]
    constructor
    · rintro (⟨hb, hn⟩ | ⟨hn, rfl⟩)
      · exact ⟨Or.inl hb, hn⟩
      · exact ⟨Or.inr rfl, hn⟩
    · rintro ⟨hb | rfl, hn⟩
      · exact Or.inl ⟨hb, hn⟩
      · exact Or.inr ⟨hn, rfl⟩
  · have hgeneral : (T.insert a).general =
        if a.base.isGeneral && !T.general.contains a then T.general ++ [a] else T.general := rfl
    rw [hgeneral]
    split
    case isTrue hnew =>
      rw [Bool.and_eq_true] at hnew
      rw [List.mem_append, List.mem_singleton, h.mem_general]
      constructor
      · rintro (⟨hb, hg⟩ | rfl)
        · exact ⟨Or.inl hb, hg⟩
        · exact ⟨Or.inr rfl, hnew.1⟩
      · rintro ⟨hb | rfl, hg⟩
        · exact Or.inl ⟨hb, hg⟩
        · exact Or.inr rfl
    case isFalse hold =>
      rw [h.mem_general]
      constructor
      · rintro ⟨hb, hg⟩
        exact ⟨Or.inl hb, hg⟩
      · rintro ⟨hb | rfl, hg⟩
        · exact ⟨hb, hg⟩
        · have hmem : b ∈ T.general := by simpa [hg] using hold
          exact (h.mem_general b).1 hmem

/-- Taking an axiom out leaves every other one where it belongs. -/
theorem Holds.erase (h : T.Holds A) : (T.erase a).Holds fun b => A b ∧ b ≠ a := by
  have hunfile : ∀ (ns : List Node) (B : Table Node (List AnnotatedAxiom)) (b : AnnotatedAxiom)
      (n : Node), b ∈ (ns.foldl (fun B n => B.unfile n a) B).bucket n ↔
        b ∈ B.bucket n ∧ ¬ (n ∈ ns ∧ b = a) := by
    intro ns
    induction ns with
    | nil => simp
    | cons m ns ih =>
      intro B b n
      rw [List.foldl_cons, ih, Table.mem_bucket_unfile, List.mem_cons]
      tauto
  refine ⟨fun b n => ?_, fun b => ?_⟩
  · rw [TopicIndex.erase, hunfile, h.mem_byTopic]
    constructor
    · rintro ⟨⟨hb, hn⟩, hne⟩
      exact ⟨⟨hb, fun he => hne ⟨he ▸ hn, he⟩⟩, hn⟩
    · rintro ⟨⟨hb, hne⟩, hn⟩
      exact ⟨⟨hb, hn⟩, fun he => hne he.2⟩
  · rw [TopicIndex.erase, List.mem_filter, h.mem_general, decide_eq_true_iff]
    tauto

/-- The index of some axioms files them all. -/
theorem holds_ofList {as : List AnnotatedAxiom} : (ofList as).Holds (· ∈ as) := by
  have hfold : ∀ {as : List AnnotatedAxiom} {T : TopicIndex} {A : AnnotatedAxiom → Prop},
      T.Holds A → (as.foldl TopicIndex.insert T).Holds fun b => A b ∨ b ∈ as := by
    intro as
    induction as with
    | nil => exact fun h => h.congr fun b => by simp
    | cons a as ih =>
      intro T A h
      refine (ih h.insert).congr fun b => ?_
      rw [List.mem_cons, or_assoc]
  exact (hfold holds_empty).congr fun b => by rw [false_or]

end TopicIndex

/-! ## Both indices -/

namespace Indices

variable {I I' : Indices} {R : Source} {s : Settings} {before after : TripleSet}
  {ts ms : List Triple} {E : AnnotatedAxiom → Footprint → Prop}

/-- The indices hold exactly what is read from the source. -/
structure Current (I : Indices) (R : Source) : Prop where
  axioms : I.axioms.Holds fun a f => (a, f) ∈ R.scan
  topics : ∀ T, I.topics? = some T → T.Holds fun a => ∃ f, (a, f) ∈ R.scan

/-- Indices that were just built are current. -/
theorem current_ofSource : (ofSource R).Current R :=
  ⟨AxiomIndex.holds_ofSource R, fun _ h => nomatch h⟩

/-- The topics of indices that are current are those of the axioms read from the source. -/
theorem Current.holds_topics (h : I.Current R) :
    I.topics.Holds fun a => ∃ f, (a, f) ∈ R.scan := by
  unfold Indices.topics
  cases htopics : I.topics? with
  | none => exact TopicIndex.holds_ofList.congr fun a => h.axioms.mem_axioms_iff
  | some T => exact h.topics T htopics

/-- Asking for topics keeps the indices current. -/
theorem Current.withTopics (h : I.Current R) : I.withTopics.Current R := by
  refine ⟨h.axioms, ?_⟩
  rintro T ⟨⟩
  exact h.holds_topics

/-- The axioms that were touched are filed if they are in the index, and no others are moved. -/
theorem holds_refile {I : AxiomIndex} {touched : List AnnotatedAxiom} {T : TopicIndex}
    {A : AnnotatedAxiom → Prop} (hT : T.Holds A) :
    (refile I touched T).Holds fun a => if a ∈ touched then I.contains a = true else A a := by
  unfold refile
  induction touched generalizing T A with
  | nil => exact hT.congr fun a => by simp
  | cons b touched ih =>
    rw [List.foldl_cons]
    have hstep : (if I.contains b then T.insert b else T.erase b).Holds fun a =>
        if a = b then I.contains a = true else A a := by
      split
      case isTrue hb =>
        refine hT.insert.congr fun a => ?_
        by_cases hab : a = b
        · simp [hab, hb]
        · simp [hab]
      case isFalse hb =>
        refine hT.erase.congr fun a => ?_
        by_cases hab : a = b
        · simp [hab, hb]
        · simp [hab]
    refine (ih hstep).congr fun a => ?_
    by_cases ha : a ∈ touched
    · simp [ha]
    · by_cases hab : a = b <;> simp [ha, hab]

/-- After some main triples were read again, they stand for what is read from them now. -/
theorem axioms_refresh (h : I.axioms.Holds E) : (I.refresh R ms).axioms.Holds fun a f =>
    if f.main ∈ ms then (a, f) ∈ R.axiomsAt f.main else E a f := h.rereadAll

/-- The topics follow the axioms. -/
theorem topics_refresh {T : TopicIndex} (h : I.axioms.Holds E)
    (htopics : ∀ T, I.topics? = some T → T.Holds fun a => ∃ f, E a f)
    (hT : (I.refresh R ms).topics? = some T) : T.Holds fun a =>
      ∃ f, if f.main ∈ ms then (a, f) ∈ R.axiomsAt f.main else E a f := by
  have hmap : (I.refresh R ms).topics? = I.topics?.map
      (refile (AxiomIndex.rereadAll R ms I.axioms).2 (AxiomIndex.rereadAll R ms I.axioms).1) := rfl
  rw [hmap] at hT
  obtain ⟨T', hT', rfl⟩ := Option.map_eq_some_iff.1 hT
  refine (holds_refile (htopics T' hT')).congr fun a => ?_
  have hreread : (AxiomIndex.rereadAll R ms I.axioms).2.Holds _ := h.rereadAll
  have hcontains := hreread.contains_iff (a := a)
  by_cases ha : a ∈ (AxiomIndex.rereadAll R ms I.axioms).1
  · rw [if_pos ha, hcontains]
  · rw [if_neg ha]
    exact exists_congr fun f => (h.mem_rereadAll ha).symm

/-! ## One edit -/

/-- The main triples that are read again after an edit, if the indices are kept. -/
def rereadMains? (s : Settings) (before after : TripleSet) (ts : List Triple) :
    Option (List Triple) :=
  match changedAnswers? s before after ts with
  | none => none
  | some changed =>
    if changed.any after.isDependedOn then none
    else
      let seeds := ts ++ changed.flatMap fun q => after.mentioning q.node
      some (before.mainsNear ts ++ after.mainsNear seeds).eraseDups

/-- Indices that follow an edit have main triples read again. -/
theorem follow_eq : I.follow s before after ts =
    (rereadMains? s before after ts).map fun ms => I.refresh ⟨after, s⟩ ms := by
  unfold follow rereadMains?
  cases changedAnswers? s before after ts with
  | none => rfl
  | some changed =>
    dsimp only
    split
    case isTrue => rfl
    case isFalse => rfl

/-- If the indices are kept after an edit, every main triple that is read differently is read
again. -/
def Covered (s : Settings) (before after : TripleSet) (ts : List Triple) : Prop :=
  ∀ ms, rereadMains? s before after ts = some ms → ∀ m ∉ ms, ∀ r,
    r ∈ Source.axiomsAt ⟨before, s⟩ m ↔ r ∈ Source.axiomsAt ⟨after, s⟩ m

/-- Kept indices have the footprints that are read exactly if the edit is covered. -/
theorem covered_iff (h : I.Current ⟨before, s⟩)
    (hfollow : I.follow s before after ts = some I') : Covered s before after ts ↔
      ∀ a f, f ∈ I'.axioms.footprintsOf a ↔ (a, f) ∈ Source.scan ⟨after, s⟩ := by
  rw [follow_eq] at hfollow
  obtain ⟨ms, hms, rfl⟩ := Option.map_eq_some_iff.1 hfollow
  have hholds : (I.refresh ⟨after, s⟩ ms).axioms.Holds _ := axioms_refresh h.axioms
  have hread : (∀ a f, f ∈ (I.refresh ⟨after, s⟩ ms).axioms.footprintsOf a ↔
      (a, f) ∈ Source.scan ⟨after, s⟩) ↔ ∀ a (f : Footprint), f.main ∉ ms →
      ((a, f) ∈ Source.axiomsAt ⟨before, s⟩ f.main ↔
        (a, f) ∈ Source.axiomsAt ⟨after, s⟩ f.main) := by
    refine forall_congr' fun a => forall_congr' fun f => ?_
    rw [hholds.mem_footprintsOf, Source.mem_scan_iff, Source.mem_scan_iff]
    by_cases hf : f.main ∈ ms
    · simp [hf]
    · simp [hf]
  -- what is read again is right in any case
  rw [hread]
  constructor
  · intro hcovered a f hf
    exact hcovered ms hms f.main hf (a, f)
  · intro hsame ms' hms' m hm r
    obtain rfl : ms = ms' := Option.some.inj (hms.symm.trans hms')
    obtain ⟨a, f⟩ := r
    constructor
    · intro hr
      obtain rfl := Source.main_of_mem_axiomsAt hr
      exact (hsame a f hm).1 hr
    · intro hr
      obtain rfl := Source.main_of_mem_axiomsAt hr
      exact (hsame a f hm).2 hr

/-- **One edit.** Current indices that are kept after a covered edit are current again. -/
theorem Current.follow (h : I.Current ⟨before, s⟩)
    (hfollow : I.follow s before after ts = some I') (hcovered : Covered s before after ts) :
    I'.Current ⟨after, s⟩ := by
  have hscan := (covered_iff h hfollow).1 hcovered
  rw [follow_eq] at hfollow
  obtain ⟨ms, -, rfl⟩ := Option.map_eq_some_iff.1 hfollow
  have hholds : (I.refresh ⟨after, s⟩ ms).axioms.Holds _ := axioms_refresh h.axioms
  have heq : ∀ a (f : Footprint), (if f.main ∈ ms then
      (a, f) ∈ Source.axiomsAt ⟨after, s⟩ f.main else (a, f) ∈ Source.scan ⟨before, s⟩) ↔
      (a, f) ∈ Source.scan ⟨after, s⟩ := by
    intro a f
    rw [← hscan, hholds.mem_footprintsOf]
  refine ⟨hholds.congr heq, fun T hT => ?_⟩
  exact (topics_refresh h.axioms h.topics hT).congr fun a => exists_congr fun f => heq a f

end Indices

end Ontograph
