import Ontograph.Index.Store
import Ontograph.Proofs.Graph.Edits
import Ontograph.Proofs.Index.Entries

/-!
# Writing with and without an index

A store that has built its index looks an axiom up in it, and takes out the triples that no other
axiom uses.  A store without an index writes the axiom first, looks for it at the main triples that
fit the one it wrote, and asks only the axioms near its triples whether they use them.  The two do
not always agree: an addition does, unless the axiom is read only where nothing that is written for
it fits (`AxiomStore.add_agree_iff`); a removal does if the axiom can be written and is not there,
or is found there and leaves with the same triples (`AxiomStore.remove_agree_iff`).
-/

namespace Ontograph

namespace Source

variable {R : Source} {a b : AnnotatedAxiom} {f : Footprint} {m t : Triple}

/-- The triples of an axiom that no other axiom is read from. -/
def Leaves (R : Source) (a : AnnotatedAxiom) (t : Triple) : Prop :=
  (∃ f, (a, f) ∈ R.scan ∧ t ∈ f.triples) ∧ ∀ b f, (b, f) ∈ R.scan → t ∈ f.triples → b = a

/-- The axiom is read from a main triple that fits the one written for it. -/
def Locates (R : Source) (a : AnnotatedAxiom) (written f : Footprint) : Prop :=
  (a, f) ∈ R.scan ∧ (mainPattern written.main).admits f.main = true

/-- The triples of an axiom, where it is found, that no axiom near them is read from. -/
def LeavesNear (R : Source) (a : AnnotatedAxiom) (written : Footprint) (t : Triple) : Prop :=
  (∃ f, R.Locates a written f ∧ t ∈ f.triples) ∧ ∀ b f, (b, f) ∈ R.scan →
    f.main ∈ R.triples.mainsNear ((R.locate a written).flatMap Footprint.triples) →
    t ∈ f.triples → b = a

/-- The footprints found for an axiom are those whose main triple fits the one written for it. -/
theorem mem_locate_iff {written : Footprint} :
    f ∈ R.locate a written ↔ R.Locates a written f := by
  unfold locate Locates
  rw [mem_scan_iff]
  simp only [List.mem_filterMap, List.mem_flatMap, TripleSet.mem_find]
  constructor
  · rintro ⟨⟨b, g⟩, ⟨m, ⟨-, hm⟩, hread⟩, hsome⟩
    split at hsome
    case isTrue hb =>
      obtain rfl : b = a := hb
      obtain rfl : g = f := Option.some.inj hsome
      rw [main_of_mem_axiomsAt hread]
      exact ⟨hread, hm⟩
    case isFalse => cases hsome
  · rintro ⟨hread, hm⟩
    refine ⟨(a, f), ⟨f.main, ⟨?_, hm⟩, hread⟩, if_pos rfl⟩
    by_contra hno
    have hnone : R.axiomsAt f.main = [] := if_neg hno
    rw [hnone] at hread
    cases hread

end Source

/-- The triples of a footprint that no layer holds. -/
def Graph.missing (g : Graph) (f : Footprint) : List Triple :=
  f.triples.filter fun t => !g.contains t

/-- The missing triples of a footprint are those that no layer has. -/
theorem Graph.mem_missing {g : Graph} {f : Footprint} {t : Triple} :
    t ∈ g.missing f ↔ t ∈ f.triples ∧ t ∉ g := by
  simp [missing, ← Graph.contains_iff]

/-- The graph with a footprint. -/
abbrev Graph.withFootprint (g : Graph) (f : Footprint) : Graph := (g.insertAll (g.missing f)).2

namespace AxiomStore

variable {s : Settings} {w : Workbench} {g : Graph} {a : AnnotatedAxiom} {f : Footprint}
  {supply : Supply} {t : Triple}

/-- A store that has just built its index of a graph. -/
def built (s : Settings) (g : Graph) : AxiomStore := (({ settings := s } : AxiomStore).indices g).2

/-- Answers of the same kind: the same truth value, or errors of the same kind. -/
def SameKind : Except AxiomError Bool → Except AxiomError Bool → Prop
  | .ok b, .ok c => b = c
  | .error (.malformed _), .error (.malformed _) => True
  | .error (.roleMismatch _), .error (.roleMismatch _) => True
  | _, _ => False

/-- Two writes agree if they give answers of the same kind and leave the same graph. -/
def Agree (x y : Except AxiomError Bool × AxiomStore × Workbench) : Prop :=
  SameKind x.1 y.1 ∧ x.2.2.graph = y.2.2.graph

instance : DecidableRel SameKind
  | .ok b, .ok c => inferInstanceAs (Decidable (b = c))
  | .ok _, .error _ => .isFalse id
  | .error (.malformed _), .ok _ => .isFalse id
  | .error (.roleMismatch _), .ok _ => .isFalse id
  | .error (.malformed _), .error (.malformed _) => .isTrue trivial
  | .error (.roleMismatch _), .error (.roleMismatch _) => .isTrue trivial
  | .error (.malformed _), .error (.roleMismatch _) => .isFalse id
  | .error (.roleMismatch _), .error (.malformed _) => .isFalse id

instance : DecidableRel Agree := fun _ _ => inferInstanceAs (Decidable (_ ∧ _))

/-- Every answer is of its own kind. -/
theorem sameKind_refl (x : Except AxiomError Bool) : SameKind x x := by
  cases x with
  | ok b => rfl
  | error e => cases e <;> trivial

/-- A store without an index notes the generation of the graph and nothing else. -/
theorem sync_bare : ({ settings := s } : AxiomStore).sync g = ⟨s, none, g.generation⟩ := by
  unfold sync
  split
  case isTrue h =>
    have hzero : g.generation = 0 := h.symm
    rw [hzero]
  case isFalse => rfl

/-- A store that has just built its index, spelt out. -/
theorem built_eq : built s g = ⟨s, some (.ofSource ⟨g.union, s⟩), g.generation⟩ := by
  have hbuilt : built s g = { ({ settings := s } : AxiomStore).sync g with
      indices? := some ((({ settings := s } : AxiomStore).sync g).indices?.getD
        (.ofSource ((({ settings := s } : AxiomStore).sync g).source g))) } := rfl
  rw [hbuilt, sync_bare]
  rfl

/-- A store that has just built its index has nothing to drop. -/
theorem sync_built : (built s g).sync g = built s g := by
  rw [built_eq]
  exact if_pos rfl

/-! ## Additions -/

/-- What an addition can come to: nothing is written; or the triples that were missing are written
and taken back, for they do not read as the axiom; or they are written and read as the axiom. -/
inductive Outcome (st : AxiomStore) (w : Workbench) (a : AnnotatedAxiom) :
    Except AxiomError Bool × AxiomStore × Workbench → Prop
  | refused {answer : Except AxiomError Bool} {w' : Workbench} (hgraph : w'.graph = w.graph)
    (hanswer : answer ≠ .ok true) : Outcome st w a (answer, st, w')
  | undone {f : Footprint} {supply : Supply} {back : Graph}
    (hback : back = ((w.graph.withFootprint f).removeAll (w.graph.missing f)).2) :
    Outcome st w a
      (.error (.roleMismatch a), { st with generation := back.generation }, ⟨back, supply⟩)
  | written {f : Footprint} {supply : Supply} (hencode : a.encode w.supply = .ok (f, supply))
    (hsome : w.graph.missing f ≠ [])
    (hread : (st.source (w.graph.withFootprint f)).readsAs f.main a = true) :
    Outcome st w a (.ok true, st.follow w.graph (w.graph.withFootprint f) (w.graph.missing f),
      ⟨w.graph.withFootprint f, supply⟩)

/-- An addition comes to one of the outcomes. -/
theorem outcome_add {st : AxiomStore} : Outcome (st.sync w.graph) w a (st.add w a) := by
  unfold add
  dsimp only
  split
  case h_1 => exact .refused rfl (fun h => nomatch h)
  case h_2 f supply hencode =>
    split
    case isTrue => exact .refused rfl (fun h => nomatch h)
    case isFalse =>
      unfold write
      dsimp only
      split
      case isTrue => exact .refused rfl (fun h => nomatch h)
      case isFalse hsome =>
        have hsome' : w.graph.missing f ≠ [] := fun hnil => hsome (List.isEmpty_iff.2 hnil)
        split
        case isTrue hread => exact .written hencode hsome' hread
        case isFalse => exact .undone rfl

/-- Whether an index is kept makes no difference to what is written. -/
theorem write_congr {st st' : AxiomStore} (hst : st.settings = st'.settings) :
    (st.write g a f).1 = (st'.write g a f).1 ∧ (st.write g a f).2.2 = (st'.write g a f).2.2 := by
  unfold write source
  rw [hst]
  dsimp only
  split
  case isTrue => exact ⟨rfl, rfl⟩
  case isFalse =>
    split
    case isTrue => exact ⟨rfl, rfl⟩
    case isFalse => exact ⟨rfl, rfl⟩

/-- A write answers false if nothing is missing, and then leaves the graph as it is. -/
theorem sameKind_write_iff {st : AxiomStore} :
    SameKind (.ok false) (st.write g a f).1 ∧ g = (st.write g a f).2.2 ↔
      ∀ t ∈ f.triples, t ∈ g := by
  have hmissing : (f.triples.filter fun t => !g.contains t).isEmpty = true ↔
      ∀ t ∈ f.triples, t ∈ g := by
    simp [List.isEmpty_iff, List.filter_eq_nil_iff]
  rw [← hmissing]
  unfold write
  dsimp only
  split
  case isTrue h => simp [h, SameKind]
  case isFalse h =>
    split
    case isTrue => simp [h, SameKind]
    case isFalse => simp [h, SameKind]

/-- With an index an axiom is present if it is read from some main triple. -/
theorem isPresent_built : (built s g).isPresent g a f = true ↔
    ∃ f, (a, f) ∈ (⟨g.union, s⟩ : Source).scan := by
  rw [built_eq]
  exact (AxiomIndex.holds_ofSource ⟨g.union, s⟩).contains_iff

/-- Without an index an axiom is present if it is found from what is written for it. -/
theorem isPresent_bare : isPresent ⟨s, none, g.generation⟩ g a f = true ↔
    ∃ h, (⟨g.union, s⟩ : Source).Locates a f h := by
  have hpresent : isPresent ⟨s, none, g.generation⟩ g a f =
      !((⟨g.union, s⟩ : Source).locate a f).isEmpty := rfl
  rw [hpresent, Bool.not_eq_true', List.isEmpty_eq_false_iff_exists_mem]
  exact exists_congr fun f => Source.mem_locate_iff

/-- An addition does not depend on the index, unless the axiom is only read where nothing that is
written for it fits. -/
theorem add_agree_iff :
    Agree ((built s w.graph).add w a) (({ settings := s } : AxiomStore).add w a) ↔
      ∀ f supply, a.encode w.supply = .ok (f, supply) →
        (∃ h, (a, h) ∈ (⟨w.graph.union, s⟩ : Source).scan) →
        (∃ h, (⟨w.graph.union, s⟩ : Source).Locates a f h) ∨ ∀ t ∈ f.triples, t ∈ w.graph := by
  unfold add
  rw [sync_built, sync_bare]
  dsimp only
  cases hencode : a.encode w.supply with
  | error e => simp [Agree, SameKind]
  | ok r =>
    obtain ⟨f, supply⟩ := r
    have hall : (∀ f' supply', Except.ok (ε := MalformedAxiom) (f, supply) = .ok (f', supply') →
        (∃ h, (a, h) ∈ (⟨w.graph.union, s⟩ : Source).scan) →
        (∃ h, (⟨w.graph.union, s⟩ : Source).Locates a f' h) ∨ ∀ t ∈ f'.triples, t ∈ w.graph) ↔
        ((built s w.graph).isPresent w.graph a f = true →
          isPresent ⟨s, none, w.graph.generation⟩ w.graph a f = true ∨
            ∀ t ∈ f.triples, t ∈ w.graph) := by
      rw [isPresent_built, isPresent_bare]
      constructor
      · exact fun h => h f supply rfl
      · rintro h f' supply' ⟨⟩
        exact h
    rw [hall]
    dsimp only
    have hsettings : (built s w.graph).settings = s := by rw [built_eq]
    cases hbuilt : (built s w.graph).isPresent w.graph a f with
    | true =>
      cases hbare : isPresent ⟨s, none, w.graph.generation⟩ w.graph a f with
      | true => simp [Agree, SameKind]
      | false =>
        rw [if_pos rfl, if_neg Bool.false_ne_true]
        simp only [Bool.false_eq_true, false_or, true_implies]
        exact sameKind_write_iff
    | false =>
      -- what is found without an index is read, so it is not found either
      have hbare : isPresent ⟨s, none, w.graph.generation⟩ w.graph a f = false := by
        rw [Bool.eq_false_iff]
        intro hbare
        obtain ⟨h, hlocated⟩ := isPresent_bare.1 hbare
        rw [isPresent_built.2 ⟨h, hlocated.1⟩] at hbuilt
        cases hbuilt
      have hsame : (built s w.graph).settings =
          (⟨s, none, w.graph.generation⟩ : AxiomStore).settings := hsettings
      obtain ⟨hanswer, hgraph⟩ := write_congr (g := w.graph) (a := a) (f := f) hsame
      rw [hbare]
      simp only [Bool.false_eq_true, if_false, false_implies, iff_true]
      refine ⟨?_, hgraph⟩
      rw [hanswer]
      exact sameKind_refl _

/-! ## Removals -/

/-- Is the removal of some triples held back by an import? -/
def HeldBack (g : Graph) (P : Triple → Prop) : Prop := ∃ t, P t ∧ g.isImported t = true

/-- What a removal comes to once it is known which triples have to leave. -/
theorem remove_of_leaving {st : AxiomStore} {ts : List Triple} (hsync : st.sync w.graph = st)
    (h : st.leaving? w a = .ok (some ts)) :
    (HeldBack w.graph (· ∈ ts) ∧ (st.remove w a).1 = .ok false ∧ (st.remove w a).2.2 = w) ∨
      (¬ HeldBack w.graph (· ∈ ts) ∧ (st.remove w a).1 = .ok true ∧
        (st.remove w a).2.2.graph = (w.graph.removeAll ts).2) := by
  unfold remove HeldBack
  rw [hsync]
  dsimp only
  rw [h]
  dsimp only
  by_cases hheld : ts.any w.graph.isImported = true
  · rw [if_pos hheld]
    exact Or.inl ⟨List.any_eq_true.1 hheld, rfl, rfl⟩
  · rw [if_neg hheld]
    exact Or.inr ⟨fun hex => hheld (List.any_eq_true.2 hex), rfl, rfl⟩

/-- With an index the triples that no other axiom uses have to leave. -/
theorem leaving?_built (hread : ∃ f, (a, f) ∈ (⟨w.graph.union, s⟩ : Source).scan) :
    ∃ ts, (built s w.graph).leaving? w a = .ok (some ts) ∧
      ∀ t, t ∈ ts ↔ (⟨w.graph.union, s⟩ : Source).Leaves a t := by
  have hholds := AxiomIndex.holds_ofSource ⟨w.graph.union, s⟩
  have hcontains := hholds.contains_iff.2 hread
  refine ⟨(AxiomIndex.ofSource ⟨w.graph.union, s⟩).ownTriples a, ?_, fun t => ?_⟩
  · rw [built_eq]
    show Except.ok (if (AxiomIndex.ofSource ⟨w.graph.union, s⟩).contains a then _ else none) = _
    rw [if_pos hcontains]
    rfl
  · exact hholds.mem_ownTriples_iff

/-- Without an index, those that no axiom near the footprints that were found uses. -/
theorem leaving?_bare (hencode : a.encode w.supply = .ok (f, supply))
    (hlocated : ∃ h, (⟨w.graph.union, s⟩ : Source).Locates a f h) :
    ∃ ts, leaving? ⟨s, none, w.graph.generation⟩ w a = .ok (some ts) ∧
      ∀ t, t ∈ ts ↔ (⟨w.graph.union, s⟩ : Source).LeavesNear a f t := by
  let R : Source := ⟨w.graph.union, s⟩
  have hsome : R.locate a f ≠ [] := by
    obtain ⟨h, hh⟩ := hlocated
    exact List.ne_nil_of_mem (Source.mem_locate_iff.2 hh)
  refine ⟨((R.locate a f).flatMap Footprint.triples).eraseDups.filter
    fun t => !(R.sharedTriples a (R.locate a f)).contains t, ?_, fun t => ?_⟩
  · unfold leaving?
    rw [hencode]
    dsimp only
    split
    case h_1 hnil => exact absurd hnil hsome
    case h_2 => rfl
  · rw [List.mem_filter, List.mem_eraseDups, List.mem_flatMap, Bool.not_eq_true',
      ← Bool.not_eq_true, List.contains_iff_mem, Source.LeavesNear]
    refine and_congr (exists_congr fun h => and_congr_left fun _ => Source.mem_locate_iff) ?_
    unfold Source.sharedTriples
    simp only [List.mem_flatMap, not_exists, not_and]
    constructor
    · intro hnone b g hg hmain ht
      by_contra hb
      refine hnone (b, g) ⟨g.main, hmain, Source.mem_scan_iff.1 hg⟩ ?_
      rwa [if_neg hb]
    · rintro hall ⟨b, g⟩ ⟨m, hm, hg⟩ ht
      split at ht
      case isTrue => cases ht
      case isFalse hb =>
        have hmain := Source.main_of_mem_axiomsAt hg
        subst hmain
        exact hb (hall b g (Source.mem_scan_iff.2 hg) hm ht)

/-- The removal of an axiom does not depend on the index: it is not there, or it is held back with
the index and not found or held back without, or it is found and the same triples leave. -/
def LeavesAlike (s : Settings) (g : Graph) (a : AnnotatedAxiom) (written : Footprint) : Prop :=
  let R : Source := ⟨g.union, s⟩
  (∀ f, (a, f) ∉ R.scan) ∨
  (HeldBack g (R.Leaves a) ∧
    ((∀ f, ¬ R.Locates a written f) ∨ HeldBack g (R.LeavesNear a written))) ∨
  ((∃ f, R.Locates a written f) ∧ ¬ HeldBack g (R.Leaves a) ∧
    ¬ HeldBack g (R.LeavesNear a written) ∧ ∀ t ∈ g.base, R.Leaves a t ↔ R.LeavesNear a written t)

/-- If nothing is to leave, a removal answers no and does nothing. -/
theorem remove_eq_of_leaving_none {st : AxiomStore} (hsync : st.sync w.graph = st)
    (h : st.leaving? w a = .ok none) : st.remove w a = (.ok false, st, w) := by
  unfold remove
  rw [hsync]
  dsimp only
  rw [h]

/-- With an index nothing is to leave for an axiom that is not read. -/
theorem leaving?_built_of_not_read (hread : ¬ ∃ f, (a, f) ∈ (⟨w.graph.union, s⟩ : Source).scan) :
    (built s w.graph).leaving? w a = .ok none := by
  have hcontains : ¬ (AxiomIndex.ofSource ⟨w.graph.union, s⟩).contains a = true := fun h =>
    hread ((AxiomIndex.holds_ofSource ⟨w.graph.union, s⟩).contains_iff.1 h)
  rw [built_eq]
  show Except.ok (if (AxiomIndex.ofSource ⟨w.graph.union, s⟩).contains a then _ else none) = _
  rw [if_neg hcontains]

/-- Without an index nothing is to leave for an axiom that is not found. -/
theorem leaving?_bare_of_not_located (hencode : a.encode w.supply = .ok (f, supply))
    (hlocated : ¬ ∃ h, (⟨w.graph.union, s⟩ : Source).Locates a f h) :
    leaving? ⟨s, none, w.graph.generation⟩ w a = .ok none := by
  have hnone : (⟨w.graph.union, s⟩ : Source).locate a f = [] :=
    List.eq_nil_iff_forall_not_mem.2 fun h hh => hlocated ⟨h, Source.mem_locate_iff.1 hh⟩
  unfold leaving? source
  rw [hencode]
  dsimp only
  rw [hnone]

/-- With an index a removal never fails. -/
theorem exists_remove_built_eq_ok : ∃ b, ((built s w.graph).remove w a).1 = .ok b := by
  by_cases hread : ∃ f, (a, f) ∈ (⟨w.graph.union, s⟩ : Source).scan
  · obtain ⟨ts, hleaving, -⟩ := leaving?_built hread
    rcases remove_of_leaving sync_built hleaving with ⟨-, hanswer, -⟩ | ⟨-, hanswer, -⟩
    · exact ⟨false, hanswer⟩
    · exact ⟨true, hanswer⟩
  · rw [remove_eq_of_leaving_none sync_built (leaving?_built_of_not_read hread)]
    exact ⟨false, rfl⟩

/-- A removal without an index starts by noting the generation. -/
theorem remove_bare : ({ settings := s } : AxiomStore).remove w a =
    remove ⟨s, none, w.graph.generation⟩ w a := by
  have hagain : sync ⟨s, none, w.graph.generation⟩ w.graph = ⟨s, none, w.graph.generation⟩ :=
    if_pos rfl
  unfold remove
  rw [sync_bare, hagain]

/-- Two lots of triples leave the same graph behind exactly if they have the same triples of the
base. -/
theorem removeAll_eq_iff {ts us : List Triple} :
    (g.removeAll ts).2 = (g.removeAll us).2 ↔ ∀ t ∈ g.base, t ∈ ts ↔ t ∈ us := by
  refine ⟨fun h t ht => ?_, Graph.removeAll_congr⟩
  have hmem : ∀ vs, t ∈ (g.removeAll vs).2.base ↔ t ∉ vs := by
    intro vs
    rw [TripleSet.mem_def, Graph.toList_base_removeAll, List.mem_filter, decide_eq_true_iff]
    exact and_iff_right ht
  rw [← not_iff_not, ← hmem ts, ← hmem us, h]

/-- For an axiom that is read, a removal does the same with an index and without one exactly if the
same triples leave. -/
theorem remove_agree_iff_of_read (hencode : a.encode w.supply = .ok (f, supply))
    (hread : ∃ f, (a, f) ∈ (⟨w.graph.union, s⟩ : Source).scan) :
    Agree ((built s w.graph).remove w a) (remove ⟨s, none, w.graph.generation⟩ w a) ↔
      LeavesAlike s w.graph a f := by
  have hsync : sync ⟨s, none, w.graph.generation⟩ w.graph = ⟨s, none, w.graph.generation⟩ :=
    if_pos rfl
  have hthere : ¬ ∀ f, (a, f) ∉ (⟨w.graph.union, s⟩ : Source).scan := fun h =>
    hread.elim h
  obtain ⟨ts, hbuilt, hts⟩ := leaving?_built hread
  have hleaves : (· ∈ ts) = (⟨w.graph.union, s⟩ : Source).Leaves a :=
    funext fun t => propext (hts t)
  have hremove := remove_of_leaving sync_built hbuilt
  rw [hleaves] at hremove
  unfold LeavesAlike
  dsimp only
  by_cases hlocated : ∃ h, (⟨w.graph.union, s⟩ : Source).Locates a f h
  · obtain ⟨us, hbare, hus⟩ := leaving?_bare hencode hlocated
    have hnear : (· ∈ us) = (⟨w.graph.union, s⟩ : Source).LeavesNear a f :=
      funext fun t => propext (hus t)
    have hremove' := remove_of_leaving hsync hbare
    rw [hnear] at hremove'
    have hfound : ¬ ∀ h, ¬ (⟨w.graph.union, s⟩ : Source).Locates a f h := fun h =>
      hlocated.elim h
    -- the same graph is left behind if the same triples of the base leave
    have halike : (∀ t ∈ w.graph.base, (⟨w.graph.union, s⟩ : Source).Leaves a t ↔
        (⟨w.graph.union, s⟩ : Source).LeavesNear a f t) ↔
        (w.graph.removeAll ts).2 = (w.graph.removeAll us).2 := by
      rw [removeAll_eq_iff]
      simp only [hts, hus]
    rw [halike]
    unfold Agree
    rcases hremove with ⟨hheld, hanswer, hgraph⟩ | ⟨hheld, hanswer, hgraph⟩
    · rcases hremove' with ⟨hheld', hanswer', hgraph'⟩ | ⟨hheld', hanswer', hgraph'⟩
      · rw [hanswer, hanswer', hgraph, hgraph']
        exact iff_of_true ⟨rfl, rfl⟩ (Or.inr (Or.inl ⟨hheld, Or.inr hheld'⟩))
      · rw [hanswer, hanswer']
        refine iff_of_false (fun h => nomatch h.1) ?_
        tauto
    · rcases hremove' with ⟨hheld', hanswer', hgraph'⟩ | ⟨hheld', hanswer', hgraph'⟩
      · rw [hanswer, hanswer']
        refine iff_of_false (fun h => nomatch h.1) ?_
        tauto
      · rw [hanswer, hanswer', hgraph, hgraph']
        simp only [SameKind, true_and]
        tauto
  · have hnone : ∀ h, ¬ (⟨w.graph.union, s⟩ : Source).Locates a f h := fun h hh =>
      hlocated ⟨h, hh⟩
    rw [remove_eq_of_leaving_none hsync (leaving?_bare_of_not_located hencode hlocated)]
    unfold Agree
    rcases hremove with ⟨hheld, hanswer, hgraph⟩ | ⟨hheld, hanswer, hgraph⟩
    · rw [hanswer, hgraph]
      exact iff_of_true ⟨rfl, rfl⟩ (Or.inr (Or.inl ⟨hheld, Or.inl hnone⟩))
    · rw [hanswer]
      refine iff_of_false (fun h => nomatch h.1) ?_
      tauto

/-- An axiom that cannot be written is refused without an index, and answered for with one. -/
theorem not_agree_remove_of_error {e : OperandDefect}
    (hencode : a.encode w.supply = .error ⟨a.base, e⟩) :
    ¬ Agree ((built s w.graph).remove w a) (({ settings := s } : AxiomStore).remove w a) := by
  have hsync : sync ⟨s, none, w.graph.generation⟩ w.graph = ⟨s, none, w.graph.generation⟩ :=
    if_pos rfl
  have hbare : (remove ⟨s, none, w.graph.generation⟩ w a).1 = .error (.malformed ⟨a.base, e⟩) := by
    have hleaving : leaving? ⟨s, none, w.graph.generation⟩ w a =
        .error (.malformed ⟨a.base, e⟩) := by
      unfold leaving?
      rw [hencode]
    unfold remove
    rw [hsync]
    dsimp only
    rw [hleaving]
  obtain ⟨b, hbuilt⟩ := exists_remove_built_eq_ok (s := s) (w := w) (a := a)
  rw [remove_bare]
  unfold Agree
  rw [hbare, hbuilt]
  exact fun h => h.1

/-- A removal does not depend on the index exactly if the axiom can be written and leaves alike. -/
theorem remove_agree_iff :
    Agree ((built s w.graph).remove w a) (({ settings := s } : AxiomStore).remove w a) ↔
      ∃ f supply, a.encode w.supply = .ok (f, supply) ∧ LeavesAlike s w.graph a f := by
  cases hencode : a.encode w.supply with
  | error e =>
    have hbase : e = ⟨a.base, e.defect⟩ := by
      unfold AnnotatedAxiom.encode at hencode
      split at hencode
      case h_1 => cases hencode
      case h_2 =>
        cases hencode
        rfl
    rw [hbase] at hencode
    exact iff_of_false (not_agree_remove_of_error hencode) (by simp)
  | ok r =>
    obtain ⟨f, supply⟩ := r
    have hsync : sync ⟨s, none, w.graph.generation⟩ w.graph = ⟨s, none, w.graph.generation⟩ :=
      if_pos rfl
    have hall : (∃ f' supply', Except.ok (ε := MalformedAxiom) (f, supply) = .ok (f', supply') ∧
        LeavesAlike s w.graph a f') ↔ LeavesAlike s w.graph a f := by
      constructor
      · rintro ⟨f', supply', ⟨⟩, h⟩
        exact h
      · exact fun h => ⟨f, supply, rfl, h⟩
    rw [hall, remove_bare]
    by_cases hread : ∃ f, (a, f) ∈ (⟨w.graph.union, s⟩ : Source).scan
    · exact remove_agree_iff_of_read hencode hread
    · have hlocated : ¬ ∃ h, (⟨w.graph.union, s⟩ : Source).Locates a f h :=
        fun ⟨h, hh⟩ => hread ⟨h, hh.1⟩
      rw [remove_eq_of_leaving_none sync_built (leaving?_built_of_not_read hread),
        remove_eq_of_leaving_none hsync (leaving?_bare_of_not_located hencode hlocated)]
      exact iff_of_true ⟨rfl, rfl⟩ (Or.inl fun f hf => hread ⟨f, hf⟩)

end AxiomStore

end Ontograph
