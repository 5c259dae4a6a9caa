import Ontograph.Proofs.Index.Current
import Ontograph.Proofs.Index.Writing
import Ontograph.Proofs.Mapping.Names

/-!
# What comes with an axiom

An addition is all or nothing (`AxiomStore.add_all_or_nothing`).  If it does not answer true, the
graph holds what it held before, and indices that were in line with it are unchanged.  If it
answers true, the base has gained the triples of one footprint that no layer held, and the axiom is
found from then on, with an index or without, so that a second addition changes nothing.

The delicate case is an axiom whose main triple was there already and that is new for its remarks:
the index reads the main triple again because the new node that carries the remarks stands for it.
-/

namespace Ontograph

/-! ## Names -/

/-- The names left in the supply are used nowhere in the graph. -/
def Supply.FreshIn (s : Supply) (g : Graph) : Prop :=
  ∀ k, s.next ≤ k → ∀ t ∈ g, t.subject ≠ s.nth k ∧ t.object ≠ .node (s.nth k)

/-- No name that is still to be taken is the subject of a triple of the graph. -/
theorem Supply.FreshIn.not_brings_subject {s s' : Supply} {g : Graph} {t : Triple}
    (h : s.FreshIn g) (ht : t ∈ g) : ¬ s.Brings s' t.subject := by
  rintro ⟨n, hn, k, hk, -, rfl⟩
  exact (h k hk t ht).1 (Term.node.inj hn)

/-- No name that is still to be taken is the object of a triple of the graph. -/
theorem Supply.FreshIn.not_brings_object {s s' : Supply} {g : Graph} {t : Triple}
    (h : s.FreshIn g) (ht : t ∈ g) : ¬ s.Brings s' t.object := by
  rintro ⟨n, hn, k, hk, -, rfl⟩
  exact (h k hk t ht).2 hn

/-! ## Remarks that were read -/

namespace Source

variable {R : Source} {a : AnnotatedAxiom} {f : Footprint} {m : Triple} {r : Remark} {n : Node}

/-- A remark read from a node has a property that can annotate. -/
theorem canAnnotate_of_mem_canonical (h : r ∈ Remark.canonical (remarksOf (R.remarkTriples n))) :
    r.property.canAnnotate = true := by
  obtain ⟨t, ht, rfl⟩ := List.mem_map.1 (Remark.mem_canonical.1 h)
  exact (List.mem_filter.1 ht).2

/-- The remarks that are read on an axiom have properties that can annotate. -/
theorem canAnnotate_of_mem_axiomsAt (h : (a, f) ∈ R.axiomsAt m) (hr : r ∈ a.remarks) :
    r.property.canAnnotate = true := by
  cases mem_axiomsAt_iff.1 h with
  | rooted => exact canAnnotate_of_mem_canonical hr
  | bare => cases hr
  | reified => exact canAnnotate_of_mem_canonical hr

end Source

/-! ## What is read again -/

namespace TripleSet

variable {S : TripleSet} {ts : List Triple} {t m : Triple} {ns : List Node} {n : Node}

/-- A climb starts where it is told to. -/
theorem mem_climb (hn : n ∈ ns) : n ∈ S.climb ns := by
  induction ns using climb.induct S with
  | case1 ns h =>
    unfold climb
    split
    case h_1 => exact hn
    case h_2 hmore => cases h.symm.trans hmore
  | case2 ns m ms h hm hnew hlt ih =>
    unfold climb
    split
    case h_1 => exact hn
    case h_2 hmore =>
      cases h.symm.trans hmore
      exact ih (List.mem_append_right _ hn)

/-- A triple is near itself. -/
theorem mem_mainsNear (ht : t ∈ ts) : t ∈ S.mainsNear ts := by
  unfold mainsNear
  simp [ht]

/-- The triple that a node stands for is near the triples about the node. -/
theorem mem_mainsNear_of_reified? (ht : t ∈ ts) (h : S.reified? t.subject = some m) :
    m ∈ S.mainsNear ts := by
  have hclimb : t.subject ∈ S.climb (ts.map Triple.subject).eraseDups :=
    mem_climb (List.mem_eraseDups.2 (List.mem_map_of_mem ht))
  have haround : m ∈ S.around t.subject := by simp [around, h]
  unfold mainsNear
  rw [List.mem_eraseDups, List.mem_append]
  exact Or.inr (List.mem_flatMap.2 ⟨_, hclimb, haround⟩)

/-- A node stands for a triple if nothing but its three parts, its type and remarks is said of
it. -/
theorem reified?_eq_some (h : ∀ p o, p.canAnnotate = false →
    (⟨n, p, o⟩ ∈ S ↔ ⟨n, p, o⟩ ∈ m.reifiedAs n)) : S.reified? n = some m := by
  have hlook : ∀ p o, p.canAnnotate = false →
      (∀ o', ⟨n, p, o'⟩ ∈ m.reifiedAs n ↔ o' = o) → S.object? n p = some o := by
    intro p o hp hown
    exact object?_eq_some ((h p o hp).2 ((hown o).2 rfl)) fun o' ho' =>
      (hown o').1 ((h p o' hp).1 ho')
  have hsource := hlook (.owl .annotatedSource) m.subject (by decide)
    fun o' => by simp [Triple.reifiedAs]
  have hproperty := hlook (.owl .annotatedProperty) (.node (.iri m.predicate)) (by decide)
    fun o' => by simp [Triple.reifiedAs]
  have htarget := hlook (.owl .annotatedTarget) m.object (by decide)
    fun o' => by simp [Triple.reifiedAs]
  unfold reified?
  rw [hsource, hproperty, htarget]
  rfl

end TripleSet

namespace AxiomIndex

variable {I : AxiomIndex} {a b : AnnotatedAxiom} {f g : Footprint} {m : Triple} {R : Source}

/-- An axiom with a footprint is in the index. -/
theorem contains_of_mem_footprintsOf (h : f ∈ I.footprintsOf a) : I.contains a = true := by
  unfold contains
  unfold footprintsOf Table.bucket at h
  cases hget : I.footprints.get? a with
  | none =>
    rw [hget] at h
    cases h
  | some fs => rfl

/-- Entering a footprint of an axiom adds it to those of the axiom, and nothing else. -/
theorem mem_footprintsOf_insert : f ∈ (I.insert b g).footprintsOf a ↔
    f ∈ I.footprintsOf a ∨ a = b ∧ f = g := by
  unfold insert
  split
  case isTrue h =>
    refine (or_iff_left_of_imp ?_).symm
    rintro ⟨rfl, rfl⟩
    exact h
  case isFalse => exact Table.mem_bucket_file

/-- Entering footprints adds each to those of its axiom, and nothing else. -/
theorem mem_footprintsOf_insertAll {rs : List (AnnotatedAxiom × Footprint)} :
    f ∈ (I.insertAll rs).footprintsOf a ↔ f ∈ I.footprintsOf a ∨ (a, f) ∈ rs := by
  induction rs generalizing I with
  | nil => simp [insertAll]
  | cons r rs ih =>
    have hcons : I.insertAll (r :: rs) = (I.insert r.1 r.2).insertAll rs := rfl
    rw [hcons, ih, mem_footprintsOf_insert, List.mem_cons, or_assoc, Prod.ext_iff]

/-- Only footprints with the main triple are forgotten. -/
theorem mem_footprintsOf_forget (hm : f.main ≠ m) (hf : f ∈ I.footprintsOf a) :
    f ∈ (I.forget m b).footprintsOf a := by
  rw [forget_eq]
  unfold footprintsOf
  dsimp only
  rw [Table.bucket_setBucket]
  split
  case isTrue hab =>
    subst hab
    exact List.mem_filter.2 ⟨hf, by simpa using hm⟩
  case isFalse => exact hf

/-- Forgetting a main triple leaves the footprints with other main triples. -/
theorem mem_footprintsOf_eraseMain (hm : f.main ≠ m) (hf : f ∈ I.footprintsOf a) :
    f ∈ (I.eraseMain m).2.footprintsOf a := by
  have hall : ∀ (bs : List AnnotatedAxiom) (J : AxiomIndex), f ∈ J.footprintsOf a →
      f ∈ (bs.foldl (fun J b => J.forget m b) J).footprintsOf a := by
    intro bs
    induction bs with
    | nil => exact fun _ h => h
    | cons b bs ih => exact fun J h => ih _ (mem_footprintsOf_forget hm h)
  exact hall _ { I with byMain := I.byMain.erase m } hf

/-- What is read from a main triple that is read again is entered, and stays entered when others
are read again. -/
theorem mem_footprintsOf_rereadAll {ms : List Triple} (hread : (a, f) ∈ R.axiomsAt f.main)
    (h : f.main ∈ ms ∨ f ∈ I.footprintsOf a) : f ∈ (rereadAll R ms I).2.footprintsOf a := by
  induction ms generalizing I with
  | nil => exact h.resolve_left (by simp)
  | cons m ms ih =>
    refine ih (I := (I.reread R m).2) ?_
    by_cases hm : f.main = m
    · exact Or.inr (mem_footprintsOf_insertAll.2 (Or.inr (hm ▸ hread)))
    · rw [List.mem_cons, or_iff_right hm] at h
      refine h.imp_right fun hf => ?_
      exact mem_footprintsOf_insertAll.2 (Or.inl (mem_footprintsOf_eraseMain hm hf))

end AxiomIndex

/-! ## What is written -/

section Written

variable {g : Graph} {f : Footprint} {a : AnnotatedAxiom} {supply supply' : Supply} {t : Triple}
  {s : Settings} {h : Footprint}

/-- A graph with a footprint has its own triples and those of the footprint. -/
theorem Graph.mem_withFootprint : t ∈ g.withFootprint f ↔ t ∈ g ∨ t ∈ f.triples := by
  rw [Graph.mem_insertAll, Graph.mem_missing]
  tauto

/-- What is said of a new node by predicates that make no remarks makes it stand for the main
triple. -/
theorem Graph.mem_withFootprint_iff {n : Node} {p : Iri} {o : Term}
    (hwrote : ∀ u, u ∈ f.triples ↔
      u = f.main ∨ u ∈ f.main.reifiedAs n ++ a.remarks.map (Remark.on n))
    (hold : ∀ u ∈ g, u.subject ≠ n) (hmain : f.main ∈ g)
    (hremarks : ∀ r ∈ a.remarks, r.property.canAnnotate = true) (hp : p.canAnnotate = false) :
    ⟨n, p, o⟩ ∈ g.withFootprint f ↔ ⟨n, p, o⟩ ∈ f.main.reifiedAs n := by
  rw [Graph.mem_withFootprint, hwrote, List.mem_append]
  constructor
  · rintro (hmem | he | hown | hremark)
    · exact absurd rfl (hold _ hmem)
    · exact absurd (congrArg Triple.subject he).symm (hold _ hmain)
    · exact hown
    · obtain ⟨r, hr, he⟩ := List.mem_map.1 hremark
      have hproperty : r.property = p := congrArg Triple.predicate he
      rw [← hproperty, hremarks r hr] at hp
      cases hp
  · exact fun hown => Or.inr (Or.inr (Or.inl hown))

/-- If the main triple was there already, the new node that carries the remarks stands for it. -/
theorem reified?_withFootprint (hencode : a.encode supply = .ok (f, supply'))
    (hfresh : supply.FreshIn g) (hmain : f.main ∈ g) (ht : t ∈ g.missing f)
    (hread : (a, h) ∈ Source.axiomsAt ⟨(g.withFootprint f).union, s⟩ f.main) :
    (g.withFootprint f).union.reified? t.subject = some f.main := by
  obtain ⟨hmem, hnew⟩ := Graph.mem_missing.1 ht
  have hne : t ≠ f.main := fun he => hnew (he ▸ hmain)
  have hwrote := AnnotatedAxiom.mem_triples_iff_of_encode hencode
    (hfresh.not_brings_subject hmain) (hfresh.not_brings_object hmain) ⟨t, hmem, hne⟩
  have hsubject : t.subject = supply.head := by
    rcases List.mem_append.1 (((hwrote t).1 hmem).resolve_left hne) with ht | ht
    · exact Triple.subject_of_mem_reifiedAs ht
    · obtain ⟨r, -, rfl⟩ := List.mem_map.1 ht
      rfl
  rw [hsubject]
  refine TripleSet.reified?_eq_some fun p o hp => ?_
  rw [Graph.mem_union]
  exact Graph.mem_withFootprint_iff hwrote
    (fun u hu => (hfresh supply.next (Nat.le_refl _) u hu).1) hmain
    (fun r hr => Source.canAnnotate_of_mem_axiomsAt hread hr) hp

/-- The main triple of what was written is near it. -/
theorem main_mem_mainsNear (hencode : a.encode supply = .ok (f, supply'))
    (hfresh : supply.FreshIn g) (ht : t ∈ g.missing f)
    (hread : (a, h) ∈ Source.axiomsAt ⟨(g.withFootprint f).union, s⟩ f.main)
    (us : List Triple) :
    f.main ∈ (g.withFootprint f).union.mainsNear (g.missing f ++ us) := by
  by_cases hmain : f.main ∈ g
  · exact TripleSet.mem_mainsNear_of_reified? (List.mem_append_left _ ht)
      (reified?_withFootprint hencode hfresh hmain ht hread)
  · have hmissing : f.main ∈ g.missing f := Graph.mem_missing.2 ⟨List.mem_cons_self, hmain⟩
    exact TripleSet.mem_mainsNear (List.mem_append_left _ hmissing)

end Written

/-! ## Additions -/

namespace AxiomStore

variable {st : AxiomStore} {w : Workbench} {g : Graph} {a : AnnotatedAxiom} {f h : Footprint}
  {supply supply' : Supply} {t : Triple} {I : Indices}

/-- A store without indices has none after it was synchronized. -/
theorem indices?_sync_of_none (hnone : st.indices? = none) : (st.sync g).indices? = none := by
  unfold sync
  split
  case isTrue => exact hnone
  case isFalse => rfl

/-- Indices that are kept after an addition hold the axiom. -/
theorem contains_of_follow (hencode : a.encode supply = .ok (f, supply'))
    (hfresh : supply.FreshIn g) (hsome : g.missing f ≠ [])
    (hread : (a, h) ∈ (st.source (g.withFootprint f)).axiomsAt f.main)
    (hI : (st.follow g (g.withFootprint f) (g.missing f)).indices? = some I) :
    I.axioms.contains a = true := by
  obtain ⟨J, -, hfollow⟩ := Option.bind_eq_some_iff.1 hI
  rw [Indices.follow_eq] at hfollow
  obtain ⟨ms, hms, rfl⟩ := Option.map_eq_some_iff.1 hfollow
  obtain ⟨t, ht⟩ := List.exists_mem_of_ne_nil _ hsome
  -- what was written leads to the main triple, so that is read again
  have hnear : f.main ∈ ms := by
    unfold Indices.rereadMains? at hms
    split at hms
    case h_1 => cases hms
    case h_2 =>
      split at hms
      case isTrue => cases hms
      case isFalse =>
        cases hms
        rw [List.mem_eraseDups, List.mem_append]
        exact Or.inr (main_mem_mainsNear hencode hfresh ht hread _)
  have hmain := Source.main_of_mem_axiomsAt hread
  refine AxiomIndex.contains_of_mem_footprintsOf (f := h)
    (AxiomIndex.mem_footprintsOf_rereadAll ?_ (Or.inl ?_))
  · rw [hmain]
    exact hread
  · rwa [hmain]

/-- An axiom that is read, and that the index holds if there is one, is found. -/
theorem contains_of_mem_scan (hgeneration : st.generation = g.generation)
    (hread : (a, h) ∈ (st.source g).scan)
    (hkept : ∀ I, st.indices? = some I → I.axioms.contains a = true) :
    (st.contains g a).1 = true := by
  have hsync : st.sync g = st := if_pos hgeneration
  have hcontains : (st.contains g a).1 =
      ((st.sync g).indices?.getD (.ofSource ((st.sync g).source g))).axioms.contains a := rfl
  rw [hcontains, hsync]
  cases hI : st.indices? with
  | none => exact (AxiomIndex.holds_ofSource _).contains_iff.2 ⟨h, hread⟩
  | some I => exact hkept I hI

/-- A main triple fits the pattern of one that was written with other names. -/
theorem admits_of_fits {t u : Triple} (h : t.Fits u) :
    (Source.mainPattern u).admits t = true := by
  have hsubject : (if u.subject.isBlank then none else some u.subject).all (· == t.subject) =
      true := by
    rcases h.subject with hsame | ⟨-, hblank⟩
    · rw [hsame]
      split <;> simp
    · rw [if_pos hblank]
      rfl
  have hobject : (if u.object.isBlank then none else some u.object).all (· == t.object) =
      true := by
    rcases h.object with hsame | ⟨-, hblank⟩
    · rw [hsame]
      split <;> simp
    · rw [if_pos hblank]
      rfl
  unfold Source.mainPattern TripleSet.Pattern.admits
  dsimp only
  rw [hsubject, hobject, h.predicate]
  simp

/-- Such an axiom is not written again. -/
theorem add_of_mem_scan (hgeneration : st.generation = w.graph.generation)
    (hencode : a.encode supply = .ok (f, supply'))
    (hread : (a, h) ∈ (st.source w.graph).scan) (hmain : h.main = f.main)
    (hkept : ∀ I, st.indices? = some I → I.axioms.contains a = true) :
    (st.add w a).1 = .ok false ∧ (st.add w a).2.2.graph = w.graph := by
  have hsync : st.sync w.graph = st := if_pos hgeneration
  obtain ⟨g, rest, hagain, hfits⟩ := AnnotatedAxiom.exists_encode_fits hencode w.supply
  have hpresent : st.isPresent w.graph a g = true := by
    unfold isPresent
    cases hI : st.indices? with
    | some I => exact hkept I hI
    | none =>
      have hlocated : h ∈ (st.source w.graph).locate a g :=
        Source.mem_locate_iff.2 ⟨hread, hmain ▸ admits_of_fits hfits⟩
      dsimp only
      rw [Bool.not_eq_true', List.isEmpty_eq_false_iff_exists_mem]
      exact ⟨h, hlocated⟩
  unfold add
  rw [hsync]
  dsimp only
  rw [hagain]
  dsimp only
  rw [hpresent]
  exact ⟨rfl, rfl⟩

/-- **Additions.** An addition that does not answer true leaves the graph as it was, and leaves
indices that were in line with the graph unchanged and in line with it.  After one that answers
true the base has gained exactly the triples of a footprint of the axiom that no layer held; and
if there was no index, or the names of the supply were new, the axiom is found, and to add it again
changes nothing. -/
theorem add_all_or_nothing (st : AxiomStore) (w : Workbench) (a : AnnotatedAxiom) :
    let r := st.add w a
    (r.1 ≠ .ok true →
      r.2.2.graph.base = w.graph.base ∧ r.2.2.graph.imports = w.graph.imports ∧
      (st.generation = w.graph.generation →
        r.2.1.indices? = st.indices? ∧ r.2.1.generation = r.2.2.graph.generation)) ∧
    (r.1 = .ok true →
      (∃ f supply, a.encode w.supply = .ok (f, supply) ∧
        ∀ t, t ∈ r.2.2.graph.base ↔ t ∈ w.graph.base ∨ t ∈ f.triples ∧ t ∉ w.graph) ∧
      r.2.2.graph.imports = w.graph.imports ∧
      (st.indices? = none ∨ w.supply.FreshIn w.graph →
        (r.2.1.contains r.2.2.graph a).1 = true ∧
        (r.2.1.add r.2.2 a).1 = .ok false ∧ (r.2.1.add r.2.2 a).2.2.graph = r.2.2.graph)) := by
  have hnew : ∀ f, ∀ t ∈ w.graph.missing f, t ∉ w.graph := fun f t ht =>
    (Graph.mem_missing.1 ht).2
  intro r
  have houtcome : Outcome (st.sync w.graph) w a r := outcome_add
  clear_value r
  cases houtcome with
  | @refused answer w' hgraph hanswer =>
    refine ⟨fun _ => ?_, fun htrue => absurd htrue hanswer⟩
    dsimp only
    rw [hgraph]
    exact ⟨rfl, rfl, fun hst => ⟨by rw [sync, if_pos hst], generation_sync⟩⟩
  | @undone f supply back hback =>
    refine ⟨fun _ => ⟨?_, ?_, fun hst => ⟨?_, rfl⟩⟩, fun htrue => nomatch htrue⟩
    · rw [hback]
      exact Graph.base_removeAll_insertAll (hnew f)
    · rw [hback]
      exact Graph.imports_removeAll_insertAll
    · show (st.sync w.graph).indices? = st.indices?
      rw [sync, if_pos hst]
  | @written f supply hencode hsome hread =>
    refine ⟨fun hno => absurd rfl hno, fun _ => ⟨⟨f, supply, hencode, fun t => ?_⟩, ?_, ?_⟩⟩
    · rw [Graph.mem_base_insertAll (hnew f), Graph.mem_missing]
    · exact Graph.imports_insertAll
    -- what was read is what an index enters and what a look-up without one finds
    · intro hnames
      obtain ⟨⟨b, h⟩, hmem, hb⟩ := List.any_eq_true.1 hread
      obtain rfl : b = a := by simpa using hb
      have hmain := Source.main_of_mem_axiomsAt hmem
      have hkept : ∀ I, ((st.sync w.graph).follow w.graph (w.graph.withFootprint f)
          (w.graph.missing f)).indices? = some I → I.axioms.contains b = true := by
        intro I hI
        rcases hnames with hnone | hfresh
        · obtain ⟨J, hJ, -⟩ := Option.bind_eq_some_iff.1 hI
          cases (indices?_sync_of_none hnone).symm.trans hJ
        · exact contains_of_follow hencode hfresh hsome hmem hI
      have hscan : (b, h) ∈ ((st.sync w.graph).source (w.graph.withFootprint f)).scan := by
        rw [Source.mem_scan_iff, hmain]
        exact hmem
      refine ⟨contains_of_mem_scan rfl hscan hkept, ?_⟩
      exact add_of_mem_scan rfl hencode hscan hmain hkept

/-- A remark on a triple that is there already and indexed: the addition writes the node of the
remark, and the axiom is found.  An assertion of a property that is not declared is taken back. -/
theorem add_all_or_nothing_remark :
    let main : Triple := ⟨.iri (.ofValue "http://example.org/a"), .rdfs .subClassOf,
      .node (.iri (.ofValue "http://example.org/b"))⟩
    let w : Workbench := ⟨{ base := .ofList [main] }, ⟨"n", 0⟩⟩
    let noted : AnnotatedAxiom :=
      ⟨.subClassOf (.named (.ofValue "http://example.org/a"))
        (.named (.ofValue "http://example.org/b")), [⟨.rdfs .comment, .literal (.plain "x")⟩]⟩
    let undeclared : AnnotatedAxiom :=
      ⟨.propertyAssertion (.ofValue "http://example.org/age")
        (.iri (.ofValue "http://example.org/alice")) (.literal (.plain "3")), []⟩
    let st := built {} w.graph
    let r := st.add w noted
    let u := st.add w undeclared
    w.supply.FreshIn w.graph ∧ r.1 = .ok true ∧
      (r.2.1.contains r.2.2.graph noted).1 = true ∧ (r.2.1.add r.2.2 noted).1 = .ok false ∧
      u.1 = .error (.roleMismatch undeclared) ∧ u.2.2.graph.base = w.graph.base ∧
      u.2.1.indices? = st.indices? := by
  intro main w noted undeclared st r u
  have hfresh : w.supply.FreshIn w.graph := by
    intro k _ t ht
    obtain rfl : t = main := by simpa [w, Graph.mem_def] using ht
    simp [main, Supply.nth]
  have hanswer : r.1 = .ok true := by decide +kernel
  have hrefused : u.1 = .error (.roleMismatch undeclared) := by decide +kernel
  obtain ⟨-, hadded⟩ := add_all_or_nothing st w noted
  obtain ⟨hcontains, hagain, -⟩ := (hadded hanswer).2.2 (Or.inr hfresh)
  obtain ⟨hundone, -⟩ := add_all_or_nothing st w undeclared
  have hgeneration : st.generation = w.graph.generation :=
    congrArg AxiomStore.generation built_eq
  have hno : u.1 ≠ .ok true := by
    rw [hrefused]
    simp
  obtain ⟨hbase, -, hindices⟩ := hundone hno
  exact ⟨hfresh, hanswer, hcontains, hagain, hrefused, hbase, (hindices hgeneration).1⟩

end AxiomStore

end Ontograph
