import Mathlib.Data.List.Nodup
import Mathlib.Tactic.Tauto
import Ontograph.Owl.Axiom
import Ontograph.Proofs.Rdf.Texts

/-!
# The remarks of an axiom are a set

An annotated axiom keeps its remarks sorted by their texts, and drops a remark that equals the one
before it.  That makes a set of the list only if the text of a remark says which remark it is: two
remarks with one text could be sorted between two copies of each other.  The text does say so where
properties have no closing bracket in them (`Remark.text_inj`), and then two annotated axioms are
the same iff they have the same axiom and the same remarks (`AnnotatedAxiom.of_eq_of_iff`).
-/

namespace Ontograph

/-! ## Dropping what repeats the element before it -/

section Squeeze

variable {α : Type} [DecidableEq α] {l : List α} {a : α}

/-- Squeezing a list leaves some of its elements, in their order. -/
theorem squeeze_sublist (l : List α) : (squeeze l).Sublist l := by
  induction l using squeeze.induct with
  | case1 => exact .slnil
  | case2 a => exact .refl [a]
  | case3 a rest ih =>
    rw [squeeze, if_pos rfl]
    exact ih.cons a
  | case4 a b rest hab ih =>
    rw [squeeze, if_neg hab]
    exact ih.cons_cons a

/-- No element is lost, for one copy of it stays. -/
theorem mem_squeeze : a ∈ squeeze l ↔ a ∈ l := by
  refine ⟨fun h => (squeeze_sublist l).mem h, fun h => ?_⟩
  induction l using squeeze.induct with
  | case1 => exact h
  | case2 b => exact h
  | case3 b rest ih =>
    rw [squeeze, if_pos rfl]
    refine ih ((List.mem_cons.1 h).elim (fun hab => ?_) id)
    exact hab ▸ List.mem_cons_self
  | case4 b c rest hbc ih =>
    rw [squeeze, if_neg hbc]
    exact List.mem_cons.2 ((List.mem_cons.1 h).imp_right ih)

/-- In a list that is sorted by an order, equal elements stand side by side. -/
theorem nodup_squeeze {r : α → α → Prop} (hsorted : l.Pairwise r)
    (hantisymm : ∀ a ∈ l, ∀ b ∈ l, r a b → r b a → a = b) : (squeeze l).Nodup := by
  induction l using squeeze.induct with
  | case1 => exact List.nodup_nil
  | case2 a => exact List.nodup_singleton a
  | case3 a rest ih =>
    rw [squeeze, if_pos rfl]
    exact ih hsorted.of_cons fun b hb c hc =>
      hantisymm b (List.mem_cons_of_mem _ hb) c (List.mem_cons_of_mem _ hc)
  | case4 a b rest hab ih =>
    rw [squeeze, if_neg hab, List.nodup_cons, mem_squeeze]
    obtain ⟨hhead, htail⟩ := List.pairwise_cons.1 hsorted
    refine ⟨fun ha => ?_, ih htail fun b hb c hc =>
      hantisymm b (List.mem_cons_of_mem _ hb) c (List.mem_cons_of_mem _ hc)⟩
    rcases List.mem_cons.1 ha with rfl | ha
    · exact hab rfl
    · -- a copy of the head behind its neighbour puts the neighbour between two equal elements
      have hba : r b a := (List.pairwise_cons.1 htail).1 a ha
      exact hab (hantisymm a List.mem_cons_self b (by simp) (hhead b List.mem_cons_self) hba)

end Squeeze

/-! ## The canonical order -/

namespace Remark

variable {rs rs' : List Remark} {r r' : Remark}

/-- Different remarks of the list have different texts. -/
def Told (rs : List Remark) : Prop := ∀ r ∈ rs, ∀ r' ∈ rs, r.text = r'.text → r = r'

/-- Sorted remarks have their texts in order. -/
theorem pairwise_mergeSort (rs : List Remark) :
    (rs.mergeSort fun a b => decide (a.text ≤ b.text)).Pairwise fun a b => a.text ≤ b.text := by
  have hpairwise := @List.pairwise_mergeSort Remark (fun a b => decide (a.text ≤ b.text))
    (fun a b c hab hbc => by
      simp only [decide_eq_true_eq] at hab hbc ⊢
      exact String.le_trans hab hbc)
    (fun a b => by
      simp only [Bool.or_eq_true, decide_eq_true_eq]
      exact String.le_total a.text b.text) rs
  simpa only [decide_eq_true_eq] using hpairwise

/-- Canonical remarks have their texts in order. -/
theorem pairwise_canonical : (canonical rs).Pairwise fun a b => a.text ≤ b.text :=
  (pairwise_mergeSort rs).sublist (squeeze_sublist _)

/-- Canonical remarks are the same remarks. -/
@[simp] theorem mem_canonical : r ∈ canonical rs ↔ r ∈ rs := by
  rw [canonical, mem_squeeze, List.mem_mergeSort]

/-- Remarks that their texts tell apart are each there once in canonical order. -/
theorem Told.nodup_canonical (h : Told rs) : (canonical rs).Nodup := by
  refine nodup_squeeze (pairwise_mergeSort rs) fun a ha b hb hab hba => ?_
  rw [List.mem_mergeSort] at ha hb
  exact h a ha b hb (String.le_antisymm hab hba)

/-- The order that the remarks came in does not matter, nor how often each one did. -/
theorem Told.canonical_eq (h : Told rs) (hsame : ∀ r, r ∈ rs ↔ r ∈ rs') :
    canonical rs = canonical rs' := by
  have h' : Told rs' := fun r hr r' hr' => h r ((hsame r).2 hr) r' ((hsame r').2 hr')
  have hperm : (canonical rs).Perm (canonical rs') := by
    refine (List.perm_ext_iff_of_nodup h.nodup_canonical h'.nodup_canonical).2 fun r => ?_
    rw [mem_canonical, mem_canonical, hsame]
  refine hperm.eq_of_pairwise ?_ pairwise_canonical pairwise_canonical
  intro a b ha hb hab hba
  rw [mem_canonical] at ha hb
  exact h a ha b ((hsame b).2 hb) (String.le_antisymm hab hba)

/-- Remarks without a repeated text are told apart. -/
theorem told_of_nodup (h : (rs.map text).Nodup) : Told rs :=
  fun _ hr _ hr' htext => List.inj_on_of_nodup_map h hr hr' htext

/-- Remarks with different texts are only sorted. -/
theorem canonical_perm (h : (rs.map text).Nodup) : (canonical rs).Perm rs :=
  (List.perm_ext_iff_of_nodup (told_of_nodup h).nodup_canonical (h.of_map text)).2
    fun _ => mem_canonical

/-- Remarks with different texts may come in any order. -/
theorem canonical_eq_of_perm (h : rs.Perm rs') (htexts : (rs.map text).Nodup) :
    canonical rs = canonical rs' := (told_of_nodup htexts).canonical_eq fun _ => h.mem_iff

/-! ## Telling remarks apart -/

/-- Where a text ends is known at the first of a character that it does not have. -/
theorem append_inj_of_notMem {α : Type} {as bs xs ys : List α} {a : α} (has : a ∉ as)
    (hbs : a ∉ bs) (h : as ++ a :: xs = bs ++ a :: ys) : as = bs ∧ xs = ys := by
  induction as generalizing bs with
  | nil =>
    cases bs with
    | nil => exact ⟨rfl, (List.cons.inj h).2⟩
    | cons b bs =>
      obtain ⟨rfl, -⟩ := List.cons.inj h
      exact absurd List.mem_cons_self hbs
  | cons c as ih =>
    cases bs with
    | nil =>
      obtain ⟨rfl, -⟩ := List.cons.inj h
      exact absurd List.mem_cons_self has
    | cons b bs =>
      obtain ⟨rfl, hrest⟩ := List.cons.inj h
      obtain ⟨rfl, hxs⟩ := ih (fun hm => has (List.mem_cons_of_mem _ hm))
        (fun hm => hbs (List.mem_cons_of_mem _ hm)) hrest
      exact ⟨rfl, hxs⟩

/-- The text of a remark, as characters. -/
theorem toList_text : r.text.toList = "Annotation(<".toList ++
    (r.property.value.toList ++ '>' :: ' ' :: (r.value.text.toList ++ [')'])) := by
  simp [text, functional, Iri.text]

/-- Remarks whose properties have no closing bracket in them are told apart by their texts. -/
theorem text_inj (hr : '>' ∉ r.property.value.toList) (hr' : '>' ∉ r'.property.value.toList)
    (h : r.text = r'.text) : r = r' := by
  have hchars := congrArg String.toList h
  rw [toList_text, toList_text] at hchars
  obtain ⟨hproperty, hrest⟩ := append_inj_of_notMem hr hr' (List.append_cancel_left hchars)
  have hvalue := List.append_cancel_right (List.cons.inj hrest).2
  obtain ⟨p, v⟩ := r
  obtain ⟨p', v'⟩ := r'
  obtain rfl := Iri.value_injective (String.toList_injective hproperty)
  obtain rfl := Term.text_injective (String.toList_injective hvalue)
  rfl

/-- Remarks whose properties have no closing bracket in them are told apart by their texts. -/
theorem told_of_notMem (h : ∀ r ∈ rs, '>' ∉ r.property.value.toList) : Told rs :=
  fun r hr r' hr' htext => text_inj (h r hr) (h r' hr') htext

end Remark

/-! ## Annotated axioms -/

/-- **Annotated axioms.** Two of them are the same iff they have the same axiom and the same
remarks, in whatever order and how often these were given.  The remarks are kept without
repetitions, and putting them in order again changes nothing.  It is asked of the properties on one
side only that they have no closing bracket; nothing is asked of the values. -/
theorem AnnotatedAxiom.of_eq_of_iff {a b : Axiom} {rs rs' : List Remark}
    (hrs : ∀ r ∈ rs, '>' ∉ r.property.value.toList) :
    (of a rs = of b rs' ↔ a = b ∧ ∀ r, r ∈ rs ↔ r ∈ rs') ∧
      (of a rs).remarks.Nodup ∧ of a (of a rs).remarks = of a rs := by
  have htold := Remark.told_of_notMem hrs
  refine ⟨⟨fun h => ?_, ?_⟩, htold.nodup_canonical, ?_⟩
  · obtain ⟨hbase, hremarks⟩ := AnnotatedAxiom.mk.inj h
    refine ⟨hbase, fun r => ?_⟩
    rw [← Remark.mem_canonical, hremarks, Remark.mem_canonical]
  · rintro ⟨rfl, hsame⟩
    exact congrArg (AnnotatedAxiom.mk a) (htold.canonical_eq hsame)
  · have hagain : Remark.canonical rs = Remark.canonical (Remark.canonical rs) :=
      htold.canonical_eq fun r => Remark.mem_canonical.symm
    exact congrArg (AnnotatedAxiom.mk a) hagain.symm

/-- Three remarks, one of them given twice, and the same ones in another order; one value has
brackets and quotes in it. -/
theorem AnnotatedAxiom.of_eq_of_iff_repeated :
    let p : Iri := .ofValue "http://example.org/p"
    let ax : Axiom := .declaration ⟨.owlClass, .ofValue "http://example.org/a"⟩
    let quote : Remark := ⟨.rdfs .comment, .literal (.tagged "> \"x\")" "en")⟩
    let link : Remark := ⟨p, .node (.blank ⟨"b"⟩)⟩
    let plain : Remark := ⟨p, .literal (.plain "x")⟩
    (∀ r ∈ [plain, quote, link, plain], '>' ∉ r.property.value.toList) ∧
      of ax [plain, quote, link, plain] = of ax [link, plain, quote] ∧
      of ax [plain, quote, link, plain] ≠ of ax [link, quote] ∧
      (of ax [plain, quote, link, plain]).remarks.Nodup := by
  intro p ax quote link plain
  have hplain : ∀ r ∈ [plain, quote, link, plain], '>' ∉ r.property.value.toList := by
    decide +kernel
  refine ⟨hplain, ?_, ?_, (@of_eq_of_iff ax ax _ [] hplain).2.1⟩
  · refine (of_eq_of_iff hplain).1.2 ⟨rfl, fun r => ?_⟩
    simp only [List.mem_cons, List.not_mem_nil, or_false]
    tauto
  · intro h
    have hmem := ((of_eq_of_iff hplain).1.1 h).2 plain
    revert hmem
    decide +kernel

end Ontograph
