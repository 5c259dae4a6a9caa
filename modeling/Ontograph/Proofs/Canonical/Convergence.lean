import Mathlib.Data.Finset.Card
import Ontograph.Proofs.Canonical.Uncontestable

/-!
# When normalization comes to rest

Rounds of the standard passes reach one that changes nothing exactly if, from some round on, the
base has one header and no node is contested (`Pipeline.normalize_converges_iff`).  Neither is a
matter of the number of rounds: a restriction with a name in the place of a class is contested from
the start and for ever.  A graph whose headers can be merged comes to rest if nothing can become
contested in it.

What is left to do is measured by a finite set of triples, the *debt* of a graph towards an earlier
one: the triples that may still be written and will stay, and those of the base that will be taken
out.  Where nothing is contested, every triple is of one kind or the other, and each change takes
one triple off the debt.
-/

namespace Ontograph

/-! ## Superseded vocabulary -/

namespace Graph

open TripleSet

variable {g g₀ g' g'' : Graph} {t u : Triple} {n : Node} {c : Iri} {e : Edit} {es : List Edit}
  {s : Settings} {k m : Nat}

/-- A type that normalization gives is not superseded. -/
theorem not_isLegacy_of_modernTypes (hc : c ∈ modernTypes) : ¬ (Triple.typing n c).IsLegacy := by
  have hmodern : ∀ l ∈ legacyTypes, l.legacy ∉ modernTypes := by decide
  generalize ht : Triple.typing n c = t
  intro h
  cases h with
  | type hl =>
    cases ht
    exact hmodern _ hl hc
  | members => cases ht

/-- Normalization writes no superseded vocabulary. -/
theorem not_isLegacy_of_grants (h : g.Grants t) : ¬ t.IsLegacy := by
  have hmodern : ∀ l ∈ legacyTypes, l.legacy ≠ .owl .Ontology := by decide
  cases h with
  | type hc => exact not_isLegacy_of_modernTypes hc
  | deprecated => exact fun h => nomatch h
  | members => exact fun h => nomatch h
  | @header n =>
    generalize ht : Triple.typing n (.owl .Ontology) = t
    intro h
    cases h with
    | @type _ l hl =>
      have hword := congrArg Triple.object ht
      simp only [Term.node.injEq, Node.iri.injEq] at hword
      exact hmodern l hl hword.symm
    | members => cases ht

/-- The base has no superseded vocabulary. -/
def Modern (g : Graph) : Prop := ∀ t ∈ g.base, ¬ t.IsLegacy

/-- Normalization brings no superseded vocabulary back into the base. -/
theorem Modern.of_preserves (h : g.Modern) (hpreserves : g.Preserves g') : g'.Modern := by
  intro t ht
  rcases hpreserves.added t ht with hold | hnew
  · exact h t hold
  · exact not_isLegacy_of_grants hnew

/-- A triple that some edit takes out and none adds is gone after the edits. -/
theorem not_mem_base_edits (hdelete : .delete t ∈ es) (hadd : .add t ∉ es) :
    t ∉ (g.edits es).2.base := by
  induction es generalizing g with
  | nil => cases hdelete
  | cons e es ih =>
    rw [List.mem_cons, not_or] at hadd
    intro ht
    rcases List.mem_cons.1 hdelete with rfl | hdelete
    · have hrest : t ∈ ((g.remove t).2.edits es).2.base := ht
      rcases mem_base_of_edits hrest with hbase | hadded
      · exact (mem_base_remove.1 hbase).2 rfl
      · exact hadd.2 hadded
    · exact ih hdelete hadd.2 ht

/-- Replacing superseded vocabulary leaves none in the base. -/
theorem modern_legacyEdits : (g.edits g.union.legacyEdits).2.Modern := by
  intro t ht hlegacy
  have hadd : .add t ∉ g.union.legacyEdits := fun hadd =>
    not_isLegacy_of_grants (grants_of_legacyEdits hadd) hlegacy
  have hmem : t ∈ g := by
    rcases mem_base_of_edits ht with hbase | hadded
    · exact Or.inl hbase
    · exact absurd hadded hadd
  refine not_mem_base_edits ?_ hadd ht
  rw [mem_legacyEdits_iff]
  cases hlegacy with
  | type hl => exact Or.inl ⟨_, hl, _, mem_union.2 hmem, Or.inr (Or.inr rfl)⟩
  | members => exact Or.inr ⟨_, _, mem_union.2 hmem, Or.inr rfl⟩

/-! ## The debt of a graph -/

/-- The triples that normalization takes out of the base where no node is contested, given a graph
between which and the current one the header was left alone. -/
inductive TakenOut (g₀ : Graph) : Triple → Prop
  | legacy {t : Triple} (h : t.IsLegacy) : TakenOut g₀ t
  | older {n : Node} : TakenOut g₀ (.typing n (.rdfs .Class))
  | restriction {n : Node} (h : Triple.typing n (.owl .Restriction) ∈ g₀) :
      TakenOut g₀ (.typing n (.owl .Class))
  | property {n : Node} (h : g₀.isImported (.typing n (.owl .DeprecatedProperty)) = true →
      g₀.isImported (.typing n (.rdf .Property)) = true) : TakenOut g₀ (.typing n (.rdf .Property))

/-- The triples that normalization may write from a graph on. -/
def room (g₀ : Graph) : List Triple :=
  (g₀.union.positions.flatMap fun n =>
    ⟨n, .owl .deprecated, Literal.yes⟩ :: modernTypes.map (Triple.typing n)) ++
  (g₀.union.uses (.owl .distinctMembers)).map fun t => ⟨t.subject, .owl .members, t.object⟩

/-- There is room for every type that normalization gives, on every node. -/
theorem typing_mem_room (hn : n ∈ g₀.union.positions) (hc : c ∈ modernTypes) :
    Triple.typing n c ∈ g₀.room :=
  List.mem_append_left _ (List.mem_flatMap.2
    ⟨n, hn, List.mem_cons_of_mem _ (List.mem_map_of_mem hc)⟩)

/-- What may be written is about nodes that are there already. -/
theorem subject_of_mem_room (h : t ∈ g₀.room) : t.subject ∈ g₀.union.positions := by
  rcases List.mem_append.1 h with h | h
  · obtain ⟨n, hn, h⟩ := List.mem_flatMap.1 h
    rcases List.mem_cons.1 h with rfl | h
    · exact hn
    · obtain ⟨c, -, rfl⟩ := List.mem_map.1 h
      exact hn
  · obtain ⟨u, hu, rfl⟩ := List.mem_map.1 h
    have hsubject : u.subject ∈ g₀.union.positions := subject_mem_positions (mem_uses.1 hu).1
    exact hsubject

section Debt

open Classical

/-- What is left to do: the triples that may be written and will stay, and the triples of the base
that will be taken out. -/
noncomputable def debt (g₀ g : Graph) : Finset Triple :=
  (g₀.room.toFinset.filter fun t => ¬ g₀.TakenOut t ∧ t ∉ g) ∪
    g.base.toList.toFinset.filter g₀.TakenOut

/-- A triple is owed if there is room for it, it will stay and it is missing, or if it is in the
base and will be taken out. -/
theorem mem_debt : t ∈ g₀.debt g ↔
    (t ∈ g₀.room ∧ ¬ g₀.TakenOut t ∧ t ∉ g) ∨ (t ∈ g.base ∧ g₀.TakenOut t) := by
  simp only [debt, Finset.mem_union, Finset.mem_filter, List.mem_toFinset, TripleSet.mem_def]

/-- An edit that takes a triple off the debt if it changes something: what it adds may be written
and will stay, or is in an import already; what it deletes will be taken out. -/
def LowersDebt (g₀ : Graph) : Edit → Prop
  | .add t => t ∈ g₀.room ∧ ¬ t.IsLegacy ∧ (g₀.TakenOut t → g₀.isImported t = true)
  | .delete t => g₀.TakenOut t

/-- A new triple that will stay is taken off the debt. -/
theorem debt_insert_subset (himports : g.imports = g₀.imports) (h : g₀.LowersDebt (.add t))
    (hnew : t ∉ g) : t ∈ g₀.debt g ∧ g₀.debt (g.insert t).2 ⊆ (g₀.debt g).erase t := by
  obtain ⟨hroom, -, hout⟩ := h
  have hstays : ¬ g₀.TakenOut t := by
    intro hf
    have himported := isImported_iff.1 (hout hf)
    rw [← himports] at himported
    exact hnew (Or.inr himported)
  refine ⟨mem_debt.2 (Or.inl ⟨hroom, hstays, hnew⟩), fun u hu => ?_⟩
  rw [Finset.mem_erase, mem_debt]
  rcases mem_debt.1 hu with ⟨hr, hf, hmem⟩ | ⟨hbase, hf⟩
  · have hmem' : ¬ (u ∈ g ∨ u = t) := fun h => hmem (mem_insert.2 h)
    rw [not_or] at hmem'
    exact ⟨hmem'.2, Or.inl ⟨hr, hf, hmem'.1⟩⟩
  · have hne : u ≠ t := by
      rintro rfl
      exact hstays hf
    exact ⟨hne, Or.inr ⟨(mem_base_insert_of_ne hne).1 hbase, hf⟩⟩

/-- A triple of the base that is taken out is taken off the debt. -/
theorem debt_remove_subset (hout : g₀.TakenOut t) (hold : t ∈ g.base) :
    t ∈ g₀.debt g ∧ g₀.debt (g.remove t).2 ⊆ (g₀.debt g).erase t := by
  refine ⟨mem_debt.2 (Or.inr ⟨hold, hout⟩), fun u hu => ?_⟩
  rw [Finset.mem_erase, mem_debt]
  rcases mem_debt.1 hu with ⟨hr, hf, hmem⟩ | ⟨hbase, hf⟩
  · have hne : u ≠ t := by
      rintro rfl
      exact hf hout
    exact ⟨hne, Or.inl ⟨hr, hf, fun hu => hmem ((mem_remove_of_ne hne).2 hu)⟩⟩
  · obtain ⟨hbase, hne⟩ := mem_base_remove.1 hbase
    exact ⟨hne, Or.inr ⟨hbase, hf⟩⟩

/-- Each change of the graph takes one triple off the debt. -/
theorem card_debt_edit (himports : g.imports = g₀.imports) (h : g₀.LowersDebt e) :
    (g₀.debt (g.edit e).2).card + (g.edit e).1.toNat ≤ (g₀.debt g).card := by
  cases hchanged : (g.edit e).1 with
  | false =>
    have hsame : (g.edit e).2 = g := becomes_edit.eq_of_zero (by rw [hchanged]; rfl)
    rw [hsame]
    exact Nat.le_refl _
  | true =>
    have hactive : ¬ g.Idle e := by
      rw [← edit_eq_false_iff, hchanged]
      decide
    have hstep : e.triple ∈ g₀.debt g ∧ g₀.debt (g.edit e).2 ⊆ (g₀.debt g).erase e.triple := by
      cases e with
      | add t => exact debt_insert_subset himports h hactive
      | delete t => exact debt_remove_subset h (not_not.1 hactive)
    have hcard := Finset.card_le_card hstep.2
    rw [Finset.card_erase_of_mem hstep.1] at hcard
    have hpos : 0 < (g₀.debt g).card := Finset.card_pos.2 ⟨_, hstep.1⟩
    simp only [Bool.toNat_true]
    omega

end Debt

/-- Normalization may turn the one graph into the other, in whose base there is no superseded
vocabulary: they frame the same triples, and all subjects are nodes of the first one. -/
structure DevelopsInto (g₀ g : Graph) : Prop where
  frames : g₀.Frames g
  modern : g.Modern
  subjects : ∀ t ∈ g, t.subject ∈ g₀.union.positions

/-- A graph without superseded vocabulary in its base may stay as it is. -/
theorem DevelopsInto.refl (h : g.Modern) : g.DevelopsInto g :=
  ⟨.refl, h, fun _ ht => subject_mem_positions (mem_union.2 ht)⟩

/-- An edit that keeps the sorts and lowers the debt goes on with the development. -/
theorem DevelopsInto.edit (h : g₀.DevelopsInto g) (hkeeps : e.KeepsSorts)
    (hlowers : g₀.LowersDebt e) : g₀.DevelopsInto (g.edit e).2 := by
  refine ⟨h.frames.trans (frames_edit hkeeps.isWorked), ?_, ?_⟩
  · cases e with
    | add t =>
      intro u hu
      by_cases hne : u = t
      · exact hne ▸ hlowers.2.1
      · exact h.modern u ((mem_base_insert_of_ne hne).1 hu)
    | delete t => exact fun u hu => h.modern u (mem_base_remove.1 hu).1
  · cases e with
    | add t =>
      intro u hu
      rcases mem_insert.1 hu with hu | rfl
      · exact h.subjects u hu
      · exact subject_of_mem_room hlowers.1
    | delete t =>
      intro u hu
      rcases hu with hbase | himported
      · exact h.subjects u (Or.inl (mem_base_remove.1 hbase).1)
      · rw [becomes_edit.imports] at himported
        exact h.subjects u (Or.inr himported)

/-- A number of changes, which keep the sorts of properties, turn a graph into another one. If no
node is contested at the end, each of them took a triple off the debt towards any graph that the
first one developed from. -/
structure LowersDebtBy (s : Settings) (g : Graph) (k : Nat) (g' : Graph) : Prop where
  keepsSorts : g.KeepsSorts g'
  debt_le : (∀ n, ¬ g'.Contested s n) → ∀ g₀, DevelopsInto g₀ g →
    g₀.DevelopsInto g' ∧ (g₀.debt g').card + k ≤ (g₀.debt g).card

/-- No changes, no less debt. -/
theorem LowersDebtBy.refl : g.LowersDebtBy s 0 g := ⟨.refl, fun _ _ h => ⟨h, Nat.le_refl _⟩⟩

/-- Changes made one after another lower the debt by their sum. If nothing is contested at the end,
nothing was in between. -/
theorem LowersDebtBy.trans (h : g.LowersDebtBy s k g') (h' : g'.LowersDebtBy s m g'') :
    g.LowersDebtBy s (k + m) g'' := by
  refine ⟨h.keepsSorts.trans h'.keepsSorts, fun huncontested g₀ hg => ?_⟩
  have huncontested' : ∀ n, ¬ g'.Contested s n := fun n hn =>
    huncontested n (hn.of_keepsSorts h'.keepsSorts)
  obtain ⟨hg', hdebt⟩ := h.debt_le huncontested' g₀ hg
  obtain ⟨hg'', hdebt'⟩ := h'.debt_le huncontested g₀ hg'
  exact ⟨hg'', by omega⟩

/-- Changes within the debt leave a graph with one header its header. -/
theorem LowersDebtBy.one_header (h : g.LowersDebtBy s k g') (hone : g.headers.length = 1) :
    g'.headers.length = 1 := by
  rw [h.keepsSorts.frames.headers_eq]
  exact hone

/-- Edits that lower the debt, if nothing is contested at their start, lower it by their changes. -/
theorem lowersDebtBy_edits (hkeeps : ∀ e ∈ es, e.KeepsSorts)
    (hedits : (∀ n, ¬ g.Contested s n) → ∀ g₀, DevelopsInto g₀ g → ∀ e ∈ es, g₀.LowersDebt e) :
    g.LowersDebtBy s (g.edits es).1 (g.edits es).2 := by
  have hall : g.KeepsSorts (g.edits es).2 := keepsSorts_edits hkeeps
  refine ⟨hall, fun hend g₀ hg => ?_⟩
  have huncontested : ∀ n, ¬ g.Contested s n := fun n hn => hend n (hn.of_keepsSorts hall)
  have hlowers : ∀ e ∈ es, g₀.LowersDebt e := hedits huncontested g₀ hg
  clear huncontested hend hall hedits
  induction es generalizing g with
  | nil => exact ⟨hg, Nat.le_refl _⟩
  | cons e es ih =>
    obtain ⟨he, hes⟩ := List.forall_mem_cons.1 hlowers
    obtain ⟨he', hes'⟩ := List.forall_mem_cons.1 hkeeps
    have hfirst := card_debt_edit hg.frames.imports he
    obtain ⟨hg', hrest⟩ := ih hes' (hg.edit he' he) hes
    refine ⟨hg', ?_⟩
    have hcount : (g.edits (e :: es)).1 = (g.edit e).1.toNat + ((g.edit e).2.edits es).1 := rfl
    have hlast : (g.edits (e :: es)).2 = ((g.edit e).2.edits es).2 := rfl
    rw [hcount, hlast]
    omega

/-! ## Passes -/

/-- No node of the graph is contested. -/
def Uncontested (s : Settings) (g : Graph) : Prop := ∀ n, ¬ g.Contested s n

/-- Writing a type lowers the debt, unless the type will be taken out again. -/
theorem DevelopsInto.lowersDebt_typing (h : g₀.DevelopsInto g) (hn : n ∈ g₀.union.positions)
    (hc : c ∈ modernTypes) (hout : g₀.TakenOut (.typing n c) → g.isImported (.typing n c) = true) :
    g₀.LowersDebt (.add (.typing n c)) :=
  ⟨typing_mem_room hn hc, not_isLegacy_of_modernTypes hc, fun hf =>
    (h.frames.isImported).symm.trans (hout hf)⟩

/-- A sort of a property stays once it is written, and so does the type of datatypes. -/
theorem not_takenOut_of_sort (hc : c ∈ propertyTypes ++ [.rdfs .Datatype]) :
    ¬ g₀.TakenOut (.typing n c) := by
  have hmodern : ∀ c ∈ propertyTypes ++ [.rdfs .Datatype], c ∈ modernTypes ∧
      c ∉ [.rdfs .Class, .owl .Class, .rdf .Property] := by decide
  obtain ⟨hmodern, hother⟩ := hmodern c hc
  generalize ht : Triple.typing n c = t
  intro h
  cases h with
  | legacy hlegacy => exact not_isLegacy_of_modernTypes hmodern (ht ▸ hlegacy)
  | older | restriction | property =>
    cases ht
    exact hother (by simp)

/-- The type of classes is only taken out of restrictions. -/
theorem mem_restriction_of_takenOut (h : g₀.TakenOut (.typing n (.owl .Class))) :
    Triple.typing n (.owl .Restriction) ∈ g₀ := by
  cases h with
  | legacy hlegacy => exact absurd hlegacy (not_isLegacy_of_modernTypes (by decide))
  | restriction h => exact h

/-- Where an import calls a property deprecated, and its type is taken out, the imports have that
type themselves. -/
theorem imported_property_of_takenOut (h : g₀.TakenOut (.typing n (.rdf .Property)))
    (hgiven : g₀.isImported (.typing n (.owl .DeprecatedProperty)) = true) :
    g₀.isImported (.typing n (.rdf .Property)) = true := by
  cases h with
  | legacy hlegacy => exact absurd hlegacy (not_isLegacy_of_modernTypes (by decide))
  | property h => exact h hgiven

/-- Where nothing is contested, a class type that will be taken out is not written: an import
has it. -/
theorem Uncontested.isImported_class (huncontested : g.Uncontested s) (h : g₀.DevelopsInto g)
    (hgiven : g.isImported (.typing n (.owl .DeprecatedClass)) = true ∨
      .add (.typing n (.owl .Class)) ∈ g.union.classDeclarations s)
    (hout : g₀.TakenOut (.typing n (.owl .Class))) :
    g.isImported (.typing n (.owl .Class)) = true := by
  have hrestriction : Triple.typing n (.owl .Restriction) ∈ g :=
    (h.frames.mem_typing_iff (by decide)).2 (mem_restriction_of_takenOut hout)
  by_contra hown
  exact huncontested n (.restriction hrestriction hgiven (Bool.not_eq_true _ ▸ hown))

/-- Superseded vocabulary of a graph without it in the base is that of the imports. -/
theorem DevelopsInto.isImported_of_isLegacy (h : g₀.DevelopsInto g) (ht : t ∈ g)
    (hlegacy : t.IsLegacy) :
    g.isImported t = true :=
  isImported_iff.2 (ht.resolve_left fun hbase => h.modern t hbase hlegacy)

/-- Replacing superseded vocabulary lowers the debt: that of the base is gone, so it is for the
imports that something is written. -/
theorem Uncontested.lowersDebt_legacyEdits (huncontested : g.Uncontested s) (h : g₀.DevelopsInto g)
    (he : e ∈ g.union.legacyEdits) : g₀.LowersDebt e := by
  rcases mem_legacyEdits_iff.1 he with ⟨l, hl, n, hn, rfl | ⟨-, rfl⟩ | rfl⟩ | ⟨n, o, ho, rfl | rfl⟩
  -- a superseded type that is left is in an import, where the pass finds it in each round
  · have himported : g.isImported (.typing n l.legacy) = true :=
      h.isImported_of_isLegacy (mem_union.1 hn) (.type hl)
    have hsubject : n ∈ g₀.union.positions := h.subjects _ (mem_union.1 hn)
    have hcases : ∀ l ∈ legacyTypes, l.modern ∈ modernTypes ∧
        (l.modern ∈ propertyTypes ++ [.rdfs .Datatype] ∨
          l.legacy = .owl .DeprecatedClass ∧ l.modern = .owl .Class ∨
          l.legacy = .owl .DeprecatedProperty ∧ l.modern = .rdf .Property) := by decide
    obtain ⟨hmodern, hsort | ⟨hlegacy, hclass⟩ | ⟨hlegacy, hproperty⟩⟩ := hcases l hl
    · exact h.lowersDebt_typing hsubject hmodern fun hf => absurd hf (not_takenOut_of_sort hsort)
    · rw [hlegacy] at himported
      rw [hclass] at hmodern ⊢
      exact h.lowersDebt_typing hsubject hmodern
        (huncontested.isImported_class h (Or.inl himported))
    · rw [hlegacy, h.frames.isImported] at himported
      rw [hproperty] at hmodern ⊢
      refine h.lowersDebt_typing hsubject hmodern fun hf => ?_
      rw [h.frames.isImported]
      exact imported_property_of_takenOut hf himported
  · refine ⟨List.mem_append_left _ (List.mem_flatMap.2
      ⟨n, h.subjects _ (mem_union.1 hn), List.mem_cons_self⟩), fun hl => (nomatch hl), fun hf => ?_⟩
    cases hf with
    | legacy hl => cases hl
  · exact .legacy (.type hl)
  · have hold : ⟨n, .owl .distinctMembers, o⟩ ∈ g₀.union := by
      have himported := isImported_iff.1 (h.isImported_of_isLegacy (mem_union.1 ho) .members)
      rw [h.frames.imports] at himported
      exact mem_union.2 (Or.inr himported)
    refine ⟨List.mem_append_right _ (List.mem_map.2 ⟨_, mem_uses.2 ⟨hold, rfl⟩, rfl⟩),
      fun hl => (nomatch hl), fun hf => ?_⟩
    cases hf with
    | legacy hl => cases hl
  · exact .legacy .members

/-- Typing the subjects of characteristics lowers the debt. -/
theorem lowersDebt_characteristicEdits (h : g₀.DevelopsInto g)
    (he : e ∈ g.union.characteristicEdits) :
    g₀.LowersDebt e := by
  obtain ⟨c, -, n, hn, rfl⟩ := mem_characteristicEdits_iff.1 he
  exact h.lowersDebt_typing (h.subjects _ (mem_union.1 hn)) (by decide) fun hf =>
    absurd hf (not_takenOut_of_sort (by decide))

/-- Settling the sorts of properties lowers the debt. -/
theorem lowersDebt_sortEdits {budget : Option Nat} (h : g₀.DevelopsInto g)
    (he : e ∈ g.union.sortEdits budget) : g₀.LowersDebt e := by
  obtain ⟨n, c, hn, hc, rfl⟩ := mem_sortEdits_iff.1 he
  have hc : c ∈ propertyTypes := mem_propertyTypes_of_impliedSort? hc
  have hsubject : n ∈ g₀.union.positions := by
    rcases (mem_unsortedProperties_iff.1 hn).1 with ht | ht <;>
      exact h.subjects _ (mem_union.1 ht)
  exact h.lowersDebt_typing hsubject (mem_modernTypes_of_propertyTypes hc) fun hf =>
    absurd hf (not_takenOut_of_sort (List.mem_append_left _ hc))

/-- Taking out redundant types lowers the debt, where no import gives the reason to write them
again. -/
theorem Uncontested.lowersDebt_redundancyEdits (huncontested : g.Uncontested s)
    (h : g₀.DevelopsInto g) (he : e ∈ g.union.redundancyEdits) : g₀.LowersDebt e := by
  obtain ⟨p, hp, n, hn, ⟨d, hd, ht⟩, rfl⟩ := mem_redundancyEdits_iff.1 he
  simp only [lesserTypes, List.mem_cons, List.not_mem_nil, or_false] at hp
  rcases hp with rfl | rfl | rfl
  · rw [List.mem_singleton] at hd
    subst hd
    exact .restriction ((h.frames.mem_typing_iff (by decide)).1 (mem_union.1 ht))
  · exact .older
  · refine .property fun hgiven => ?_
    rw [← h.frames.isImported] at hgiven ⊢
    by_contra hown
    exact huncontested n (.property (hasPropertyType_iff.2 ⟨d, hd, ht⟩) hgiven
      (Bool.not_eq_true _ ▸ hown))

/-- Declaring what the graph implies lowers the debt, where no restriction is declared a class. -/
theorem Uncontested.lowersDebt_declarationEdits (huncontested : g.Uncontested s)
    (h : g₀.DevelopsInto g) (he : e ∈ Pipeline.declarationEdits s g) : g₀.LowersDebt e := by
  rcases List.mem_append.1 he with he | he
  · obtain ⟨i, hi, hplaced, rfl⟩ := mem_classDeclarations_iff.1 he
    have hsubject : .iri i ∈ g₀.union.positions :=
      h.frames.mem_positions_of_placesClass hi (mem_classPlaces_iff.1 hplaced)
    exact h.lowersDebt_typing hsubject (by decide) (huncontested.isImported_class h (Or.inr he))
  · obtain ⟨i, c, hi, ⟨r, hr⟩, hc, rfl⟩ := mem_propertyDeclarations_iff.1 he
    have hc : c ∈ propertyTypes := mem_propertyTypes_of_onlySort? hc
    have hpredicate : Iri.owl .onProperty ∉ workedPredicates := by decide
    have hunworked : Triple.isWorked ⟨r, .owl .onProperty, (i : Node)⟩ = false :=
      isWorked_eq_false hpredicate fun e => nomatch e
    have hold : ⟨r, .owl .onProperty, (i : Node)⟩ ∈ g₀ :=
      (h.frames.mem_iff hunworked).1 (mem_union.1 hr)
    exact h.lowersDebt_typing (object_mem_positions (mem_union.2 hold))
      (mem_modernTypes_of_propertyTypes hc) fun hf =>
        absurd hf (not_takenOut_of_sort (List.mem_append_left _ hc))

/-- Rounds that settle the sorts of properties lower the debt by their changes. -/
theorem lowersDebtBy_settleWithin {budget : Option Nat} {rounds : Nat} :
    g.LowersDebtBy s (g.settleWithin budget rounds).1 (g.settleWithin budget rounds).2 := by
  induction rounds generalizing g with
  | zero => exact .refl
  | succ rounds ih =>
    have hedits : g.LowersDebtBy s (g.edits (g.union.sortEdits budget)).1
        (g.edits (g.union.sortEdits budget)).2 :=
      lowersDebtBy_edits (fun _ => keepsSorts_of_sortEdits) fun _ _ h _ he =>
        lowersDebt_sortEdits h he
    unfold settleWithin
    dsimp only
    split
    case isTrue hzero =>
      rw [hzero] at hedits
      exact hedits
    case isFalse => exact hedits.trans ih

/-- Settling types lowers the debt by its changes. -/
theorem lowersDebtBy_settleTypes {budget : Option Nat} :
    g.LowersDebtBy s (g.settleTypes budget).1 (g.settleTypes budget).2 := by
  have hfirst : g.LowersDebtBy s (g.edits g.union.characteristicEdits).1
      (g.edits g.union.characteristicEdits).2 :=
    lowersDebtBy_edits (fun _ => keepsSorts_of_characteristicEdits) fun _ _ h _ he =>
      lowersDebt_characteristicEdits h he
  have hlast : ∀ h : Graph, h.LowersDebtBy s (h.edits h.union.redundancyEdits).1
      (h.edits h.union.redundancyEdits).2 := fun _ =>
    lowersDebtBy_edits (fun _ => keepsSorts_of_redundancyEdits) fun huncontested _ h _ he =>
      Uncontested.lowersDebt_redundancyEdits huncontested h he
  unfold settleTypes settleSorts
  dsimp only
  exact (hfirst.trans lowersDebtBy_settleWithin).trans (hlast _)

end Graph

open Ontograph.Graph

namespace Pipeline

open PassReport

variable {p : Pass} {ps : Pipeline} {s : Settings} {w : Workbench} {number j k left : Nat}
  {before : List PassReport} {g₀ : Graph}

/-- Every pass but the one that merges headers lowers the debt by its changes. -/
theorem lowersDebtBy_run (hp : p ∈ standard) (hheader : p ≠ headerPass) :
    w.graph.LowersDebtBy s (p.run s w).1 (p.run s w).2.graph := by
  rcases mem_standard_iff.1 hp with rfl | rfl | rfl | rfl
  · rw [run_legacyPass]
    dsimp only
    exact lowersDebtBy_edits (fun _ => keepsSorts_of_legacyEdits) fun huncontested _ h _ he =>
      Uncontested.lowersDebt_legacyEdits huncontested h he
  · rw [run_typingPass]
    dsimp only
    exact lowersDebtBy_settleTypes
  · exact absurd rfl hheader
  · rw [run_declarationPass]
    dsimp only
    exact lowersDebtBy_edits (fun _ => keepsSorts_of_declarationEdits) fun huncontested _ h _ he =>
      Uncontested.lowersDebt_declarationEdits huncontested h he

/-! ## Rounds -/

/-- With one header, a round lowers the debt by its changes. -/
theorem lowersDebtBy_round (hps : ∀ p ∈ ps, p ∈ standard) (hone : w.graph.headers.length = 1) :
    w.graph.LowersDebtBy s (total (round s number ps w).1) (round s number ps w).2.graph := by
  induction ps generalizing w with
  | nil => exact .refl
  | cons p ps ih =>
    obtain ⟨hp, hrest⟩ := List.forall_mem_cons.1 hps
    unfold round
    split
    case isTrue happlies =>
      have hheader : p ≠ headerPass := by
        rintro rfl
        exact bne_iff_ne.1 happlies hone
      have hrun : w.graph.LowersDebtBy s (p.run s w).1 (p.run s w).2.graph :=
        lowersDebtBy_run hp hheader
      exact hrun.trans (ih hrest (hrun.one_header hone))
    case isFalse => exact ih hrest hone

/-- After a round the base has no superseded vocabulary. -/
theorem modern_round (hone : w.graph.headers.length = 1) :
    (round s number standard w).2.graph.Modern := by
  have hfirst : ∃ w' : Workbench, w'.graph.Modern ∧ w'.graph.OneHeader ∧
      (round s number standard w).2 =
        (round s number [typingPass, headerPass, declarationPass] w').2 := by
    by_cases happlies : legacyPass.applies w.graph = true
    · refine ⟨(legacyPass.run s w).2, ?_, ?_, ?_⟩
      · rw [run_legacyPass]
        exact modern_legacyEdits
      · exact (preserves_run (mem_standard_iff.2 (Or.inl rfl))
          (oneHeader_of_length (Nat.le_of_eq hone))).2
      · unfold standard
        rw [round, if_pos happlies]
    · refine ⟨w, ?_, oneHeader_of_length (Nat.le_of_eq hone), ?_⟩
      · intro t ht hlegacy
        exact happlies (TripleSet.hasLegacy_iff.2 ⟨t, mem_union.2 (Or.inl ht), hlegacy⟩)
      · unfold standard
        rw [round, if_neg happlies]
  obtain ⟨w', hmodern, hone', hlast⟩ := hfirst
  rw [hlast]
  refine hmodern.of_preserves (preserves_round (fun p hp => ?_) hone').1
  exact mem_standard_iff.2 (Or.inr (by simpa using hp))

/-- The workbench after a number of standard rounds. -/
def after (s : Settings) (w : Workbench) : Nat → Workbench
  | 0 => w
  | k + 1 => (round s 1 standard (after s w k)).2

/-- How many triples the standard round after a number of others adds or takes out. -/
def changesAfter (s : Settings) (w : Workbench) (k : Nat) : Nat :=
  total (round s 1 standard (after s w k)).1

/-- The rounds after the first one are those from where it ended. -/
theorem after_succ : after s w (k + 1) = after s (round s 1 standard w).2 k := by
  induction k with
  | zero => rfl
  | succ k ih =>
    rw [after, ih]
    rfl

/-- The names to come stay new round after round. -/
theorem namesNew_after (hnew : w.NamesNew) : (after s w k).NamesNew := by
  induction k with
  | zero => exact hnew
  | succ k ih => exact namesNew_round (fun _ hp => hp) ih

/-- Rounds after rounds are rounds. -/
theorem after_add : after s w (k + j) = after s (after s w k) j := by
  induction j with
  | zero => rfl
  | succ j ih =>
    have hlast : after s w (k + (j + 1)) = (round s 1 standard (after s w (k + j))).2 := rfl
    rw [hlast, ih]
    rfl

/-- The changes of a later round are those of an earlier one, counted from in between. -/
theorem changesAfter_add : changesAfter s w (k + j) = changesAfter s (after s w k) j := by
  unfold changesAfter
  rw [after_add]

/-- From a round that changed nothing on, the rounds leave the workbench alone. -/
theorem after_eq_of_changesAfter (hnew : w.NamesNew) (hzero : changesAfter s w k = 0) :
    after s w (k + j) = after s w k := by
  induction j with
  | zero => rfl
  | succ j ih =>
    have hlast : after s w (k + (j + 1)) = (round s 1 standard (after s w (k + j))).2 := rfl
    rw [hlast, ih]
    exact (round_again (fun _ hp => hp) (namesNew_after hnew) hzero 1 (after s w k).supply).2

/-- With one header, and where nothing is contested in any round, some round changes nothing: each
change takes a triple off a finite debt. -/
theorem exists_changesAfter_eq_zero (hone : w.graph.headers.length = 1)
    (hg : g₀.DevelopsInto w.graph)
    (huncontested : ∀ j, (after s w j).graph.Uncontested s) : ∃ j, changesAfter s w j = 0 := by
  induction hdebt : (g₀.debt w.graph).card using Nat.strong_induction_on generalizing w with
  | _ debt ih =>
    by_cases hzero : changesAfter s w 0 = 0
    · exact ⟨0, hzero⟩
    · have hround : w.graph.LowersDebtBy s (changesAfter s w 0) (after s w 1).graph :=
        lowersDebtBy_round (fun _ hp => hp) hone
      obtain ⟨hg', hless⟩ := hround.debt_le (huncontested 1) g₀ hg
      have huncontested' : ∀ j, (after s (after s w 1) j).graph.Uncontested s := by
        intro j
        rw [← after_add]
        exact huncontested (1 + j)
      -- the round changed something, so the debt is smaller
      obtain ⟨j, hj⟩ := ih _ (by omega) (hround.one_header hone) hg' huncontested' rfl
      exact ⟨1 + j, changesAfter_add.trans hj⟩

/-! ## Runs -/

/-- A standard pass does not look at the number of rounds. -/
theorem run_rounds {n : Nat} (hp : p ∈ standard) : p.run { s with rounds := n } w = p.run s w := by
  rcases mem_standard_iff.1 hp with rfl | rfl | rfl | rfl
  · rw [run_legacyPass, run_legacyPass]
  · rw [run_typingPass, run_typingPass]
  · rw [run_headerPass, run_headerPass]
  · rw [run_declarationPass, run_declarationPass]
    rfl

/-- Neither the limit on rounds nor the number of a round matters for what it does. -/
theorem round_rounds {n : Nat} (hps : ∀ p ∈ ps, p ∈ standard) :
    total (round { s with rounds := n } number ps w).1 = total (round s 1 ps w).1 ∧
      (round { s with rounds := n } number ps w).2 = (round s 1 ps w).2 := by
  induction ps generalizing w with
  | nil => exact ⟨rfl, rfl⟩
  | cons p ps ih =>
    obtain ⟨hp, hrest⟩ := List.forall_mem_cons.1 hps
    unfold round
    by_cases happlies : p.applies w.graph = true
    · rw [if_pos happlies, if_pos happlies, run_rounds hp]
      obtain ⟨htotal, hsame⟩ := ih (w := (p.run s w).2) hrest
      exact ⟨congrArg ((p.run s w).1 + ·) htotal, hsame⟩
    · rw [if_neg happlies, if_neg happlies]
      exact ih hrest

/-- A run converges if one of its rounds changes nothing. -/
theorem runFrom_converged_iff {n : Nat} :
    (runFrom standard { s with rounds := n } number before left w).1.converged = true ↔
      ∃ j < left, changesAfter s w j = 0 := by
  induction left generalizing number before w with
  | zero => simp [runFrom]
  | succ left ih =>
    obtain ⟨htotal, hsame⟩ :
        total (round { s with rounds := n } number standard w).1 = total (round s 1 standard w).1 ∧
          (round { s with rounds := n } number standard w).2 = (round s 1 standard w).2 :=
      round_rounds fun _ hp => hp
    have hlater : ∀ j, changesAfter s (round s 1 standard w).2 j = changesAfter s w (j + 1) := by
      intro j
      unfold changesAfter
      rw [after_succ]
    unfold runFrom
    dsimp only
    rw [htotal, hsame]
    -- a run stops at the first round that changes nothing
    by_cases hzero : total (round s 1 standard w).1 = 0
    · rw [if_pos hzero]
      exact iff_of_true rfl ⟨0, Nat.succ_pos left, hzero⟩
    · rw [if_neg hzero, ih]
      constructor
      · rintro ⟨j, hj, h⟩
        exact ⟨j + 1, Nat.succ_lt_succ hj, (hlater j).symm.trans h⟩
      · rintro ⟨j, hj, h⟩
        cases j with
        | zero => exact absurd h hzero
        | succ j => exact ⟨j, Nat.lt_of_succ_lt_succ hj, (hlater j).trans h⟩

/-- With enough rounds allowed a run converges if some round changes nothing. -/
theorem exists_converged_iff :
    (∃ N, ∀ n, N ≤ n → (standard.normalize { s with rounds := n } w).1.converged = true) ↔
      ∃ j, changesAfter s w j = 0 := by
  constructor
  · rintro ⟨N, hN⟩
    obtain ⟨j, -, hj⟩ := runFrom_converged_iff.1 (hN N (Nat.le_refl N))
    exact ⟨j, hj⟩
  · rintro ⟨j, hj⟩
    refine ⟨j + 1, fun n hn => runFrom_converged_iff.2 ⟨j, ?_, hj⟩⟩
    have hmax : n ≤ max 1 n := Nat.le_max_right 1 n
    dsimp only
    omega

/-- With one header from some round on, and nothing contested from there, some round changes
nothing. -/
theorem exists_changesAfter_of_uncontested (hone : (after s w k).graph.headers.length = 1)
    (huncontested : ∀ j, k ≤ j → (after s w j).graph.Uncontested s) :
    ∃ j, changesAfter s w j = 0 := by
  -- one more round takes the superseded vocabulary out of the base
  have hround :
      (after s w k).graph.LowersDebtBy s (changesAfter s w k) (after s w (k + 1)).graph :=
    lowersDebtBy_round (fun _ hp => hp) hone
  have hone' : (after s w (k + 1)).graph.headers.length = 1 := hround.one_header hone
  have hmodern : (after s w (k + 1)).graph.Modern := modern_round hone
  have huncontested' : ∀ j, (after s (after s w (k + 1)) j).graph.Uncontested s := by
    intro j
    rw [← after_add]
    exact huncontested (k + 1 + j) (by omega)
  obtain ⟨j, hj⟩ := exists_changesAfter_eq_zero hone' (.refl hmodern) huncontested'
  exact ⟨k + 1 + j, changesAfter_add.trans hj⟩

/-- With one header, no round takes out a sort of a property. -/
theorem keepsSorts_after (hone : w.graph.headers.length = 1) :
    w.graph.KeepsSorts (after s w k).graph := by
  induction k with
  | zero => exact .refl
  | succ k ih =>
    have hone' : (after s w k).graph.headers.length = 1 := by
      rw [ih.frames.headers_eq]
      exact hone
    exact ih.trans (lowersDebtBy_round (fun _ hp => hp) hone').keepsSorts

/-- With one header, no run converges if a node is contested at the start. -/
theorem converged_eq_false_of_contested (hnew : w.NamesNew) (hone : w.graph.headers.length = 1)
    {n : Node} (h : w.graph.Contested s n) (rounds : Nat) :
    (standard.normalize { s with rounds } w).1.converged = false := by
  rw [← Bool.not_eq_true]
  intro hconverged
  obtain ⟨j, -, hj⟩ := runFrom_converged_iff.1 hconverged
  exact not_contested_of_round (namesNew_after hnew) hj n (h.of_keepsSorts (keepsSorts_after hone))

/-- With headers that can be merged, in a graph where nothing can become contested, some round
changes nothing. -/
theorem exists_changesAfter_of_uncontestable (hone : w.graph.headers.length = 1 ∨ w.MergesApart)
    (huncontestable : w.graph.Uncontestable) : ∃ j, changesAfter s w j = 0 := by
  have hone' : (after s w 1).graph.headers.length = 1 := by
    have hheader : headerPass ∈ standard := mem_standard_iff.2 (Or.inr (Or.inr (Or.inl rfl)))
    exact hone.elim (length_headers_round fun _ hp => hp) fun h =>
      length_headers_round_of_mem (fun _ hp => hp) hheader h.toMergeable
  have huncontestable' : (after s w 1).graph.Uncontestable :=
    uncontestable_round (fun _ hp => hp) hone huncontestable
  refine exists_changesAfter_of_uncontested hone' fun j hj => ?_
  obtain ⟨i, rfl⟩ := Nat.exists_eq_add_of_le hj
  rw [after_add]
  exact (huncontestable'.of_frames (keepsSorts_after hone').frames).not_contested

/-- **Convergence.** With enough rounds allowed, the standard normalization of a graph converges
exactly if, from some round on, the base has one header and no node is contested.  This is so for
every graph with at most one header, or with headers that can be merged and are no restrictions, if
its restrictions have no names and its imports call nothing deprecated by its type. -/
theorem normalize_converges_iff (s : Settings) (w : Workbench) (hnew : w.NamesNew) :
    ((∃ N, ∀ n, N ≤ n → (standard.normalize { s with rounds := n } w).1.converged = true) ↔
      ∃ k, (after s w k).graph.headers.length = 1 ∧
        ∀ j, k ≤ j → ∀ n, ¬ (after s w j).graph.Contested s n) ∧
    (w.graph.headers.length ≤ 1 ∨ w.MergesApart → w.graph.Uncontestable →
      ∃ N, ∀ n, N ≤ n → (standard.normalize { s with rounds := n } w).1.converged = true) := by
  rw [exists_converged_iff]
  refine ⟨⟨?_, ?_⟩, fun hone huncontestable => ?_⟩
  · rintro ⟨k, hzero⟩
    refine ⟨k, headers_of_round (namesNew_after hnew) hzero, fun j hj n => ?_⟩
    obtain ⟨i, rfl⟩ := Nat.exists_eq_add_of_le hj
    rw [after_eq_of_changesAfter hnew hzero]
    exact not_contested_of_round (namesNew_after hnew) hzero n
  · rintro ⟨k, hone, huncontested⟩
    exact exists_changesAfter_of_uncontested hone huncontested
  · refine exists_changesAfter_of_uncontestable (hone.elim (fun hone => ?_) Or.inr) huncontestable
    rcases Nat.lt_or_eq_of_le hone with hnone | hone
    · exact Or.inr (hnew.mergesApart (List.length_eq_zero_iff.1 (Nat.lt_one_iff.1 hnone)))
    · exact Or.inl hone

/-- Two headers, a deprecated class and a class known by its place: the first round changes the
graph and the second one does not, so nothing is contested from then on.  No header, and a
restriction of an import that has no name: the first round changes the graph here too, and again
normalization converges. -/
theorem normalize_converges_iff_headers :
    let a : Node := .iri (.ofValue "http://example.org/a")
    let b : Node := .iri (.ofValue "http://example.org/b")
    let r : Node := .blank ⟨"r"⟩
    let w : Workbench :=
      ⟨{ base := .ofList [.typing a (.owl .Ontology), .typing b (.owl .Ontology),
          .typing a (.owl .DeprecatedClass), ⟨a, .rdfs .subClassOf, b⟩] }, ⟨"n", 0⟩⟩
    let w' : Workbench :=
      ⟨{ base := .ofList [⟨a, .rdfs .subClassOf, r⟩]
         imports := [⟨0, .ofList [.typing r (.owl .Restriction), .typing b (.owl .Class)]⟩] },
        ⟨"n", 0⟩⟩
    let Converges (w : Workbench) : Prop :=
      ∃ N, ∀ n, N ≤ n → (standard.normalize { rounds := n } w).1.converged = true
    (w.graph.headers = [a, b] ∧ changesAfter {} w 0 ≠ 0 ∧ Converges w ∧
      ∃ k, (after {} w k).graph.headers.length = 1 ∧
        ∀ j, k ≤ j → ∀ n, ¬ (after {} w j).graph.Contested {} n) ∧
    w'.graph.headers = [] ∧ changesAfter {} w' 0 ≠ 0 ∧ Converges w' := by
  intro a b r w w' Converges
  have hnew : w.NamesNew := fun _ _ => rfl
  have huncontestable : w.graph.Uncontestable :=
    uncontestable_of_forall (by decide +kernel) (by decide +kernel)
  have hheaders : w.graph.headers = [a, b] := by decide +kernel
  have hapart : w.MergesApart :=
    { notImported := fun _ _ _ ht => absurd ht Bool.false_ne_true
      notClass := by decide +kernel
      new := fun _ => rfl
      notRestriction := fun n hn ht => by
        have hall : ∀ n ∈ [a, b], Triple.typing n (.owl .Restriction) ∉ w.graph.union := by
          decide +kernel
        exact hall n (hheaders ▸ hn) (mem_union.2 ht)
      notRestrictions := by decide +kernel }
  have hchanged : changesAfter {} w 0 ≠ 0 := by decide +kernel
  have hconverges : Converges w :=
    (normalize_converges_iff {} w hnew).2 (Or.inr hapart) huncontestable
  have hnew' : w'.NamesNew := by
    intro k _
    rw [← Bool.not_eq_true, isImported_iff]
    rintro ⟨i, hi, ht⟩
    cases List.mem_singleton.1 hi
    have hobjects : ∀ t ∈ (TripleSet.ofList [.typing r (.owl .Restriction),
        .typing b (.owl .Class)]).toList, t.object ≠ (.iri (.owl .Ontology) : Node) := by
      decide +kernel
    exact hobjects _ ht rfl
  have huncontestable' : w'.graph.Uncontestable :=
    uncontestable_of_forall (by decide +kernel) (by decide +kernel)
  have hnone : w'.graph.headers = [] := by decide +kernel
  have hchanged' : changesAfter {} w' 0 ≠ 0 := by decide +kernel
  have hconverges' : Converges w' :=
    (normalize_converges_iff {} w' hnew').2 (Or.inl (by simp [hnone])) huncontestable'
  exact ⟨⟨hheaders, hchanged, hconverges, (normalize_converges_iff {} w hnew).1.1 hconverges⟩,
    hnone, hchanged', hconverges'⟩

/-- A restriction with a name in the place of a class: whatever the number of rounds, the last one
declares the class and takes the declaration out again. -/
theorem not_converged_of_named_restriction :
    let o : Node := .iri (.ofValue "http://example.org/o")
    let a : Node := .iri (.ofValue "http://example.org/a")
    let r : Node := .iri (.ofValue "http://example.org/r")
    let w : Workbench :=
      ⟨{ base := .ofList [.typing o (.owl .Ontology), .typing r (.owl .Restriction),
          ⟨a, .rdfs .subClassOf, r⟩] }, ⟨"n", 0⟩⟩
    ∀ n, (standard.normalize { rounds := n } w).1.converged = false := by
  intro o a r w n
  have hnew : w.NamesNew := fun _ _ => rfl
  have hone : w.graph.headers.length = 1 := by decide +kernel
  have hrestriction : Triple.typing r (.owl .Restriction) ∈ w.graph := Or.inl (by decide +kernel)
  have hdeclared : .add (.typing r (.owl .Class)) ∈ w.graph.union.classDeclarations {} := by
    decide +kernel
  exact converged_eq_false_of_contested (s := {}) hnew hone
    (.restriction hrestriction (Or.inr hdeclared) rfl) n

end Pipeline

end Ontograph
