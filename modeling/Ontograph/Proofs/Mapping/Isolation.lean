import Ontograph.Proofs.Mapping.Acceptance
import Ontograph.Proofs.Mapping.RoundTrip

/-!
# Encodings keep apart

All that is written for an axiom, but for its main triple, is about nodes taken for it, and the
main triple is about one of these nodes or about an operand of the axiom (`Axiom.Placed`).  So
encodings with different new nodes have at most their main triple in common
(`AnnotatedAxiom.wellFormed_and_isolated`).
-/

namespace Ontograph

open Drafting

/-! ## Where an axiom is written -/

/-- From one draft to another an axiom is written: its main triple, about an operand of the axiom
or a new node, and other triples, about new nodes only. -/
structure Axiom.Placed (ax : Axiom) (d d' : Draft) (anchor : Anchor) (ts : List Triple) :
    Prop extends d.supply.Covers d'.supply ts where
  mem : ∀ t ∈ d'.triples, t ∈ d.triples ∨ t = anchor.main ∨ t ∈ ts
  subject : anchor.main.subject ∈ ax.operands ∨ d.supply.Makes d'.supply anchor.main.subject
  rooted : anchor.rooted = true → d.supply.Makes d'.supply anchor.main.subject

namespace Axiom

variable {ax : Axiom} {d d₁ d₂ d' : Draft} {anchor : Anchor} {ts : List Triple} {s n : Node}
  {p c : Iri} {o list : Term} {xs : List Term}

/-- A main triple after the parts of the axiom. -/
theorem Placed.of_plain (h : encodePlain s p o d₁ = .ok (anchor, d')) (hts : d.Grows d₁ ts)
    (hs : s ∈ ax.operands ∨ d.supply.Makes d₁.supply s) : ax.Placed d d' anchor ts := by
  obtain ⟨rfl, rfl⟩ := encodePlain_eq_ok_iff.1 h
  refine ⟨hts.toCovers, fun t ht => ?_, hs, fun h => nomatch h⟩
  rcases List.mem_append.1 ht with ht | ht
  · exact ((hts.mem_iff t).1 ht).imp_right Or.inr
  · exact Or.inr (Or.inl (List.mem_singleton.1 ht))

/-- An axiom of one triple about an operand is placed. -/
theorem Placed.of_single (h : encodePlain s p o d = .ok (anchor, d')) (hs : s ∈ ax.operands) :
    ax.Placed d d' anchor [] := .of_plain h (.refl d) (Or.inl hs)

/-- A node of its own after the parts of the axiom, and what is said of it. -/
theorem Placed.of_root {inner own : List Triple} {d₃ : Draft} (hearly : d.Grows d₁ ts)
    (h : encodeRoot c d₁ = .ok ((n, anchor), d₂)) (hinner : d₂.Grows d₃ inner)
    (hd' : d' = ⟨d₃.supply, d₃.triples ++ own⟩) (hown : ∀ t ∈ own, t.subject = n) :
    ax.Placed d d' anchor (ts ++ own ++ inner) := by
  obtain ⟨rfl, rfl, rfl⟩ := encodeRoot_eq_ok_iff.1 h
  subst hd'
  have hmade : d.supply.Makes d₃.supply d₁.supply.head :=
    (Supply.makes_head hinner.toPrecedes).mono hearly.toPrecedes .refl
  refine ⟨hearly.toCovers.build hown hinner.toCovers, fun t ht => ?_, Or.inr hmade, fun _ => hmade⟩
  simp only [List.mem_append, hinner.mem_iff, hearly.mem_iff, List.mem_singleton] at ht ⊢
  tauto

/-- An axiom with a node that groups its members is placed, after the members. -/
theorem exists_placed_of_group (hearly : d.Grows d₁ ts)
    (h : encodeGroup c xs d₁ = .ok (anchor, d')) : ∃ us, ax.Placed d d' anchor us := by
  obtain ⟨root, d₂, list, d₃, hroot, hlist, hd'⟩ := exists_list_of_encodeGroup h
  obtain ⟨cells, hcells, -⟩ := readCells_of_encodeList hlist
  exact ⟨_, .of_root hearly hroot hcells hd' (by simp)⟩

/-- A group of members that are no expressions. -/
theorem exists_placed_of_memberGroup {least found : Nat} (h : (do
      atLeast least found
      encodeGroup c xs) d = .ok (anchor, d')) : ∃ us, ax.Placed d d' anchor us := by
  obtain ⟨_, _, hleast, h⟩ := bind_eq_ok_iff.1 h
  obtain ⟨-, rfl⟩ := atLeast_eq_ok_iff.1 hleast
  exact exists_placed_of_group (.refl d) h

/-- The node of a class expression is the class, or new. -/
theorem exists_grows_of_classExpr {e : ClassExpr} (h : e.encode d = .ok (n, d')) :
    ∃ ts, d.Grows d' ts ∧ (n ∈ operands.named e ∨ d.supply.Makes d'.supply n) := by
  obtain ⟨ts, hts, ⟨i, rfl, rfl⟩ | hmade, -⟩ := Source.recovers_classExpr e h
  · exact ⟨ts, hts, Or.inl (by simp [operands.named, ClassExpr.class?])⟩
  · exact ⟨ts, hts, Or.inr hmade⟩

/-- The node of a property expression is the property, or new. -/
theorem exists_grows_of_objectProperty {e : ObjectPropertyExpr} (h : e.encode d = .ok (n, d')) :
    ∃ ts, d.Grows d' ts ∧ (n = .iri e.base ∨ d.supply.Makes d'.supply n) := by
  obtain ⟨ts, hts, hmade, -⟩ := Source.recovers_objectProperty h
  refine ⟨ts, hts, ?_⟩
  cases e with
  | named p => exact Or.inl (pure_eq_ok_iff.1 h).1.symm
  | inverse p =>
    obtain ⟨_, d₁, hnode, h⟩ := bind_eq_ok_iff.1 h
    obtain ⟨rfl, -⟩ := fresh_eq_ok_iff.1 hnode
    obtain ⟨_, d₂, -, h⟩ := bind_eq_ok_iff.1 h
    obtain ⟨rfl, -⟩ := pure_eq_ok_iff.1 h
    exact Or.inr (hmade rfl)

/-- An axiom about a node that is written, an operand or new, and something that is written next. -/
theorem exists_placed_of_written {α : Type} {write : Drafting Node} {writeNext : Drafting α}
    {value : α → Term}
    (hwrite : ∀ {n d₁}, write d = .ok (n, d₁) → ∃ ts, d.Grows d₁ ts ∧
      (n ∈ ax.operands ∨ d.supply.Makes d₁.supply n))
    (hnext : ∀ {x d₁ d₂}, writeNext d₁ = .ok (x, d₂) → ∃ ts, d₁.Grows d₂ ts)
    (h : (do
      let n ← write
      let x ← writeNext
      encodePlain n p (value x)) d = .ok (anchor, d')) : ∃ us, ax.Placed d d' anchor us := by
  obtain ⟨n, d₁, hn, h⟩ := bind_eq_ok_iff.1 h
  obtain ⟨x, d₂, hx, h⟩ := bind_eq_ok_iff.1 h
  obtain ⟨ts, hts, hnode⟩ := hwrite hn
  obtain ⟨us, hus⟩ := hnext hx
  refine ⟨_, .of_plain h (hts.append hus) (hnode.imp_right fun hmade => ?_)⟩
  exact hmade.mono .refl hus.toPrecedes

/-- An axiom about two class expressions. -/
theorem exists_placed_of_pair {a b : ClassExpr} (hax : ∀ m ∈ operands.named a, m ∈ ax.operands)
    (h : (do
      let n ← a.encode
      let m ← b.encode
      encodePlain n p m) d = .ok (anchor, d')) : ∃ us, ax.Placed d d' anchor us := by
  refine exists_placed_of_written (fun ha => ?_) (fun hb => ?_) h
  · exact (exists_grows_of_classExpr ha).imp fun _ h => h.imp_right (Or.imp_left (hax _))
  · exact (exists_grows_of_classExpr hb).imp fun _ h => h.1

/-- An axiom about an operand and something that is written before. -/
theorem exists_placed_of_filler {α : Type} {write : Drafting α} {value : α → Term}
    (hwrite : ∀ {x d₁}, write d = .ok (x, d₁) → ∃ ts, d.Grows d₁ ts) (hs : s ∈ ax.operands)
    (h : (do
      let x ← write
      encodePlain s p (value x)) d = .ok (anchor, d')) : ∃ us, ax.Placed d d' anchor us := by
  obtain ⟨x, d₁, hx, h⟩ := bind_eq_ok_iff.1 h
  obtain ⟨ts, hts⟩ := hwrite hx
  exact ⟨_, .of_plain h hts (Or.inl hs)⟩

/-- An axiom that ends in a class expression is placed, after the expression. -/
theorem exists_placed_of_class {e : ClassExpr} (hs : s ∈ ax.operands) (h : (do
      let n ← e.encode
      encodePlain s p n) d = .ok (anchor, d')) : ∃ us, ax.Placed d d' anchor us :=
  exists_placed_of_filler (fun he => (exists_grows_of_classExpr he).imp fun _ h => h.1) hs h

/-- An axiom that ends in a data range is placed, after the data range. -/
theorem exists_placed_of_range {e : DataRange} (hs : s ∈ ax.operands) (h : (do
      let n ← e.encode
      encodePlain s p n) d = .ok (anchor, d')) : ∃ us, ax.Placed d d' anchor us :=
  exists_placed_of_filler (fun he => (Source.recovers_dataRange e he).imp fun _ h => h.1) hs h

/-- An axiom about an operand and a list of parts. -/
theorem exists_placed_of_list {least found : Nat} {write : Drafting (List Term)}
    (hwrite : ∀ {xs d₁}, write d = .ok (xs, d₁) → ∃ ts, d.Grows d₁ ts) (hs : s ∈ ax.operands)
    (h : (do
      atLeast least found
      let xs ← write
      let list ← encodeList xs
      encodePlain s p list) d = .ok (anchor, d')) : ∃ us, ax.Placed d d' anchor us := by
  obtain ⟨_, _, hleast, h⟩ := bind_eq_ok_iff.1 h
  obtain ⟨-, rfl⟩ := atLeast_eq_ok_iff.1 hleast
  obtain ⟨xs, d₁, hxs, h⟩ := bind_eq_ok_iff.1 h
  obtain ⟨ts, hts⟩ := hwrite hxs
  obtain ⟨list, d₂, hlist, h⟩ := bind_eq_ok_iff.1 h
  obtain ⟨cells, hcells, -⟩ := readCells_of_encodeList hlist
  exact ⟨_, .of_plain h (hts.append hcells) (Or.inl hs)⟩

/-- A group of disjoint classes is placed, after the classes. -/
theorem exists_placed_of_classGroup {cs : List ClassExpr} (h : (do
      atLeast 2 cs.length
      let members ← ClassExpr.encodeAll cs
      encodeGroup (.owl .AllDisjointClasses) members) d = .ok (anchor, d')) :
    ∃ us, ax.Placed d d' anchor us := by
  obtain ⟨_, _, hleast, h⟩ := bind_eq_ok_iff.1 h
  obtain ⟨-, rfl⟩ := atLeast_eq_ok_iff.1 hleast
  obtain ⟨members, d₁, hmembers, h⟩ := bind_eq_ok_iff.1 h
  obtain ⟨ts, hts, -⟩ := Source.recovers_classExprs cs hmembers
  exact exists_placed_of_group hts h

/-- A disjointness of classes is placed: one triple for two of them, or a group. -/
theorem exists_placed_of_disjointClasses {cs : List ClassExpr}
    (h : (Axiom.disjointClasses cs).encode d = .ok (anchor, d')) :
    ∃ us, (Axiom.disjointClasses cs).Placed d d' anchor us := by
  rcases cs with _ | ⟨a, _ | ⟨b, _ | ⟨_, _⟩⟩⟩
  · exact exists_placed_of_classGroup h
  · exact exists_placed_of_classGroup h
  · exact exists_placed_of_pair (by simp +contextual [operands]) h
  · exact exists_placed_of_classGroup h

/-- An object property below another is placed, after the two expressions. -/
theorem exists_placed_of_subObjectPropertyOf {sub super : ObjectPropertyExpr}
    (h : (Axiom.subObjectPropertyOf sub super).encode d = .ok (anchor, d')) :
    ∃ us, (Axiom.subObjectPropertyOf sub super).Placed d d' anchor us := by
  refine exists_placed_of_written (fun hsub => ?_) (fun hsuper => ?_) h
  · obtain ⟨ts, hts, hn⟩ := exists_grows_of_objectProperty hsub
    exact ⟨ts, hts, hn.imp_left fun hn => by simp [operands, hn]⟩
  · exact (exists_grows_of_objectProperty hsuper).imp fun _ h => h.1

/-- A negative assertion is placed: a node of its own with its parts. -/
theorem exists_placed_of_negation {source : Node} {target : Term}
    (h : (Axiom.negativePropertyAssertion p source target).encode d = .ok (anchor, d')) :
    ∃ us, (Axiom.negativePropertyAssertion p source target).Placed d d' anchor us := by
  obtain ⟨root, d₁, hroot, hd'⟩ := exists_root_of_negation h
  exact ⟨_, .of_root (.refl d) hroot (.refl d₁) hd' (by simp)⟩

/-- A key is placed: a list at the class expression. -/
theorem exists_placed_of_hasKey {e : ClassExpr} {ops dps : List Iri}
    (h : (Axiom.hasKey e ops dps).encode d = .ok (anchor, d')) :
    ∃ us, (Axiom.hasKey e ops dps).Placed d d' anchor us := by
  delta Axiom.encode at h
  dsimp only at h
  split at h
  case isTrue => cases h
  case isFalse =>
    refine exists_placed_of_written (fun he => ?_) (fun hlist => ?_) h
    · obtain ⟨ts, hts, hn⟩ := exists_grows_of_classExpr he
      exact ⟨ts, hts, hn.imp_left fun hn => by simp [operands, hn]⟩
    · obtain ⟨cells, hcells, -⟩ := readCells_of_encodeList hlist
      exact ⟨cells, hcells⟩

/-- An axiom that is encoded is placed. -/
theorem exists_placed_of_encode (h : ax.encode d = .ok (anchor, d')) :
    ∃ ts, ax.Placed d d' anchor ts := by
  cases ax with
  | declaration e => exact ⟨_, .of_single h (by simp [operands])⟩
  | subClassOf sub super => exact exists_placed_of_pair (by simp +contextual [operands]) h
  | equivalentClasses cs =>
    rcases cs with _ | ⟨a, _ | ⟨b, _ | ⟨_, _⟩⟩⟩
    · cases h
    · cases h
    · exact exists_placed_of_pair (by simp +contextual [operands]) h
    · cases h
  | disjointClasses cs => exact exists_placed_of_disjointClasses h
  | disjointUnion c parts =>
    exact exists_placed_of_list (fun h => (Source.recovers_classExprs parts h).imp fun _ h => h.1)
      (by simp [operands]) h
  | subObjectPropertyOf sub super => exact exists_placed_of_subObjectPropertyOf h
  | subPropertyChainOf chain super =>
    exact exists_placed_of_list (fun h => (Source.recovers_objectProperties h).imp fun _ h => h.1)
      (by simp [operands]) h
  | subDataPropertyOf sub super => exact ⟨_, .of_single h (by simp [operands])⟩
  | equivalentProperties sort ps =>
    rcases ps with _ | ⟨p, _ | ⟨q, _ | ⟨_, _⟩⟩⟩
    · cases h
    · cases h
    · exact ⟨_, .of_single h (by simp [operands])⟩
    · cases h
  | disjointProperties sort ps =>
    rcases ps with _ | ⟨p, _ | ⟨q, _ | ⟨_, _⟩⟩⟩
    · exact exists_placed_of_memberGroup h
    · exact exists_placed_of_memberGroup h
    · exact ⟨_, .of_single h (by simp [operands])⟩
    · exact exists_placed_of_memberGroup h
  | propertyDomain sort p domain => exact exists_placed_of_class (by simp [operands]) h
  | objectPropertyRange p range => exact exists_placed_of_class (by simp [operands]) h
  | dataPropertyRange p range => exact exists_placed_of_range (by simp [operands]) h
  | inverseObjectProperties p q => exact ⟨_, .of_single h (by simp [operands])⟩
  | objectCharacteristic c p => exact ⟨_, .of_single h (by simp [operands])⟩
  | functionalDataProperty p => exact ⟨_, .of_single h (by simp [operands])⟩
  | datatypeDefinition i range => exact exists_placed_of_range (by simp [operands]) h
  | classAssertion c a => exact exists_placed_of_class (by simp [operands]) h
  | propertyAssertion p source target => exact ⟨_, .of_single h (by simp [operands])⟩
  | negativePropertyAssertion p source target => exact exists_placed_of_negation h
  | sameIndividual as =>
    rcases as with _ | ⟨a, _ | ⟨b, _ | ⟨_, _⟩⟩⟩
    · cases h
    · cases h
    · exact ⟨_, .of_single h (by simp [operands])⟩
    · cases h
  | differentIndividuals as =>
    rcases as with _ | ⟨a, _ | ⟨b, _ | ⟨_, _⟩⟩⟩
    · exact exists_placed_of_memberGroup h
    · exact exists_placed_of_memberGroup h
    · exact ⟨_, .of_single h (by simp [operands])⟩
    · exact exists_placed_of_memberGroup h
  | hasKey c ops dps => exact exists_placed_of_hasKey h
  | annotationAssertion p subject value => exact ⟨_, .of_single h (by simp [operands])⟩
  | subAnnotationPropertyOf sub super => exact ⟨_, .of_single h (by simp [operands])⟩
  | annotationPropertyDomain p domain => exact ⟨_, .of_single h (by simp [operands])⟩
  | annotationPropertyRange p range => exact ⟨_, .of_single h (by simp [operands])⟩

end Axiom

namespace AnnotatedAxiom

variable {a b : AnnotatedAxiom} {s s' u u' : Supply} {f g : Footprint} {t : Triple}

/-- The main triple is about an operand or a new node, and the other triples about new nodes. -/
theorem subject_of_encode (h : a.encode s = .ok (f, s')) :
    (f.main.subject ∈ a.base.operands ∨ s.Makes s' f.main.subject) ∧
      ∀ t ∈ f.triples, t ≠ f.main → s.Makes s' t.subject := by
  unfold encode at h
  split at h
  case h_2 => cases h
  case h_1 main d hdraft =>
    cases h
    obtain ⟨anchor, d₁, notes, hbase, rfl, hnoted⟩ := exists_noted_of_draft hdraft
    obtain ⟨ts, hplaced⟩ := Axiom.exists_placed_of_encode hbase
    refine ⟨hplaced.subject.imp_right fun hmade => hmade.mono .refl hnoted.precedes, ?_⟩
    intro t ht hne
    rw [Footprint.mem_triples_of, hnoted.triples, List.mem_append] at ht
    rcases ht with rfl | ht | ht
    · exact absurd rfl hne
    · rcases hplaced.mem t ht with hnone | rfl | ht
      · cases hnone
      · exact absurd rfl hne
      · exact (hplaced.subjects t ht).mono .refl hnoted.precedes
    · rcases hnoted.subject_eq ht with ⟨hrooted, r, -, rfl⟩ | ⟨hsubject, htail⟩
      · exact (hplaced.rooted hrooted).mono .refl hnoted.precedes
      · rw [hsubject, htail]
        exact Supply.makes_head_tail.mono hplaced.toPrecedes .refl

/-- A triple of two encodings with different new nodes is the main triple of the first one, if none
of its new nodes is an operand of the other axiom. -/
theorem eq_main_of_mem_triples (hf : a.encode s = .ok (f, s')) (hg : b.encode u = .ok (g, u'))
    (hdisjoint : ∀ n, s.Makes s' n → ¬ u.Makes u' n)
    (hoperands : ∀ n ∈ b.base.operands, ¬ s.Makes s' n) (htf : t ∈ f.triples)
    (htg : t ∈ g.triples) : t = f.main := by
  by_contra hne
  have hmade := (subject_of_encode hf).2 t htf hne
  by_cases hmain : t = g.main
  · subst hmain
    rcases (subject_of_encode hg).1 with hoperand | hmade'
    · exact hoperands _ hoperand hmade
    · exact hdisjoint _ hmade hmade'
  · exact hdisjoint _ hmade ((subject_of_encode hg).2 t htg hmain)

/-- An axiom is written exactly if it is well formed.  Its encoding starts with the main triple,
holds nothing twice, and is about new nodes but for the main triple; so it shares at most its main
triple with another encoding, if the new nodes of both are different and none of them is an operand
of the other axiom. -/
theorem wellFormed_and_isolated (a : AnnotatedAxiom) (s : Supply) :
    ((∃ f s', a.encode s = .ok (f, s')) ↔ a.base.WellFormed) ∧
    ∀ (f : Footprint) (s' : Supply), a.encode s = .ok (f, s') →
      f.triples.head? = some f.main ∧ f.triples.Nodup ∧
      (∀ t ∈ f.triples, t ≠ f.main → s.Makes s' t.subject) ∧
      ∀ (b : AnnotatedAxiom) (u : Supply) (g : Footprint) (u' : Supply),
        b.encode u = .ok (g, u') → (∀ n, s.Makes s' n → ¬ u.Makes u' n) →
        (∀ n ∈ a.base.operands, ¬ u.Makes u' n) → (∀ n ∈ b.base.operands, ¬ s.Makes s' n) →
        ∀ t ∈ f.triples, t ∈ g.triples → t = f.main ∧ t = g.main := by
  refine ⟨exists_encode_iff a s, fun f s' hf => ⟨rfl, ?_, (subject_of_encode hf).2, ?_⟩⟩
  · unfold encode at hf
    split at hf
    case h_1 => cases hf; exact Footprint.nodup_triples_of
    case h_2 => cases hf
  · intro b u g u' hg hdisjoint ha hb t htf htg
    refine ⟨eq_main_of_mem_triples hf hg hdisjoint hb htf htg, ?_⟩
    exact eq_main_of_mem_triples hg hf (fun n hu hs => hdisjoint n hs hu) ha htg htf

/-- A subclass axiom with one remark and with another: the encodings share the main triple, which
both remarks are about, and nothing else. -/
theorem wellFormed_and_isolated_subClassOf :
    let c : Iri := .ofValue "http://example.org/c"
    let noted (x : String) : AnnotatedAxiom :=
      .of (.subClassOf (.named c) (.named c)) [⟨.rdfs .comment, .literal (.plain x)⟩]
    ∃ f g : Footprint, (noted "x").encode ⟨"n", 0⟩ = .ok (f, ⟨"n", 1⟩) ∧
      (noted "y").encode ⟨"n", 1⟩ = .ok (g, ⟨"n", 2⟩) ∧
      ∀ t, t ∈ f.triples ∧ t ∈ g.triples ↔ t = ⟨.iri c, .rdfs .subClassOf, .node (.iri c)⟩ := by
  intro c noted
  let main : Triple := ⟨.iri c, .rdfs .subClassOf, .node (.iri c)⟩
  let n : Nat → Node := Supply.nth ⟨"n", 0⟩
  let written (k : Nat) (x : String) : Footprint :=
    ⟨main, main.reifiedAs (n k) ++ [⟨n k, .rdfs .comment, .literal (.plain x)⟩]⟩
  have hf : (noted "x").encode ⟨"n", 0⟩ = .ok (written 0 "x", ⟨"n", 1⟩) := by decide +kernel
  have hg : (noted "y").encode ⟨"n", 1⟩ = .ok (written 1 "y", ⟨"n", 2⟩) := by decide +kernel
  have hnamed (s s' : Supply) : ∀ m ∈ (noted "y").base.operands, ¬ s.Makes s' m := by
    intro m hm
    obtain rfl : m = .iri c := by
      simpa [noted, AnnotatedAxiom.of, Axiom.operands, Axiom.operands.named,
        ClassExpr.class?] using hm
    exact Supply.not_makes_iri
  refine ⟨_, _, hf, hg, fun t => ⟨?_, ?_⟩⟩
  · rintro ⟨htf, htg⟩
    refine (((wellFormed_and_isolated (noted "x") ⟨"n", 0⟩).2 _ _ hf).2.2.2 (noted "y") _ _ _ hg
      (fun m hm => ?_) (hnamed _ _) (hnamed _ _) t htf htg).1
    exact hm.not_later ⟨rfl, by decide⟩ .refl
  · rintro rfl
    exact ⟨List.mem_cons_self, List.mem_cons_self⟩

end AnnotatedAxiom

end Ontograph
