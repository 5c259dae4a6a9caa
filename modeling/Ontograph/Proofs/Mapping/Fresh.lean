import Ontograph.Mapping.Encode
import Ontograph.Proofs.Graph.Cells

/-!
# What is said about new nodes

Writing an expression takes new nodes from a supply and writes triples about these nodes only
(`Supply.Covers`).  If a set of triples says about the new nodes what was written and nothing else
(`TripleSet.Holds`), then the same is true of every part of what was written, because parts that
are written one after another take different nodes.  The main triple of an axiom may be about the
node of an anonymous expression, and remarks about the node of an axiom, so one node may be
excepted: it may have further triples with predicates that attach to a node from outside.
-/

namespace Ontograph

/-! ## Names -/

namespace Supply

variable {s s₁ s₂ s' : Supply} {ts us : List Triple} {n : Node} {j k : Nat}

/-- The blank node of a given number. -/
def nth (s : Supply) (k : Nat) : Node := .blank ⟨s.stem ++ String.ofList (Nat.toDigits 10 k)⟩

/-- Nodes of different numbers are different. -/
theorem nth_inj : s.nth j = s.nth k ↔ j = k := by
  refine ⟨fun h => ?_, fun h => h ▸ rfl⟩
  have hlist : Nat.toDigits 10 j = Nat.toDigits 10 k := by
    have htext := congrArg String.toList (congrArg Blank.label (Node.blank.inj h))
    simpa using htext
  rw [← Nat.ofDigitChars_ten_toDigits (n := j), hlist, Nat.ofDigitChars_ten_toDigits]

/-- The node that is taken next. -/
def head (s : Supply) : Node := .blank s.take.1

/-- The supply without its next node. -/
abbrev tail (s : Supply) : Supply := s.take.2

/-- The node is one of those taken from a supply until another one is left. -/
def Makes (s s' : Supply) (n : Node) : Prop := ∃ k, s.next ≤ k ∧ k < s'.next ∧ n = s.nth k

/-- A new node is blank. -/
theorem Makes.isBlank (h : s.Makes s' n) : n.isBlank = true := by
  obtain ⟨k, -, -, rfl⟩ := h
  rfl

/-- What is left of a supply has the same stem and later numbers. -/
structure Precedes (s s' : Supply) : Prop where
  stem : s'.stem = s.stem
  next : s.next ≤ s'.next

/-- A supply from which nothing was taken is what is left of itself. -/
theorem Precedes.refl : s.Precedes s := ⟨rfl, Nat.le_refl _⟩

/-- What is left of what is left of a supply is left of it. -/
theorem Precedes.trans (h : s.Precedes s₁) (h' : s₁.Precedes s') : s.Precedes s' :=
  ⟨h'.stem.trans h.stem, Nat.le_trans h.next h'.next⟩

/-- Without its next node a supply has the later ones left. -/
theorem precedes_tail : s.Precedes s.tail := ⟨rfl, Nat.le_succ _⟩

/-- Nodes of the same stem with the same number are the same. -/
theorem Precedes.nth_eq (h : s.Precedes s') : s'.nth k = s.nth k := by
  rw [nth, nth, h.stem]

/-- The nodes taken in between are taken from the whole. -/
theorem Makes.mono (h : s₁.Makes s₂ n) (h₁ : s.Precedes s₁) (h₂ : s₂.Precedes s') :
    s.Makes s' n := by
  obtain ⟨k, hk, hk', rfl⟩ := h
  exact ⟨k, Nat.le_trans h₁.next hk, Nat.lt_of_lt_of_le hk' h₂.next, h₁.nth_eq⟩

/-- A node taken earlier is not taken again. -/
theorem Makes.not_later (h : s.Makes s₁ n) (h₁ : s.Precedes s₁) (h₂ : s₁.Precedes s₂) :
    ¬ s₂.Makes s' n := by
  rintro ⟨k, hk, -, he⟩
  obtain ⟨j, -, hj, rfl⟩ := h
  have hjk : j = k := by
    rw [(h₁.trans h₂).nth_eq] at he
    exact nth_inj.1 he
  have hle := h₂.next
  omega

/-- The next node is taken when it is taken. -/
theorem makes_head (h : s.tail.Precedes s') : s.Makes s' s.head :=
  ⟨s.next, Nat.le_refl _, h.next, rfl⟩

/-- Taking the next node makes it. -/
theorem makes_head_tail : s.Makes s.tail s.head := makes_head Precedes.refl

/-- No IRI is taken from a supply. -/
theorem not_makes_iri {i : Iri} : ¬ s.Makes s' (.iri i) := fun h => nomatch h.isBlank

/-- A node taken earlier is not the next one. -/
theorem Makes.ne_head (h : s.Makes s₁ n) (h₁ : s.Precedes s₁) : n ≠ s₁.head := by
  rintro rfl
  exact h.not_later h₁ .refl makes_head_tail

/-- A named node, and one that was taken earlier, is not taken later. -/
theorem not_makes_later (hn : n.isBlank = true → s.Makes s₁ n) (h : s.Precedes s₁) :
    ¬ s₁.Makes s' n := fun hmade => (hn hmade.isBlank).not_later h .refl hmade

/-- Taking nothing makes no node. -/
theorem not_makes_refl : ¬ s.Makes s n := by
  rintro ⟨k, hk, hk', -⟩
  omega

/-- A node that is taken is none of those taken before, nor one that was there. -/
theorem head_notMem {within : List Node} (h : s.Precedes s₁) (h' : s₁.tail.Precedes s')
    (hwithin : ∀ n ∈ within, ¬ s.Makes s' n) :
    s₁.head ∉ within ∧ ∀ n ∈ s₁.head :: within, ¬ s.Makes s₁ n := by
  refine ⟨fun hmem => hwithin _ hmem ((makes_head h').mono h .refl), fun n hn hmade => ?_⟩
  rcases List.mem_cons.1 hn with rfl | hn
  · exact hmade.not_later h .refl makes_head_tail
  · exact hwithin n hn (hmade.mono .refl (precedes_tail.trans h'))

/-! ## Triples about new nodes -/

/-- The triples are about nodes taken from a supply until another one is left. -/
structure Covers (s s' : Supply) (ts : List Triple) : Prop extends Precedes s s' where
  subjects : ∀ t ∈ ts, s.Makes s' t.subject

/-- No triples are about no new nodes. -/
theorem covers_nil (h : s.Precedes s') : s.Covers s' [] := ⟨h, fun _ ht => absurd ht (by simp)⟩

/-- Two parts written one after the other. -/
theorem Covers.append (h : s.Covers s₁ ts) (h' : s₁.Covers s' us) : s.Covers s' (ts ++ us) := by
  refine ⟨h.toPrecedes.trans h'.toPrecedes, fun t ht => ?_⟩
  rcases List.mem_append.1 ht with ht | ht
  · exact (h.subjects t ht).mono .refl h'.toPrecedes
  · exact (h'.subjects t ht).mono h.toPrecedes .refl

/-- Some parts, then a node with triples of its own, then the parts inside of it. -/
theorem Covers.build {early own inner : List Triple} (hearly : s.Covers s₁ early)
    (hown : ∀ t ∈ own, t.subject = s₁.head) (hinner : s₁.tail.Covers s' inner) :
    s.Covers s' (early ++ own ++ inner) := by
  have hown' : s₁.Covers s₁.tail own := by
    refine ⟨precedes_tail, fun t ht => ?_⟩
    rw [hown t ht]
    exact makes_head_tail
  exact (hearly.append hown').append hinner

end Supply

/-! ## Sets that say what was written -/

/-- The predicates of the main triples whose subject may be an anonymous expression. -/
def expressionRelations : List Iri :=
  [.rdfs .subClassOf, .owl .equivalentClass, .owl .disjointWith, .owl .hasKey,
    .rdfs .subPropertyOf]

/-- Does the predicate say something of a node that is no part of its description: does it relate
an expression to others, or can it make a remark? -/
def Iri.attaches (p : Iri) : Bool := expressionRelations.contains p || p.canAnnotate

namespace TripleSet

variable {S : TripleSet} {s s₁ s₂ s' : Supply} {root? : Option Node}
  {ts us early own inner : List Triple} {n : Node} {p : Iri} {o : Term}

/-- The set holds the triples, and no others about the nodes taken in between; one of these nodes
may be related to other expressions. -/
structure Holds (S : TripleSet) (s s' : Supply) (root? : Option Node) (ts : List Triple) :
    Prop where
  mem : ∀ t ∈ ts, t ∈ S
  only : ∀ t ∈ S, s.Makes s' t.subject →
    t ∈ ts ∨ t.subject ∈ root? ∧ t.predicate.attaches = true

/-- The set says of the node what the triples say, apart from its relations to others. -/
structure Tells (S : TripleSet) (n : Node) (own : List Triple) : Prop where
  mem : ∀ t ∈ own, t ∈ S
  only : ∀ t ∈ S, t.subject = n → t.predicate.attaches = false → t ∈ own

/-- If no node is excepted, any node may be. -/
theorem Holds.except (h : S.Holds s s' none ts) : S.Holds s s' root? ts :=
  ⟨h.mem, fun t ht hmade => Or.inl ((h.only t ht hmade).resolve_right (by simp))⟩

/-- A node that was there before is no exception. -/
theorem Holds.of_not_makes (h : S.Holds s s' (some n) ts) (hn : ¬ s.Makes s' n) :
    S.Holds s s' none ts := by
  refine ⟨h.mem, fun t ht hmade => Or.inl ((h.only t ht hmade).resolve_right ?_)⟩
  rintro ⟨hroot, -⟩
  rw [Option.mem_some_iff] at hroot
  rw [← hroot] at hmade
  exact hn hmade

/-- Only the set of the triples matters. -/
theorem Holds.congr (h : S.Holds s s' root? ts) (hts : ∀ t, t ∈ ts ↔ t ∈ us) :
    S.Holds s s' root? us := by
  refine ⟨fun t ht => h.mem t ((hts t).2 ht), fun t ht hmade => ?_⟩
  exact (h.only t ht hmade).imp_left (hts t).1

/-- What holds of the whole holds of the triples about the nodes of a part. -/
theorem Holds.part {root?' : Option Node} (h : S.Holds s s' root? ts) (h₁ : s.Precedes s₁)
    (h₂ : s₂.Precedes s') (hts : ∀ t ∈ us, t ∈ ts)
    (hother : ∀ t ∈ ts, s₁.Makes s₂ t.subject → t ∈ us)
    (hroot : ∀ r ∈ root?, s₁.Makes s₂ r → r ∈ root?') : S.Holds s₁ s₂ root?' us := by
  refine ⟨fun t ht => h.mem t (hts t ht), fun t ht hmade => ?_⟩
  rcases h.only t ht (hmade.mono h₁ h₂) with hmem | ⟨hr, hp⟩
  · exact Or.inl (hother t hmem hmade)
  · exact Or.inr ⟨hroot _ hr hmade, hp⟩

/-- The first of two parts. -/
theorem Holds.left (h : S.Holds s s' root? (ts ++ us)) (hts : s.Covers s₁ ts)
    (hus : s₁.Covers s' us) : S.Holds s s₁ root? ts := by
  refine h.part .refl hus.toPrecedes (fun t ht => List.mem_append_left _ ht) ?_
    (fun _ hr _ => hr)
  intro t ht hmade
  rcases List.mem_append.1 ht with ht | ht
  · exact ht
  · exact absurd (hus.subjects t ht) (hmade.not_later hts.toPrecedes .refl)

/-- The second of two parts, if the excepted node is in the first one. -/
theorem Holds.right (h : S.Holds s s' root? (ts ++ us)) (hts : s.Covers s₁ ts)
    (hroot : ∀ r ∈ root?, ¬ s₁.Makes s' r) :
    S.Holds s₁ s' none us := by
  refine h.part hts.toPrecedes .refl (fun t ht => List.mem_append_right _ ht) ?_
    (fun r hr hmade => absurd hmade (hroot r hr))
  intro t ht hmade
  rcases List.mem_append.1 ht with ht | ht
  · exact absurd hmade ((hts.subjects t ht).not_later hts.toPrecedes .refl)
  · exact ht

/-- The parts written before a node is taken. -/
theorem Holds.before (h : S.Holds s s' (some s₁.head) (early ++ own ++ inner))
    (hearly : s.Covers s₁ early) (hown : ∀ t ∈ own, t.subject = s₁.head)
    (hinner : s₁.tail.Covers s' inner) : S.Holds s s₁ none early := by
  refine h.part .refl (Supply.precedes_tail.trans hinner.toPrecedes) ?_ ?_ ?_
  · intro t ht
    simp [ht]
  · intro t ht hmade
    simp only [List.mem_append] at ht
    rcases ht with (ht | ht) | ht
    · exact ht
    · exact absurd (hown t ht) (hmade.ne_head hearly.toPrecedes)
    · exact absurd (hinner.subjects t ht)
        (hmade.not_later hearly.toPrecedes Supply.precedes_tail)
  · rintro r ⟨⟩ hmade
    exact absurd rfl (hmade.ne_head hearly.toPrecedes)

/-- The parts written inside of a node. -/
theorem Holds.inside (h : S.Holds s s' (some s₁.head) (early ++ own ++ inner))
    (hearly : s.Covers s₁ early) (hown : ∀ t ∈ own, t.subject = s₁.head) :
    S.Holds s₁.tail s' none inner := by
  have hhead : ¬ s₁.tail.Makes s' s₁.head :=
    Supply.makes_head_tail.not_later Supply.precedes_tail .refl
  refine h.part (hearly.toPrecedes.trans Supply.precedes_tail) .refl ?_ ?_ ?_
  · intro t ht
    simp [ht]
  · intro t ht hmade
    simp only [List.mem_append] at ht
    rcases ht with (ht | ht) | ht
    · exact absurd hmade ((hearly.subjects t ht).not_later hearly.toPrecedes
        Supply.precedes_tail)
    · rw [hown t ht] at hmade
      exact absurd hmade hhead
    · exact ht
  · rintro r ⟨⟩ hmade
    exact absurd hmade hhead

/-- The triples of a node that was taken. -/
theorem Holds.at_head {t : Triple} (h : S.Holds s s' root? (early ++ own ++ inner))
    (hearly : s.Covers s₁ early) (hinner : s₁.tail.Covers s' inner) (ht : t ∈ S)
    (hn : t.subject = s₁.head) :
    t ∈ own ∨ t.subject ∈ root? ∧ t.predicate.attaches = true := by
  have hmade : s.Makes s' t.subject := by
    rw [hn]
    exact (Supply.makes_head hinner.toPrecedes).mono hearly.toPrecedes .refl
  rcases h.only t ht hmade with hmem | hroot
  · simp only [List.mem_append] at hmem
    rcases hmem with (hmem | hmem) | hmem
    · exact absurd hn ((hearly.subjects t hmem).ne_head hearly.toPrecedes)
    · exact Or.inl hmem
    · have hbad := hinner.subjects t hmem
      rw [hn] at hbad
      exact absurd hbad (Supply.makes_head_tail.not_later Supply.precedes_tail .refl)
  · exact Or.inr hroot

/-- What is said of a node that was taken. -/
theorem Holds.tells (h : S.Holds s s' root? (early ++ own ++ inner))
    (hearly : s.Covers s₁ early) (hinner : s₁.tail.Covers s' inner) :
    S.Tells s₁.head own := by
  refine ⟨fun t ht => h.mem t (by simp [ht]), fun t ht hn hp => ?_⟩
  exact (h.at_head hearly hinner ht hn).resolve_right fun hroot => by simp [hroot.2] at hp

/-- A node without parts inside of it, after the parts written before it. -/
theorem Holds.node (h : S.Holds s s₁.tail (some s₁.head) (early ++ own))
    (hearly : s.Covers s₁ early) (hown : ∀ t ∈ own, t.subject = s₁.head) :
    S.Holds s s₁ none early ∧ S.Tells s₁.head own := by
  have hinner : s₁.tail.Covers s₁.tail [] := Supply.covers_nil .refl
  rw [← List.append_nil (early ++ own)] at h
  exact ⟨h.before hearly hown hinner, h.tells hearly hinner⟩

/-! ## Looking up what is said of a node -/

/-- A node has what it was given for a predicate. -/
theorem Tells.object?_eq (h : S.Tells n own) (hp : p.attaches = false) (ho : ⟨n, p, o⟩ ∈ own)
    (huniq : ∀ o', ⟨n, p, o'⟩ ∈ own → o' = o) : S.object? n p = some o :=
  object?_eq_some (h.mem _ ho) fun o' ho' => huniq o' (h.only _ ho' rfl hp)

/-- A node has the predicates it was given. -/
theorem Tells.hasProperty (h : S.Tells n own) (ho : ⟨n, p, o⟩ ∈ own) : S.hasProperty n p = true :=
  hasProperty_iff.2 ⟨o, h.mem _ ho⟩

/-- A node has no predicate that it was not given. -/
theorem Tells.not_hasProperty (h : S.Tells n own) (hp : p.attaches = false)
    (hno : ∀ t ∈ own, t.predicate ≠ p) : ¬ S.hasProperty n p = true := by
  intro hyes
  obtain ⟨o, ho⟩ := hasProperty_iff.1 hyes
  exact hno _ (h.only _ ho rfl hp) rfl

end TripleSet

end Ontograph
