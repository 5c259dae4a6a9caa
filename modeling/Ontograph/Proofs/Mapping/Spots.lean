import Ontograph.Proofs.Mapping.Pruning
import Ontograph.Proofs.Owl.Nesting

/-!
# Where expressions are read

The reader of class expressions and that of data ranges call each other at terms that they find at
a blank node.  Which terms these are depends on the triples only and not on what is read there
(`Source.inside`): it is the same for all readers of the terms inside, and the node can be read if
the terms inside can (`Source.takes_classExprAt`, `Source.takes_dataRangeAt`).
-/

namespace Ontograph

open Reading

/-! ## Spots -/

/-- A term at which a class expression or a data range is read. -/
inductive Spot
  | cls (x : Term)
  | rng (x : Term)
  deriving DecidableEq

namespace Spot

/-- The term. -/
def term : Spot → Term
  | .cls x | .rng x => x

/-- The blank node that is entered, if the term is one. -/
def blank? (s : Spot) : Option Node :=
  match s.term with
  | .node (.blank b) => some (.blank b)
  | _ => none

/-- The blank nodes that the spots inside are read in. -/
def enter (s : Spot) (within : List Node) : List Node := s.blank?.toList ++ within

end Spot

namespace Source

variable (R : Source)

/-- The items of a list, if it can be read. -/
def items? (x : Term) : Option (List Term) :=
  (R.triples.readList R.settings.listLimit x).toOption

/-- The items of the list that a node has for a predicate; none if there is no such list. -/
def operandsAt (n : Node) (p : Iri) : List Term :=
  ((R.triples.object? n p).bind R.items?).getD []

/-- The term that a node has for a predicate, if there is one. -/
def fillerAt (n : Node) (p : Iri) : List Term := (R.triples.object? n p).toList

/-- The terms a combination or a complement is made of. -/
def partsAt (n : Node) (complement : Iri) : List Term :=
  if R.triples.hasProperty n (.owl .intersectionOf) then R.operandsAt n (.owl .intersectionOf)
  else if R.triples.hasProperty n (.owl .unionOf) then R.operandsAt n (.owl .unionOf)
  else if R.triples.hasProperty n complement then R.fillerAt n complement
  else []

/-- The filler of the first of some bounds that a node has, if this is a qualified one. -/
def boundFiller (n : Node) (onFiller : Iri) : List Bound → List Term
  | [] => []
  | b :: bs =>
    if R.triples.hasProperty n b.plain then []
    else if R.triples.hasProperty n b.qualified then R.fillerAt n onFiller
    else boundFiller n onFiller bs

/-- The filler of a restriction, if it has one.  Some restrictions are looked for before the bounds
and have none. -/
def restrictionFiller (n : Node) (bare : List Iri) (onFiller : Iri) : List Term :=
  if R.triples.hasProperty n (.owl .someValuesFrom) then R.fillerAt n (.owl .someValuesFrom)
  else if R.triples.hasProperty n (.owl .allValuesFrom) then R.fillerAt n (.owl .allValuesFrom)
  else if bare.any fun p => R.triples.hasProperty n p then []
  else R.boundFiller n onFiller Bound.all

/-- The spots that the reader goes on to from a class expression at a node. -/
def insideClass (n : Node) : List Spot :=
  if R.triples.hasProperty n (.owl .onProperty) then
    match (R.triples.object? n (.owl .onProperty)).bind R.sortOf? with
    | some .objectProperty =>
      (R.restrictionFiller n [.owl .hasValue, .owl .hasSelf] (.owl .onClass)).map .cls
    | some .dataProperty =>
      (R.restrictionFiller n [.owl .hasValue] (.owl .onDataRange)).map .rng
    | _ => []
  else (R.partsAt n (.owl .complementOf)).map .cls

/-- The spots that the reader goes on to from a data range at a node. -/
def insideRange (n : Node) : List Spot := (R.partsAt n (.owl .datatypeComplementOf)).map .rng

/-- The spots that the reader goes on to from a spot. -/
def inside : Spot → List Spot
  | .cls (.node (.blank b)) => R.insideClass b
  | .rng (.node (.blank b)) => R.insideRange b
  | _ => []

end Source

/-! ## Readers -/

/-- Ways to read class expressions and data ranges. -/
structure Readers where
  cls : Term → Reading ClassExpr
  rng : Term → Reading DataRange

namespace Readers

variable {I : Readers}

/-- The expression is read at the spot. -/
inductive Reads (I : Readers) : Spot → Expr → Prop
  | cls {x : Term} {c : ClassExpr} (h : Answers (I.cls x) c) : I.Reads (.cls x) (.cls c)
  | rng {x : Term} {d : DataRange} (h : Answers (I.rng x) d) : I.Reads (.rng x) (.rng d)

/-- What is read does not depend on what was gathered before. -/
structure IgnoresGathered (I : Readers) : Prop where
  cls : ∀ x, Lifts (I.cls x) (I.cls x) fun _ => True
  rng : ∀ x, Lifts (I.rng x) (I.rng x) fun _ => True

/-- Terms are read as spots and expressions of one of the two sorts. -/
structure ReadsAs {α : Type} (read : Readers → Term → Reading α) (spot : Term → Spot)
    (expr : α → Expr) : Prop where
  iff : ∀ I x e, Reads I (spot x) e ↔ ∃ a, e = expr a ∧ Answers (read I x) a
  ignoresGathered : ∀ I : Readers, I.IgnoresGathered →
    ∀ x, Lifts (read I x) (read I x) fun _ => True

/-- Class expressions are read as spots of classes. -/
theorem readsAs_cls : ReadsAs Readers.cls Spot.cls Expr.cls where
  iff I x e := by
    constructor
    · intro h
      cases h with
      | cls h => exact ⟨_, rfl, h⟩
    · rintro ⟨c, rfl, h⟩
      exact .cls h
  ignoresGathered I h := h.cls

/-- Data ranges are read as spots of data ranges. -/
theorem readsAs_rng : ReadsAs Readers.rng Spot.rng Expr.rng where
  iff I x e := by
    constructor
    · intro h
      cases h with
      | rng h => exact ⟨_, rfl, h⟩
    · rintro ⟨c, rfl, h⟩
      exact .rng h
  ignoresGathered I h := h.rng

end Readers

/-! ## Steps that go on to spots -/

section Takes

variable {α β : Type} {m m' : Readers → Reading α} {ss : List Spot} {parts : α → List Expr}
  {a : α}

/-- The step goes on to the spots, whatever the readers are.  If it answers, it has read its parts
there; and if it answers with some readers, it does so with any others that can read these
spots. -/
structure Takes (m : Readers → Reading α) (ss : List Spot) (parts : α → List Expr) : Prop where
  reads : ∀ I a, Answers (m I) a → List.Forall₂ I.Reads ss (parts a)
  replies : ∀ I₀ I : Readers, I.IgnoresGathered → (∃ a, Answers (m I₀) a) →
    (∀ s ∈ ss, ∃ e, I.Reads s e) → ∃ a, ∀ acc, ∃ out, (m I).run acc = some (a, out)

/-- A step that fails goes on to any spots. -/
theorem takes_of_fails (h : ∀ I, Fails (m I)) : Takes m ss parts where
  reads _ _ ha := absurd ha (not_answers_of_fails (h _))
  replies _ _ _ ha := absurd ha.choose_spec (not_answers_of_fails (h _))

/-- A step that reads no expressions. -/
theorem takes_nil {k : Reading α} (hk : Lifts k k fun _ => True)
    (hparts : ∀ a, Answers k a → parts a = []) : Takes (fun _ => k) [] parts where
  reads _ a ha := by
    rw [hparts a ha]
    exact .nil
  replies _ _ _ h _ := h.imp fun a ha => hk a ha trivial

/-- A first step that reads no expressions but decides what is read after it. -/
theorem takes_after {k : Reading β} {f : β → Readers → Reading α} (hk : Lifts k k fun _ => True)
    (hf : ∀ b, Answers k b → Takes (f b) ss parts) :
    Takes (fun I => k >>= fun b => f b I) ss parts where
  reads I a ha := by
    obtain ⟨b, hb, ha⟩ := ha.bind
    exact (hf b hb).reads I a ha
  replies I₀ I hI h hss := by
    obtain ⟨a₀, ha₀⟩ := h
    obtain ⟨b, hb, ha₀⟩ := ha₀.bind
    obtain ⟨a, ha⟩ := (hf b hb).replies I₀ I hI ⟨a₀, ha₀⟩ hss
    refine ⟨a, fun acc => ?_⟩
    obtain ⟨mid, hmid⟩ := hk b hb trivial acc
    obtain ⟨out, hout⟩ := ha mid
    refine ⟨out, ?_⟩
    rw [StateT.run_bind, hmid]
    exact hout

/-- A last step that only computes. -/
theorem Takes.map {parts' : β → List Expr} {g : α → β} (h : Takes m ss parts)
    (hg : ∀ a, parts' (g a) = parts a) :
    Takes (fun I => m I >>= fun a => pure (g a)) ss parts' where
  reads I b hb := by
    obtain ⟨a, ha, rfl⟩ := hb.map
    rw [hg]
    exact h.reads I a ha
  replies I₀ I hI hb hss := by
    obtain ⟨b, hb⟩ := hb
    obtain ⟨a₀, ha₀, -⟩ := hb.map
    obtain ⟨a, ha⟩ := h.replies I₀ I hI ⟨a₀, ha₀⟩ hss
    refine ⟨g a, fun acc => ?_⟩
    obtain ⟨out, hout⟩ := ha acc
    refine ⟨out, ?_⟩
    rw [StateT.run_bind, hout]
    rfl

/-- A test goes on to the spots that both branches go on to. -/
theorem takes_ite {c : Prop} [Decidable c] (h : c → Takes m ss parts)
    (h' : ¬ c → Takes m' ss parts) : Takes (fun I => if c then m I else m' I) ss parts := by
  by_cases hc : c
  · simpa only [if_pos hc] using h hc
  · simpa only [if_neg hc] using h' hc

/-- Two steps that do not depend on each other. -/
theorem takes_both {γ : Type} {k : Readers → Reading β} {ss' : List Spot} {parts' : β → List Expr}
    {parts'' : γ → List Expr} {g : α → β → γ} (hm : Takes m ss parts) (hk : Takes k ss' parts')
    (hg : ∀ a b, parts'' (g a b) = parts a ++ parts' b) :
    Takes (fun I => m I >>= fun a => k I >>= fun b => pure (g a b)) (ss ++ ss') parts'' where
  reads I c hc := by
    obtain ⟨a, ha, hc⟩ := hc.bind
    obtain ⟨b, hb, rfl⟩ := hc.map
    rw [hg]
    exact List.rel_append (hm.reads I a ha) (hk.reads I b hb)
  replies I₀ I hI h hss := by
    obtain ⟨c₀, hc₀⟩ := h
    obtain ⟨a₀, ha₀, hc₀⟩ := hc₀.bind
    obtain ⟨b₀, hb₀, -⟩ := hc₀.map
    obtain ⟨a, ha⟩ := hm.replies I₀ I hI ⟨a₀, ha₀⟩ fun s hs => hss s (List.mem_append_left _ hs)
    obtain ⟨b, hb⟩ := hk.replies I₀ I hI ⟨b₀, hb₀⟩ fun s hs => hss s (List.mem_append_right _ hs)
    refine ⟨g a b, fun acc => ?_⟩
    obtain ⟨mid, hmid⟩ := ha acc
    obtain ⟨out, hout⟩ := hb mid
    refine ⟨out, ?_⟩
    rw [StateT.run_bind, hmid]
    show ((k I >>= fun b => pure (g a b)).run mid) = _
    rw [StateT.run_bind, hout]
    rfl

variable {read : Readers → Term → Reading α} {spot : Term → Spot} {expr : α → Expr}

/-- One term is read. -/
theorem takes_one (h : Readers.ReadsAs read spot expr) (x : Term) :
    Takes (fun I => read I x) [spot x] fun a => [expr a] where
  reads I a ha := .cons ((h.iff I x _).2 ⟨a, rfl, ha⟩) .nil
  replies I₀ I hI _ hss := by
    obtain ⟨e, he⟩ := hss _ List.mem_cons_self
    obtain ⟨a, -, ha⟩ := (h.iff I x e).1 he
    exact ⟨a, h.ignoresGathered I hI x a ha trivial⟩

/-- Terms are read one by one. -/
theorem takes_all (h : Readers.ReadsAs read spot expr) (xs : List Term) :
    Takes (fun I => xs.mapM (read I)) (xs.map spot) fun as => as.map expr := by
  induction xs with
  | nil =>
    refine takes_nil lifts_pure fun as has => ?_
    rw [has.eq_of_pure]
    rfl
  | cons x xs ih =>
    simp only [List.mapM_cons]
    exact takes_both (takes_one h x) ih fun _ _ => rfl

end Takes

/-! ## Blank nodes -/

namespace Source

variable {R : Source} {n : Node} {p c : Iri} {x : Term}

/-- A source is what is left of it if nothing is taken out. -/
theorem Prunes.refl (R : Source) : R.Prunes R where
  settings := rfl
  toList := (List.filter_eq_self.2 fun _ ht => decide_eq_true (TripleSet.mem_def.2 ht)).symm
  parts _ _ _ _ hu _ _ := hu
  facets _ _ _ _ _ _ _ := Or.inl fun _ hu _ => hu
  headers _ h := h

/-- The items of a list that is read are its items. -/
theorem items?_of_answers {items : List Term} (h : Answers (R.list x) items) :
    R.items? x = some items := by
  rw [items?, h.of_sound sound_list]
  rfl

/-- The operands of a node are the items of the list that is required and read. -/
theorem operandsAt_eq {items : List Term} (h : Answers (R.required n p) x)
    (hitems : Answers (R.list x) items) : R.operandsAt n p = items := by
  rw [operandsAt, object?_of_answers h, Option.bind_some, items?_of_answers hitems]
  rfl

/-- The filler of a node is the object that is required. -/
theorem fillerAt_eq (h : Answers (R.required n p) x) : R.fillerAt n p = [x] := by
  rw [fillerAt, object?_of_answers h]
  rfl

section ReadsAs

variable {α : Type} {read : Readers → Term → Reading α} {spot : Term → Spot} {expr : α → Expr}

/-- Reading the operands of a node goes on to them. -/
theorem takes_operandsOf (h : Readers.ReadsAs read spot expr)
    (hp : ∀ o, Triple.isPart ⟨n, p, o⟩ = true) :
    Takes (fun I => R.operandsOf (read I) n p) ((R.operandsAt n p).map spot)
      fun as => as.map expr := by
  refine takes_after ((Prunes.refl R).lifts_required hp) fun head hhead => ?_
  refine takes_after (Prunes.refl R).lifts_list fun items hitems => ?_
  rw [operandsAt_eq hhead hitems]
  exact takes_all h items

/-- Reading the filler of a node goes on to it. -/
theorem takes_filler {β : Type} {g : α → β} {parts : β → List Expr}
    (h : Readers.ReadsAs read spot expr) (hp : ∀ o, Triple.isPart ⟨n, p, o⟩ = true)
    (hg : ∀ a, parts (g a) = [expr a]) :
    Takes (fun I => R.required n p >>= fun x => read I x >>= fun a => pure (g a))
      ((R.fillerAt n p).map spot) parts := by
  refine takes_after ((Prunes.refl R).lifts_required hp) fun x hx => ?_
  rw [fillerAt_eq hx]
  exact (takes_one h x).map hg

end ReadsAs

/-- Reading a data range at a node goes on to the spots inside. -/
theorem takes_dataRangeAt :
    Takes (fun I => R.dataRangeAt I.rng n) (R.insideRange n) fun d => (Expr.rng d).inner := by
  refine takes_after Prunes.lifts_noteType fun _ _ => ?_
  unfold insideRange partsAt
  refine takes_ite (fun h => ?_) fun hinter => takes_ite (fun h => ?_) fun hunion =>
    takes_ite (fun h => ?_) fun hcomplement => ?_
  · rw [if_pos h]
    exact (takes_operandsOf Readers.readsAs_rng fun _ => rfl).map fun _ => rfl
  · rw [if_neg hinter, if_pos h]
    exact (takes_operandsOf Readers.readsAs_rng fun _ => rfl).map fun _ => rfl
  · rw [if_neg hinter, if_neg hunion, if_pos h]
    exact takes_filler Readers.readsAs_rng (fun _ => rfl) fun _ => rfl
  · rw [if_neg hinter, if_neg hunion, if_neg hcomplement]
    refine takes_ite (fun _ => takes_nil (((Prunes.refl R).lifts_operandsOf (fun _ => rfl) fun _ =>
      lifts_same (K := fun _ => True)).map fun _ _ _ _ => trivial) fun d hd => ?_)
      fun _ => takes_nil (((Prunes.refl R).lifts_required fun _ => rfl).then fun _ _ =>
        lifts_same.then fun _ _ => (Prunes.refl R).lifts_facets.map fun _ _ => trivial)
        fun d hd => ?_
    · obtain ⟨_, -, rfl⟩ := hd.map
      rfl
    · obtain ⟨_, -, hd⟩ := hd.bind
      obtain ⟨_, -, hd⟩ := hd.bind
      obtain ⟨_, -, rfl⟩ := hd.map
      rfl

/-! ### Restrictions -/

/-- The filler that is found with a bound. -/
theorem boundFiller_eq {onFiller : Iri} {bs : List Bound} {b : Bound} {k : UInt32}
    {filler : Option Term} (h : Answers (bounded.go R n onFiller bs) (b, k, filler)) :
    R.boundFiller n onFiller bs = filler.toList := by
  induction bs with
  | nil => exact absurd h not_answers_failure
  | cons b' bs ih =>
    unfold bounded.go at h
    unfold boundFiller
    rcases h.ite with ⟨hplain, h⟩ | ⟨hplain, h⟩
    · rw [if_pos hplain]
      obtain ⟨_, -, h⟩ := h.bind
      obtain ⟨_, -, heq⟩ := h.map
      cases heq
      rfl
    · rw [if_neg hplain]
      rcases h.ite with ⟨hqualified, h⟩ | ⟨hqualified, h⟩
      · rw [if_pos hqualified]
        obtain ⟨_, -, h⟩ := h.bind
        obtain ⟨x, hx, h⟩ := h.bind
        obtain ⟨_, -, heq⟩ := h.map
        cases heq
        rw [fillerAt_eq hx]
        rfl
      · rw [if_neg hqualified]
        exact ih h

/-- A bound and what is read of its filler. -/
theorem takes_bounded {α : Type} {read : Readers → Term → Reading α} {spot : Term → Spot}
    {expr : α → Expr} (h : Readers.ReadsAs read spot expr) (hn : R.HasPart n)
    (hp : ∀ o, Triple.isPart ⟨n, p, o⟩ = true) {plain : Bound → UInt32 → ClassExpr}
    {qualified : Bound → UInt32 → α → ClassExpr} (hplain : ∀ b k, (Expr.cls (plain b k)).inner = [])
    (hqualified : ∀ b k a, (Expr.cls (qualified b k a)).inner = [expr a]) :
    Takes (fun I => do
        match ← R.bounded n p with
        | (b, k, none) => return plain b k
        | (b, k, some filler) => return qualified b k (← read I filler))
      ((R.boundFiller n p Bound.all).map spot) fun c => (Expr.cls c).inner := by
  refine takes_after ((Prunes.refl R).lifts_bounded hn hp) fun r hr => ?_
  obtain ⟨b, k, _ | filler⟩ := r
  · rw [boundFiller_eq hr]
    refine takes_nil lifts_pure fun c hc => ?_
    rw [hc.eq_of_pure]
    exact hplain b k
  · rw [boundFiller_eq hr]
    exact (takes_one h filler).map (hqualified b k)

/-- Reading a restriction on an object property goes on to its filler, a class. -/
theorem takes_objectRestriction {e : ObjectPropertyExpr} (hn : R.HasPart n) :
    Takes (fun I => R.objectRestriction I.cls n e)
      ((R.restrictionFiller n [.owl .hasValue, .owl .hasSelf] (.owl .onClass)).map .cls)
      fun c => (Expr.cls c).inner := by
  unfold restrictionFiller objectRestriction
  refine takes_ite (fun h => ?_) fun hsome => takes_ite (fun h => ?_) fun hall =>
    takes_ite (fun h => ?_) fun hvalue => takes_ite (fun h => ?_) fun hself => ?_
  · rw [if_pos h]
    exact takes_filler Readers.readsAs_cls (fun _ => rfl) fun _ => rfl
  · rw [if_neg hsome, if_pos h]
    exact takes_filler Readers.readsAs_cls (fun _ => rfl) fun _ => rfl
  · rw [if_neg hsome, if_neg hall, if_pos (by simp [h])]
    refine takes_nil (((Prunes.refl R).lifts_required fun _ => rfl).then fun _ _ =>
      lifts_same.map fun _ h => h) fun c hc => ?_
    obtain ⟨_, -, hc⟩ := hc.bind
    obtain ⟨_, -, rfl⟩ := hc.map
    rfl
  · rw [if_neg hsome, if_neg hall, if_pos (by simp [h])]
    refine takes_nil (((Prunes.refl R).lifts_required fun _ => rfl).map fun _ h => h) fun c hc => ?_
    obtain ⟨_, -, rfl⟩ := hc.map
    rfl
  · rw [if_neg hsome, if_neg hall, if_neg (by simp [hvalue, hself])]
    exact takes_bounded Readers.readsAs_cls hn (fun _ => rfl) (fun _ _ => rfl) fun _ _ _ => rfl

/-- Reading a restriction on a data property goes on to its filler, a data range. -/
theorem takes_dataRestriction {q : Iri} (hn : R.HasPart n) :
    Takes (fun I => R.dataRestriction I.rng n q)
      ((R.restrictionFiller n [.owl .hasValue] (.owl .onDataRange)).map .rng)
      fun c => (Expr.cls c).inner := by
  unfold restrictionFiller dataRestriction
  refine takes_ite (fun h => ?_) fun hsome => takes_ite (fun h => ?_) fun hall =>
    takes_ite (fun h => ?_) fun hvalue => ?_
  · rw [if_pos h]
    exact takes_filler Readers.readsAs_rng (fun _ => rfl) fun _ => rfl
  · rw [if_neg hsome, if_pos h]
    exact takes_filler Readers.readsAs_rng (fun _ => rfl) fun _ => rfl
  · rw [if_neg hsome, if_neg hall, if_pos (by simp [h])]
    refine takes_nil (((Prunes.refl R).lifts_required fun _ => rfl).then fun _ _ =>
      lifts_same.map fun _ h => h) fun c hc => ?_
    obtain ⟨_, -, hc⟩ := hc.bind
    obtain ⟨_, -, rfl⟩ := hc.map
    rfl
  · rw [if_neg hsome, if_neg hall, if_neg (by simp [hvalue])]
    exact takes_bounded Readers.readsAs_rng hn (fun _ => rfl) (fun _ _ => rfl) fun _ _ _ => rfl

/-- Reading a class expression at a node goes on to the spots inside. -/
theorem takes_classExprAt :
    Takes (fun I => R.classExprAt I.cls I.rng n) (R.insideClass n)
      fun c => (Expr.cls c).inner := by
  unfold insideClass classExprAt
  refine takes_ite (fun hrestriction => ?_) fun hcombination => ?_
  · rw [if_pos hrestriction]
    refine takes_after Prunes.lifts_noteType fun _ _ => ?_
    refine takes_after ((Prunes.refl R).lifts_required fun _ => rfl) fun q hq => ?_
    have hobject := object?_of_answers hq
    have hn : R.HasPart n := hasPart_of_object? (fun _ => rfl) hobject
    rw [hobject, Option.bind_some]
    generalize R.sortOf? q = sort
    split
    case h_1 =>
      refine takes_after (Prunes.refl R).lifts_objectProperty fun e _ => ?_
      exact takes_objectRestriction hn
    case h_2 => exact takes_after lifts_same fun q _ => takes_dataRestriction hn
    case h_3 => exact takes_of_fails fun _ => fails_failure
  · rw [if_neg hcombination]
    refine takes_after Prunes.lifts_noteType fun _ _ => ?_
    unfold partsAt
    refine takes_ite (fun h => ?_) fun hinter => takes_ite (fun h => ?_) fun hunion =>
      takes_ite (fun h => ?_) fun hcomplement => ?_
    · rw [if_pos h]
      exact (takes_operandsOf Readers.readsAs_cls fun _ => rfl).map fun _ => rfl
    · rw [if_neg hinter, if_pos h]
      exact (takes_operandsOf Readers.readsAs_cls fun _ => rfl).map fun _ => rfl
    · rw [if_neg hinter, if_neg hunion, if_pos h]
      exact takes_filler Readers.readsAs_cls (fun _ => rfl) fun _ => rfl
    · rw [if_neg hinter, if_neg hunion, if_neg hcomplement]
      refine takes_nil (((Prunes.refl R).lifts_operandsOf (fun _ => rfl) fun _ =>
        lifts_same (K := fun _ => True)).map fun _ _ _ _ => trivial) fun c hc => ?_
      obtain ⟨_, -, rfl⟩ := hc.map
      rfl

/-! ### Nodes that are gone on from -/

/-- A node that nothing is said about has no predicates. -/
theorem hasProperty_eq_false (hn : R.triples.describes n = false) :
    R.triples.hasProperty n p = false := by
  rw [Bool.eq_false_iff] at hn ⊢
  intro h
  obtain ⟨o, ho⟩ := TripleSet.hasProperty_iff.1 h
  exact hn (TripleSet.describes_iff.2 ⟨_, ho, rfl⟩)

/-- The reader goes on only from a blank node that something is said about. -/
theorem describes_of_mem_inside {s s' : Spot} (h : s' ∈ R.inside s) :
    ∃ n ∈ s.blank?, R.triples.describes n = true := by
  have hparts : ∀ {b : Blank} {q : Iri}, R.triples.describes b = false → R.partsAt b q = [] := by
    intro b q hb
    simp [partsAt, hasProperty_eq_false hb]
  obtain ((i | b) | l) | ((i | b) | l) := s
  · cases h
  · refine ⟨_, rfl, Bool.not_eq_false _ ▸ fun hb => ?_⟩
    rw [inside, insideClass, hasProperty_eq_false hb, if_neg Bool.false_ne_true, hparts hb] at h
    cases h
  · cases h
  · cases h
  · refine ⟨_, rfl, Bool.not_eq_false _ ▸ fun hb => ?_⟩
    rw [inside, insideRange, hparts hb] at h
    cases h
  · cases h

/-! ## The readers of a source -/

variable {s : Spot} {e : Expr} {within : List Node}

/-- The readers of a source, given the blank nodes that are being read. -/
def readersIn (R : Source) (within : List Node) : Readers :=
  ⟨R.classExprIn within, R.dataRangeIn within⟩

/-- The readers of a source do not depend on what was gathered before. -/
theorem ignoresGathered_readersIn : (R.readersIn within).IgnoresGathered where
  cls x c hc _ := (Prunes.refl R).lifts_classExprIn within x c hc
    (hc.of_sound (sorted_classExprIn within x))
  rng := (Prunes.refl R).lifts_dataRangeIn within

/-- Readers that take every term for an expression. -/
def lenient : Readers where
  cls _ := pure (.named (.owl .Thing))
  rng _ := pure (.named (.rdfs .Literal))

/-- The lenient readers do not depend on what was gathered before. -/
theorem ignoresGathered_lenient : lenient.IgnoresGathered :=
  ⟨fun _ => lifts_pure, fun _ => lifts_pure⟩

/-- The lenient readers read an expression at every spot. -/
theorem exists_reads_lenient (s : Spot) : ∃ e, lenient.Reads s e := by
  cases s with
  | cls x => exact ⟨_, .cls ⟨[], [], rfl⟩⟩
  | rng x => exact ⟨_, .rng ⟨[], [], rfl⟩⟩

/-- What is said at a spot makes an expression, if what is inside of it does. -/
def Complete (R : Source) : Spot → Prop
  | .cls (.node (.iri _)) | .rng (.node (.iri _)) => True
  | .cls (.literal _) | .rng (.literal _) => False
  | .cls (.node (.blank b)) => ∃ c, Answers (R.classExprAt lenient.cls lenient.rng b) c
  | .rng (.node (.blank b)) => ∃ d, Answers (R.dataRangeAt lenient.rng b) d

/-- A node that has a part is described. -/
theorem describes_of_hasPart (h : R.HasPart n) : R.triples.describes n = true := by
  obtain ⟨t, ht, hs, -⟩ := h
  exact TripleSet.describes_iff.2 ⟨t, ht, hs⟩

/-- Nothing is read at a node that nothing is said about. -/
theorem describes_of_complete (h : R.Complete s) (hn : n ∈ s.blank?) :
    R.triples.describes n = true := by
  obtain ((i | b) | l) | ((i | b) | l) := s
  all_goals cases hn
  · obtain ⟨c, hc⟩ := h
    by_contra hnone
    exact not_answers_of_fails (fails_classExprAt fun hpart =>
      hnone (describes_of_hasPart hpart)) hc
  · obtain ⟨d, hd⟩ := h
    by_contra hnone
    exact not_answers_of_fails (fails_dataRangeAt fun hpart =>
      hnone (describes_of_hasPart hpart)) hd

/-- What answers with some readers answers where all terms are expressions. -/
theorem exists_answers_lenient {α : Type} {m : Readers → Reading α} {ss : List Spot}
    {parts : α → List Expr} {I : Readers} {a : α} (h : Takes m ss parts) (ha : Answers (m I) a) :
    ∃ a', Answers (m lenient) a' := by
  obtain ⟨a', ha'⟩ :=
    h.replies I lenient ignoresGathered_lenient ⟨a, ha⟩ fun s _ => exists_reads_lenient s
  exact ⟨a', [], ha' []⟩

/-- An expression that is read is complete, its blank node was not being read, and the expressions
inside of it are read at the spots inside, in order. -/
theorem reads_inside (h : (R.readersIn within).Reads s e) :
    R.Complete s ∧ (∀ n ∈ s.blank?, n ∉ within) ∧
      List.Forall₂ (R.readersIn (s.enter within)).Reads (R.inside s) e.inner := by
  cases h with
  | @cls x c h =>
    change Answers (R.classExprIn within x) c at h
    obtain (i | b) | l := x
    · rw [classExprIn] at h
      rw [h.eq_of_pure]
      refine ⟨trivial, fun n hn => ?_, .nil⟩
      cases hn
    · rw [classExprIn] at h
      split at h
      case isTrue hnew =>
        have hread : Answers (R.classExprAt (R.readersIn (.blank b :: within)).cls
          (R.readersIn (.blank b :: within)).rng b) c := h
        refine ⟨exists_answers_lenient takes_classExprAt hread, ?_,
          takes_classExprAt.reads _ c hread⟩
        rintro n ⟨⟩
        exact hnew.2
      case isFalse => exact absurd h not_answers_failure
    · rw [classExprIn] at h
      exact absurd h not_answers_failure
  | @rng x d h =>
    change Answers (R.dataRangeIn within x) d at h
    obtain (i | b) | l := x
    · rw [dataRangeIn] at h
      rw [h.eq_of_pure]
      refine ⟨trivial, fun n hn => ?_, .nil⟩
      cases hn
    · rw [dataRangeIn] at h
      split at h
      case isTrue hnew =>
        have hread : Answers (R.dataRangeAt (R.readersIn (.blank b :: within)).rng b) d := h
        refine ⟨exists_answers_lenient takes_dataRangeAt hread, ?_,
          takes_dataRangeAt.reads _ d hread⟩
        rintro n ⟨⟩
        exact hnew.2
      case isFalse => exact absurd h not_answers_failure
    · rw [dataRangeIn] at h
      exact absurd h not_answers_failure

/-- A name is read as the named class. -/
theorem reads_named {i : Iri} :
    (R.readersIn within).Reads (.cls (.node (.iri i))) (.cls (.named i)) := by
  refine .cls ?_
  show Answers (R.classExprIn within _) _
  rw [classExprIn]
  exact ⟨[], [], rfl⟩

/-- A complete expression is read, if its blank node is not being read and the expressions inside of
it are read. -/
theorem exists_reads (hs : R.Complete s) (hnew : ∀ n ∈ s.blank?, n ∉ within)
    (hinside : ∀ s' ∈ R.inside s, ∃ e, (R.readersIn (s.enter within)).Reads s' e) :
    ∃ e, (R.readersIn within).Reads s e := by
  obtain ((i | b) | l) | ((i | b) | l) := s
  · exact ⟨_, reads_named⟩
  · have hdescribed := describes_of_complete (n := .blank b) hs rfl
    obtain ⟨c, hc⟩ := takes_classExprAt.replies lenient (R.readersIn (.blank b :: within))
      ignoresGathered_readersIn hs hinside
    refine ⟨.cls c, .cls ?_⟩
    show Answers (R.classExprIn within _) _
    rw [classExprIn, dif_pos ⟨hdescribed, hnew _ rfl⟩]
    exact ⟨[], hc []⟩
  · cases hs
  · refine ⟨.rng (.named i), .rng ?_⟩
    show Answers (R.dataRangeIn within _) _
    rw [dataRangeIn]
    exact ⟨[], [], rfl⟩
  · have hdescribed := describes_of_complete (n := .blank b) hs rfl
    obtain ⟨d, hd⟩ := takes_dataRangeAt.replies lenient (R.readersIn (.blank b :: within))
      ignoresGathered_readersIn hs hinside
    refine ⟨.rng d, .rng ?_⟩
    show Answers (R.dataRangeIn within _) _
    rw [dataRangeIn, dif_pos ⟨hdescribed, hnew _ rfl⟩]
    exact ⟨[], hd []⟩
  · cases hs

end Source

end Ontograph
