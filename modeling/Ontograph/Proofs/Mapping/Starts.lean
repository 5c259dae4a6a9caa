import Ontograph.Proofs.Mapping.Spots

/-!
# Where the reading of an axiom starts

The expressions of an axiom are read at terms of its main triple, or at the items of a list that
hangs from it.  Which spots these are, and whether the rest of what is said makes an axiom, can be
told without reading at any of them (`Source.starts`): an axiom is read exactly if the triple has
spots to start from and something can be read at each (`Source.startsFrom_statement`).
-/

namespace Ontograph

open Reading

namespace Source

/-! ## The spots of a triple -/

section Starts

variable (R : Source)

/-- The object once for each expression of the axiom that is read from the triple.  No blank node is
entered from such a triple: the axiom is about no expression, or about the object as a class. -/
def plainStarts (t : Triple) : Option (List Spot) :=
  ((R.statement t).run []).map fun r => r.1.1.exprs.map fun _ => .cls t.object

/-- Are the terms all object or data properties? -/
def isKey (xs : List Term) : Bool :=
  xs.all fun x => x.isNamed && (R.isA .objectProperty x || R.isA .dataProperty x)

/-- The spots that the reading of an axiom starts from at a triple.  There are none, not even an
empty list of them, if no axiom is read from the triple whatever is said at spots. -/
def starts (t : Triple) : Option (List Spot) :=
  let s := t.subject
  let o := t.object
  if R.triples.hasType s (.owl .Ontology) then none
  else match t.predicate with
  | .rdf .type =>
    match o with
    | .node (.blank b) => if R.isStructural s then none else some [.cls b]
    | .node (.iri (.owl .AllDisjointClasses)) => do
      let head ← R.triples.object? s (.owl .members)
      let items ← R.items? head
      return items.map .cls
    | _ => R.plainStarts t
  | .rdfs .subClassOf => some [.cls s, .cls o]
  | .owl .equivalentClass =>
    if s.isNamed && R.isA .datatype s && !R.isA .owlClass s then do
      let _ ← s.iri?
      return [.rng o]
    else some [.cls s, .cls o]
  | .owl .disjointWith => some [.cls s, .cls o]
  | .owl .disjointUnionOf => do
    let _ ← s.iri?
    let items ← R.items? o
    return items.map .cls
  | .rdfs .domain =>
    match R.sortOf? s with
    | some .objectProperty | some .dataProperty => do
      let _ ← s.iri?
      return [.cls o]
    | _ => R.plainStarts t
  | .rdfs .range =>
    match R.sortOf? s with
    | some .objectProperty => do
      let _ ← s.iri?
      return [.cls o]
    | some .dataProperty => do
      let _ ← s.iri?
      return [.rng o]
    | _ => R.plainStarts t
  | .owl .hasKey => do
    let properties ← R.items? o
    if R.isKey properties then some [.cls s] else none
  | _ => R.plainStarts t

end Starts

/-! ## Steps that start from spots -/

section StartsFrom

variable {α β : Type} {R : Source} {m m' : Reading α} {start start' : Option (List Spot)}
  {parts : α → List Expr} {ss : List Spot}

/-- If the step answers, its parts are read at the spots; and it answers, whatever was gathered
before, if there are such spots and something can be read at each. -/
structure StartsFrom (R : Source) (m : Reading α) (start : Option (List Spot))
    (parts : α → List Expr) : Prop where
  reads : ∀ a, Answers m a → ∃ ss, start = some ss ∧
    List.Forall₂ (R.readersIn []).Reads ss (parts a)
  replies : ∀ ss, start = some ss → (∀ s ∈ ss, ∃ e, (R.readersIn []).Reads s e) →
    ∃ a, ∀ acc, ∃ out, m.run acc = some (a, out)

/-- A step that never answers starts from no spots. -/
theorem startsFrom_none (h : ∀ a, ¬ Answers m a) : R.StartsFrom m none parts where
  reads a ha := absurd ha (h a)
  replies _ hss := nomatch hss

/-- A step that goes on to spots starts from them, if it answers where all terms are expressions. -/
theorem startsFrom_of_takes {m : Readers → Reading α} (h : Takes m ss parts)
    (hlenient : ∃ a, Answers (m lenient) a) :
    R.StartsFrom (m (R.readersIn [])) (some ss) parts where
  reads a ha := ⟨ss, rfl, h.reads _ a ha⟩
  replies _ hss hread := by
    cases hss
    exact h.replies lenient _ ignoresGathered_readersIn hlenient hread

/-- A step starts from the same spots if its answer is changed and the parts are not. -/
theorem StartsFrom.map {parts' : β → List Expr} {g : α → β} (h : R.StartsFrom m start parts)
    (hg : ∀ a, parts' (g a) = parts a) :
    R.StartsFrom (m >>= fun a => pure (g a)) start parts' where
  reads b hb := by
    obtain ⟨a, ha, rfl⟩ := hb.map
    rw [hg]
    exact h.reads a ha
  replies ss hss hread := by
    obtain ⟨a, ha⟩ := h.replies ss hss hread
    refine ⟨g a, fun acc => ?_⟩
    obtain ⟨out, hout⟩ := ha acc
    refine ⟨out, ?_⟩
    rw [StateT.run_bind, hout]
    rfl

/-- A first step that looks up what decides on the spots. -/
theorem startsFrom_look {k : Reading β} {found : Option β} {f : β → Reading α}
    {start : β → Option (List Spot)} (hk : Lifts k k fun _ => True)
    (hfound : ∀ b, Answers k b ↔ found = some b)
    (hf : ∀ b, found = some b → R.StartsFrom (f b) (start b) parts) :
    R.StartsFrom (k >>= f) (found >>= start) parts where
  reads a ha := by
    obtain ⟨b, hb, ha⟩ := ha.bind
    have hb := (hfound b).1 hb
    obtain ⟨ss, hss, hall⟩ := (hf b hb).reads a ha
    exact ⟨ss, by rw [hb]; exact hss, hall⟩
  replies ss hss hread := by
    obtain ⟨b, hb, hss⟩ := Option.bind_eq_some_iff.1 hss
    obtain ⟨a, ha⟩ := (hf b hb).replies ss hss hread
    refine ⟨a, fun acc => ?_⟩
    obtain ⟨mid, hmid⟩ := hk b ((hfound b).2 hb) trivial acc
    obtain ⟨out, hout⟩ := ha mid
    refine ⟨out, ?_⟩
    rw [StateT.run_bind, hmid]
    exact hout

/-- A test starts from the spots of the branch that is taken. -/
theorem startsFrom_ite {c : Prop} [Decidable c] (h : c → R.StartsFrom m start parts)
    (h' : ¬ c → R.StartsFrom m' start' parts) :
    R.StartsFrom (if c then m else m') (if c then start else start') parts := by
  by_cases hc : c
  · simpa only [if_pos hc] using h hc
  · simpa only [if_neg hc] using h' hc

end StartsFrom

/-! ## Look-ups -/

variable {R : Source} {s n : Node} {x : Term} {p : Iri}

/-- A name is read from a term that has it. -/
theorem answers_named_iff {i : Iri} : Answers (named x) i ↔ x.iri? = some i := by
  constructor
  · intro h
    rw [h.named]
    rfl
  · intro h
    refine ⟨[], [], ?_⟩
    show ((liftM x.iri? : Reading Iri).run []) = _
    rw [h]
    rfl

/-- The object that is required is the one that is looked up. -/
theorem answers_required_iff : Answers (R.required n p) x ↔ R.triples.object? n p = some x := by
  refine ⟨object?_of_answers, fun h => ⟨[], [⟨n, p, x⟩], ?_⟩⟩
  unfold required
  rw [h]
  rfl

/-- The items that are read are those of the list. -/
theorem answers_list_iff {items : List Term} :
    Answers (R.list x) items ↔ R.items? x = some items := by
  refine ⟨items?_of_answers, fun h => ?_⟩
  unfold items? at h
  refine ⟨[], R.triples.listTriples R.settings.listLimit x, ?_⟩
  unfold list
  rw [h]
  rfl

/-- A name is read from a node that has it. -/
theorem answers_named_node_iff {i : Iri} : Answers (named (.node s)) i ↔ s.iri? = some i := by
  rw [answers_named_iff]
  cases s <;> rfl

/-- Terms that names are read from are named. -/
theorem isNamed_of_answers {xs : List Term} {ps : List Iri} (h : Answers (xs.mapM named) ps) :
    ∀ y ∈ xs, y.isNamed = true := by
  intro y hy
  rw [Prunes.eq_map_of_answers h] at hy
  obtain ⟨q, -, rfl⟩ := List.mem_map.1 hy
  rfl

/-- Names are read from terms that are named, and nothing is gathered. -/
theorem exists_yields_named {xs : List Term} (h : ∀ y ∈ xs, y.isNamed = true) :
    ∃ ps, Yields (xs.mapM named) ps [] := by
  induction xs with
  | nil => exact ⟨[], yields_pure⟩
  | cons y ys ih =>
    obtain ⟨ps, hps⟩ := ih fun z hz => h z (List.mem_cons_of_mem _ hz)
    have hy := h y List.mem_cons_self
    obtain (i | b) | l := y
    · have hi : Yields (named (.node (.iri i))) i [] := yields_lift rfl
      exact ⟨i :: ps, hi.mapM_cons hps⟩
    · cases hy
    · cases hy

/-! ## Axioms -/

end Source

/-- The axiom is about no expression, or about a term as a class. -/
def Axiom.PlainAt (ax : Axiom) (o : Term) : Prop :=
  ∀ e ∈ ax.exprs, ∃ c, o = .node (.iri c) ∧ e = .cls (.named c)

/-- An axiom about no expressions is plain at every term. -/
theorem Axiom.plainAt_of_exprs_eq_nil {ax : Axiom} {o : Term} (h : ax.exprs = []) :
    ax.PlainAt o := by
  intro e he
  rw [h] at he
  cases he

namespace Source

variable {R : Source} {t : Triple} {s : Node} {o x : Term} {p : Iri} {r : Axiom × Bool}
  {start : Option (List Spot)}

/-- What is read from a triple of the source does not depend on what was gathered before. -/
theorem lifts_statement_self (ht : t ∈ R.triples) :
    Lifts (R.statement t) (R.statement t) fun _ => True := by
  intro r hr _
  refine (Prunes.refl R).lifts_statement r hr ⟨hr.of_sound (decided_statement ht), ?_⟩
  intro sort p ps _ hp
  rw [hp]
  exact Option.some_ne_none _

/-- A triple starts from its object at most, if the axioms read from it are plain there. -/
theorem startsFrom_plain (ht : t ∈ R.triples)
    (h : ∀ r, Answers (R.statement t) r → r.1.PlainAt t.object) :
    R.StartsFrom (R.statement t) (R.plainStarts t) fun r => r.1.exprs where
  reads r hr := by
    obtain ⟨out, hout⟩ := lifts_statement_self ht r hr trivial []
    refine ⟨r.1.exprs.map fun _ => .cls t.object, by rw [plainStarts, hout]; rfl, ?_⟩
    rw [List.forall₂_map_left_iff]
    refine List.forall₂_same.2 fun e he => ?_
    obtain ⟨c, hc, rfl⟩ := h r hr e he
    rw [hc]
    exact reads_named
  replies ss hss _ := by
    obtain ⟨⟨r, out⟩, hrun, -⟩ := Option.map_eq_some_iff.1 hss
    exact ⟨r, lifts_statement_self ht r ⟨[], out, hrun⟩ trivial⟩

/-! ### Classes -/

/-- Reading two class expressions starts from the two terms. -/
theorem startsFrom_twoClasses {g : ClassExpr → ClassExpr → Axiom}
    (hg : ∀ c d, (g c d).exprs = [.cls c, .cls d]) :
    R.StartsFrom (do return g (← R.classExpr s) (← R.classExpr o)) (some [.cls s, .cls o])
      Axiom.exprs :=
  startsFrom_of_takes (takes_both (takes_one Readers.readsAs_cls s)
    (takes_one Readers.readsAs_cls o) hg) ⟨_, [], [], rfl⟩

/-- Reading a class expression at each of some terms starts from the terms. -/
theorem startsFrom_members {xs : List Term} {g : List ClassExpr → Axiom}
    (hg : ∀ cs, (g cs).exprs = cs.map .cls) :
    R.StartsFrom (do return g (← xs.mapM R.classExpr)) (some (xs.map .cls)) Axiom.exprs := by
  refine startsFrom_of_takes ((takes_all Readers.readsAs_cls xs).map hg) ?_
  show ∃ a, Answers (xs.mapM (fun _ => pure (.named (.owl .Thing))) >>= fun cs => pure (g cs)) a
  rw [List.mapM_pure]
  exact ⟨_, [], [], rfl⟩

/-- Reading a name and a class expression starts from the object, if the subject is a name. -/
theorem startsFrom_namedClass {g : Iri → ClassExpr → Axiom}
    (hg : ∀ i c, (g i c).exprs = [.cls c]) :
    R.StartsFrom (do return g (← named s) (← R.classExpr o))
      (do
        let _ ← s.iri?
        return [.cls o])
      Axiom.exprs :=
  startsFrom_look lifts_same (fun _ => answers_named_node_iff) fun i _ =>
    startsFrom_of_takes ((takes_one Readers.readsAs_cls o).map (hg i)) ⟨_, [], [], rfl⟩

/-- Reading a name and a data range starts from the object, if the subject is a name. -/
theorem startsFrom_namedRange {g : Iri → DataRange → Axiom}
    (hg : ∀ i d, (g i d).exprs = [.rng d]) :
    R.StartsFrom (do return g (← named s) (← R.dataRange o))
      (do
        let _ ← s.iri?
        return [.rng o])
      Axiom.exprs :=
  startsFrom_look lifts_same (fun _ => answers_named_node_iff) fun i _ =>
    startsFrom_of_takes ((takes_one Readers.readsAs_rng o).map (hg i)) ⟨_, [], [], rfl⟩

/-- An equivalence starts from its object as a data range if the subject is a datatype and no class,
and else from both of its terms as classes. -/
theorem startsFrom_equivalence :
    R.StartsFrom (R.equivalence s o)
      (if s.isNamed && R.isA .datatype s && !R.isA .owlClass s then do
        let _ ← s.iri?
        return [.rng o]
      else some [.cls s, .cls o])
      Axiom.exprs :=
  startsFrom_ite (fun _ => startsFrom_namedRange fun _ _ => rfl)
    fun _ => startsFrom_twoClasses fun _ _ => rfl

/-- The terms make a key if those that are object properties are named, and the others are named
data properties. -/
theorem isKey_iff {xs : List Term} : R.isKey xs = true ↔
    (∀ x ∈ xs.filter fun x => R.isA .objectProperty x, x.isNamed = true) ∧
      (∀ x ∈ xs.filter (not ∘ fun x => R.isA .objectProperty x), x.isNamed = true) ∧
      (xs.filter (not ∘ fun x => R.isA .objectProperty x)).all (fun x => R.isA .dataProperty x) =
        true := by
  simp only [isKey, List.all_eq_true, List.mem_filter, Function.comp_apply, Bool.and_eq_true,
    Bool.or_eq_true, Bool.not_eq_true']
  grind

/-- Reading a key goes on to its class. -/
theorem takes_key {xs ys : List Term} :
    Takes (fun I => do return .hasKey (← I.cls x) (← xs.mapM named) (← ys.mapM named)) [.cls x]
      Axiom.exprs := by
  have hnames : Takes (fun _ => do return (← xs.mapM named, ← ys.mapM named)) [] fun _ => [] :=
    takes_nil (Prunes.lifts_named_mapM.then fun _ _ => Prunes.lifts_named_mapM.map fun _ h => h)
      fun _ _ => rfl
  have h : Takes (fun I => I.cls x >>= fun c => (do return (← xs.mapM named, ← ys.mapM named)) >>=
      fun r => pure (.hasKey c r.1 r.2)) [.cls x] Axiom.exprs :=
    takes_both (takes_one Readers.readsAs_cls x) hnames fun _ _ => rfl
  simpa only [bind_assoc, pure_bind] using h

/-- A key starts from its class, if the list can be read and its items make a key. -/
theorem startsFrom_key :
    R.StartsFrom (R.key s o)
      (do
        let properties ← R.items? o
        if R.isKey properties then some [.cls s] else none)
      Axiom.exprs := by
  refine startsFrom_look (Prunes.refl R).lifts_list (fun _ => answers_list_iff) fun xs _ => ?_
  rw [List.partition_eq_filter_filter]
  dsimp only
  by_cases hkey : R.isKey xs = true
  · rw [if_pos hkey]
    obtain ⟨hops, hdps, hall⟩ := isKey_iff.1 hkey
    rw [hall, Bool.not_true, if_neg Bool.false_ne_true]
    obtain ⟨ops, hops⟩ := exists_yields_named hops
    obtain ⟨dps, hdps⟩ := exists_yields_named hdps
    obtain ⟨us, hrun, -⟩ := (Yields.bind_nil (f := fun c => _ >>= fun ops => _ >>= fun dps =>
      pure (Axiom.hasKey c ops dps)) yields_pure (hops.bind hdps.map)).run_nil
    exact startsFrom_of_takes takes_key ⟨_, [], us, hrun⟩
  · rw [if_neg hkey]
    refine startsFrom_none fun ax hax => hkey (isKey_iff.2 ?_)
    rcases hax.ite with ⟨-, hax⟩ | ⟨hall, hax⟩
    · exact absurd hax not_answers_failure
    obtain ⟨_, -, hax⟩ := hax.bind
    obtain ⟨ops, hops, hax⟩ := hax.bind
    obtain ⟨dps, hdps, -⟩ := hax.map
    refine ⟨isNamed_of_answers hops, isNamed_of_answers hdps, ?_⟩
    rwa [Bool.not_eq_true', Bool.not_eq_false] at hall

/-- A group of disjoint classes starts from the members of its list. -/
theorem startsFrom_disjointClasses :
    R.StartsFrom (R.group s (.owl .AllDisjointClasses))
      (do
        let head ← R.triples.object? s (.owl .members)
        let items ← R.items? head
        return items.map .cls)
      Axiom.exprs :=
  startsFrom_look ((Prunes.refl R).lifts_required fun _ => rfl) (fun _ => answers_required_iff)
    fun _ _ => startsFrom_look (Prunes.refl R).lifts_list (fun _ => answers_list_iff)
      fun _ _ => startsFrom_members fun _ => rfl

/-! ### Axioms about no blank node -/

variable {ax : Axiom} {c : Iri}

/-- A type that makes a declaration or a property of a kind is about no expressions. -/
theorem exprs_of_entityTyping? {i : Iri} (h : R.entityTyping? i c = some ax) : ax.exprs = [] := by
  unfold entityTyping? at h
  split at h
  case h_7 =>
    split at h
    · cases h
      rfl
    · split at h
      · cases h
        rfl
      · cases h
  case h_14 => cases h
  all_goals
    cases h
    rfl

/-- A negative assertion is about no expressions. -/
theorem exprs_of_negativeAssertion (h : Answers (R.negativeAssertion s) ax) : ax.exprs = [] := by
  obtain ⟨_, -, h⟩ := h.bind
  obtain ⟨_, -, h⟩ := h.bind
  obtain ⟨_, -, h⟩ := h.bind
  obtain ⟨_, -, h⟩ := h.bind
  rcases h.ite with ⟨-, h⟩ | ⟨-, h⟩
  · obtain ⟨_, -, h⟩ := h.bind
    obtain ⟨_, -, rfl⟩ := h.map
    rfl
  · obtain ⟨_, -, h⟩ := h.bind
    obtain ⟨_, -, rfl⟩ := h.map
    rfl

/-- A group of anything but classes is about no expressions. -/
theorem exprs_of_group (hc : c ≠ .owl .AllDisjointClasses) (h : Answers (R.group s c) ax) :
    ax.exprs = [] := by
  rcases h.ite with ⟨-, h⟩ | ⟨-, h⟩
  all_goals
    obtain ⟨_, -, h⟩ := h.bind
    obtain ⟨_, -, h⟩ := h.bind
    split at h
    case h_1 => exact absurd rfl hc
    case h_2 =>
      obtain ⟨_, -, rfl⟩ := h.map
      rfl
    case h_3 =>
      split at h
      case h_3 => exact absurd h not_answers_failure
      all_goals
        obtain ⟨_, -, rfl⟩ := h.map
        rfl

/-- A typing is plain at its object, unless this is a blank node or the type of groups of disjoint
classes. -/
theorem plainAt_typing (hblank : ∀ b, o ≠ .node (.blank b))
    (hclasses : o ≠ .node (.iri (.owl .AllDisjointClasses))) (h : Answers (R.typing s o) r) :
    r.1.PlainAt o := by
  unfold typing at h
  split at h
  case h_1 => exact absurd h not_answers_failure
  case h_2 => exact absurd rfl (hblank _)
  case h_3 c =>
    split at h
    case h_1 =>
      obtain ⟨_, hax, rfl⟩ := h.map
      exact Axiom.plainAt_of_exprs_eq_nil (exprs_of_negativeAssertion hax)
    case h_2 => exact absurd rfl hclasses
    case h_3 =>
      obtain ⟨_, hax, rfl⟩ := h.map
      exact Axiom.plainAt_of_exprs_eq_nil (exprs_of_group (by decide) hax)
    case h_4 =>
      obtain ⟨_, hax, rfl⟩ := h.map
      exact Axiom.plainAt_of_exprs_eq_nil (exprs_of_group (by decide) hax)
    case h_5 =>
      split at h
      case h_1 hax =>
        obtain rfl := h.eq_of_pure
        obtain ⟨i, -, hax⟩ := Option.bind_eq_some_iff.1 hax
        exact Axiom.plainAt_of_exprs_eq_nil (exprs_of_entityTyping? hax)
      case h_2 =>
        rcases h.ite with ⟨-, h⟩ | ⟨-, h⟩
        · obtain rfl := h.eq_of_pure
          exact fun e he => ⟨c, rfl, List.mem_singleton.1 he⟩
        · exact absurd h not_answers_failure

/-- A property below another is about no expressions. -/
theorem exprs_of_subProperty (h : Answers (R.subProperty s o) ax) : ax.exprs = [] := by
  unfold subProperty at h
  split at h
  case h_4 => exact absurd h not_answers_failure
  all_goals
    obtain ⟨_, -, h⟩ := h.bind
    obtain ⟨_, -, rfl⟩ := h.map
    rfl

/-- The domain of a property that is neither an object nor a data property is about no
expressions. -/
theorem exprs_of_domain (hobject : R.sortOf? s ≠ some .objectProperty)
    (hdata : R.sortOf? s ≠ some .dataProperty) (h : Answers (R.domain s o) ax) :
    ax.exprs = [] := by
  unfold domain at h
  split at h
  case h_1 hsort => exact absurd hsort hobject
  case h_2 hsort => exact absurd hsort hdata
  case h_3 =>
    obtain ⟨_, _, _, _, rfl⟩ := Prunes.exists_of_pair h
    rfl
  case h_4 => exact absurd h not_answers_failure

/-- The range of a property that is neither an object nor a data property is about no
expressions. -/
theorem exprs_of_range (hobject : R.sortOf? s ≠ some .objectProperty)
    (hdata : R.sortOf? s ≠ some .dataProperty) (h : Answers (R.range s o) ax) :
    ax.exprs = [] := by
  unfold range at h
  split at h
  case h_1 hsort => exact absurd hsort hobject
  case h_2 hsort => exact absurd hsort hdata
  case h_3 =>
    obtain ⟨_, _, _, _, rfl⟩ := Prunes.exists_of_pair h
    rfl
  case h_4 => exact absurd h not_answers_failure

/-- An axiom about two names is about no expressions. -/
theorem exprs_of_pair {g : PropertySort → List Iri → Axiom} (hg : ∀ sort ps, (g sort ps).exprs = [])
    (h : Answers (do return g (← R.pairSort s o) [← named s, ← named o]) ax) : ax.exprs = [] := by
  obtain ⟨_, -, h⟩ := h.bind
  obtain ⟨_, -, h⟩ := h.bind
  obtain ⟨_, -, rfl⟩ := h.map
  exact hg _ _

/-- An assertion is about no expressions. -/
theorem exprs_of_assertion (h : Answers (R.assertion s p o) ax) : ax.exprs = [] := by
  rcases h.ite with ⟨-, h⟩ | ⟨-, h⟩
  · exact absurd h not_answers_failure
  rcases h.ite with ⟨-, h⟩ | ⟨-, h⟩
  · rw [h.eq_of_pure]
    rfl
  rcases h.ite with ⟨-, h⟩ | ⟨-, h⟩
  · rw [h.eq_of_pure]
    rfl
  · exact absurd h not_answers_failure

/-- The predicates of the triples that axioms about expressions are read from. -/
def startingPredicates : List Iri :=
  [.rdf .type, .rdfs .subClassOf, .owl .equivalentClass, .owl .disjointWith, .owl .disjointUnionOf,
    .rdfs .domain, .rdfs .range, .owl .hasKey]

/-- What is read from a triple with any other predicate is about no expressions. -/
theorem exprs_of_statement (hp : t.predicate ∉ startingPredicates)
    (h : Answers (R.statement t) r) : r.1.exprs = [] := by
  rcases h.ite with ⟨-, h⟩ | ⟨-, h⟩
  · exact absurd h not_answers_failure
  obtain ⟨s, p, o⟩ := t
  dsimp only at h hp
  split at h
  case h_6 =>
    obtain ⟨_, hax, rfl⟩ := h.map
    exact exprs_of_subProperty hax
  case h_7 =>
    obtain ⟨_, hax, rfl⟩ := h.map
    obtain ⟨_, -, hax⟩ := hax.bind
    obtain ⟨_, -, hax⟩ := hax.bind
    obtain ⟨_, -, rfl⟩ := hax.map
    rfl
  case h_8 =>
    obtain ⟨_, hax, rfl⟩ := h.map
    exact exprs_of_pair (fun _ _ => rfl) hax
  case h_9 =>
    obtain ⟨_, hax, rfl⟩ := h.map
    exact exprs_of_pair (fun _ _ => rfl) hax
  case h_12 =>
    obtain ⟨_, hax, rfl⟩ := h.map
    obtain ⟨_, _, _, _, rfl⟩ := Prunes.exists_of_pair hax
    rfl
  case h_13 =>
    obtain ⟨_, hax, rfl⟩ := h.map
    obtain ⟨_, -, rfl⟩ := hax.map
    rfl
  case h_14 =>
    obtain ⟨_, hax, rfl⟩ := h.map
    obtain ⟨_, -, rfl⟩ := hax.map
    rfl
  case h_16 =>
    rcases h.ite with ⟨-, h⟩ | ⟨-, h⟩
    · obtain ⟨_, hax, rfl⟩ := h.map
      exact exprs_of_assertion hax
    · exact absurd h not_answers_failure
  all_goals exact absurd (by decide) hp

/-! ### Statements -/

/-- What is read from a triple is what the reader of its predicate answers. -/
theorem answers_read {read : Reading (Axiom × Bool)}
    (hstatement : R.statement t =
      if R.triples.hasType t.subject (.owl .Ontology) then failure else read)
    (h : Answers (R.statement t) r) : Answers read r := by
  rw [hstatement] at h
  rcases h.ite with ⟨-, h⟩ | ⟨-, h⟩
  · exact absurd h not_answers_failure
  · exact h

/-- A triple starts from what is read from it, if its subject is no header. -/
theorem startsFrom_read {read : Reading (Axiom × Bool)}
    (hheader : ¬ R.triples.hasType t.subject (.owl .Ontology) = true)
    (hstatement : R.statement t =
      if R.triples.hasType t.subject (.owl .Ontology) then failure else read)
    (h : R.StartsFrom read start fun r => r.1.exprs) :
    R.StartsFrom (R.statement t) start fun r => r.1.exprs := by
  rw [hstatement, if_neg hheader]
  exact h

/-- **Starts.** An axiom is read from a triple of the source exactly if there are spots to start
from and something can be read at each of them, and its expressions are what is read there. -/
theorem startsFrom_statement (ht : t ∈ R.triples) :
    R.StartsFrom (R.statement t) (R.starts t) fun r => r.1.exprs := by
  obtain ⟨s, p, o⟩ := t
  unfold starts
  dsimp only
  by_cases hheader : R.triples.hasType s (.owl .Ontology) = true
  · rw [if_pos hheader]
    refine startsFrom_none fun r hr => ?_
    rcases hr.ite with ⟨-, hr⟩ | ⟨hnone, -⟩
    · exact not_answers_failure hr
    · exact hnone hheader
  rw [if_neg hheader]
  have hplain : ∀ {read : Reading Axiom} {start : Option (List Spot)},
      R.StartsFrom read start Axiom.exprs →
      R.StartsFrom (statement.plain read) start fun r => r.1.exprs := fun h => h.map fun _ => rfl
  split
  case h_1 =>
    split
    case h_1 b =>
      refine startsFrom_read hheader rfl (startsFrom_ite
        (fun _ => startsFrom_none fun _ => not_answers_failure) fun _ => ?_)
      exact startsFrom_of_takes ((takes_one Readers.readsAs_cls b).map fun _ => rfl)
        ⟨_, [], [], rfl⟩
    case h_2 => exact startsFrom_read hheader rfl (startsFrom_disjointClasses.map fun _ => rfl)
    case h_3 hblank hclasses =>
      exact startsFrom_plain ht fun r hr => plainAt_typing hblank hclasses (answers_read rfl hr)
  case h_2 => exact startsFrom_read hheader rfl (hplain (startsFrom_twoClasses fun _ _ => rfl))
  case h_3 => exact startsFrom_read hheader rfl (hplain startsFrom_equivalence)
  case h_4 => exact startsFrom_read hheader rfl (hplain (startsFrom_twoClasses fun _ _ => rfl))
  case h_5 =>
    refine startsFrom_read hheader rfl (hplain ?_)
    exact startsFrom_look lifts_same (fun _ => answers_named_node_iff) fun _ _ =>
      startsFrom_look (Prunes.refl R).lifts_list (fun _ => answers_list_iff) fun _ _ =>
        startsFrom_members fun _ => rfl
  case h_6 =>
    split
    case h_1 hsort =>
      refine startsFrom_read hheader rfl (hplain ?_)
      rw [domain, hsort]
      exact startsFrom_namedClass fun _ _ => rfl
    case h_2 hsort =>
      refine startsFrom_read hheader rfl (hplain ?_)
      rw [domain, hsort]
      exact startsFrom_namedClass fun _ _ => rfl
    case h_3 hobject hdata =>
      refine startsFrom_plain ht fun r hr => ?_
      obtain ⟨ax, hax, rfl⟩ := (answers_read rfl hr).map
      exact Axiom.plainAt_of_exprs_eq_nil (exprs_of_domain hobject hdata hax)
  case h_7 =>
    split
    case h_1 hsort =>
      refine startsFrom_read hheader rfl (hplain ?_)
      rw [range, hsort]
      exact startsFrom_namedClass fun _ _ => rfl
    case h_2 hsort =>
      refine startsFrom_read hheader rfl (hplain ?_)
      rw [range, hsort]
      exact startsFrom_namedRange fun _ _ => rfl
    case h_3 hobject hdata =>
      refine startsFrom_plain ht fun r hr => ?_
      obtain ⟨ax, hax, rfl⟩ := (answers_read rfl hr).map
      exact Axiom.plainAt_of_exprs_eq_nil (exprs_of_range hobject hdata hax)
  case h_8 => exact startsFrom_read hheader rfl (hplain startsFrom_key)
  case h_9 =>
    refine startsFrom_plain ht fun r hr => Axiom.plainAt_of_exprs_eq_nil (exprs_of_statement ?_ hr)
    simp only [startingPredicates, List.mem_cons, List.not_mem_nil, or_false, not_or]
    refine ⟨?_, ?_, ?_, ?_, ?_, ?_, ?_, ?_⟩ <;> assumption

end Source

end Ontograph
