import Mathlib.Tactic.Tauto
import Ontograph.Proofs.Graph.Chains
import Ontograph.Proofs.Mapping.Grounding

/-!
# What is gathered hangs together

The triples of an axiom hang from its main triple: a term *hangs* from others by some triples if
these lead down to it (`Hangs`).  A step of reading gathers triples whose subjects hang from the
terms it begins with, and what it answers may be read further because it hangs from them too
(`Reading.Gathers`).  A step that is put together from such steps is such a step, so each reader of
the mapping is followed by the terms it begins with.

In the end a triple of a footprint is about something that hangs from the main triple, or about the
node that stands for it (`Source.hangs_or_reified_of_mem_scan`).
-/

namespace Ontograph

/-- A term is one of some others, or triples lead down to it from there. -/
inductive Hangs (xs : List Term) (ts : List Triple) : Term → Prop
  | root {x : Term} (h : x ∈ xs) : Hangs xs ts x
  | step {t : Triple} (ht : t ∈ ts) (h : Hangs xs ts t.subject) : Hangs xs ts t.object

section Hangs

variable {xs ys : List Term} {ts us : List Triple} {x : Term}

/-- More triples leave hanging what hangs. -/
theorem Hangs.mono (h : Hangs xs ts x) (hsub : ts ⊆ us) : Hangs xs us x := by
  induction h with
  | root h => exact .root h
  | step ht _ ih => exact .step (hsub ht) ih

/-- What hangs from terms that hang from others hangs from those. -/
theorem Hangs.trans (h : Hangs ys ts x) (hys : ∀ y ∈ ys, Hangs xs ts y) : Hangs xs ts x := by
  induction h with
  | root h => exact hys _ h
  | step ht _ ih => exact .step ht ih

end Hangs

namespace Reading

variable {α β γ : Type} {m m' : Reading α} {f : α → Reading β} {a : α} {xs ys : List Term}
  {next next' : α → List Term} {last : β → List Term} {ts : List Triple}

/-- Whatever was gathered before, the step adds triples that hang from some terms, and terms that
its answer is to be read from hang from them too. -/
def Gathers (xs : List Term) (m : Reading α) (next : α → List Term) : Prop :=
  ∀ acc a out, m.run acc = some (a, out) → ∃ us, out = acc ++ us ∧
    (∀ t ∈ us, Hangs xs us t.subject) ∧ ∀ x ∈ next a, Hangs xs us x

/-- A step whose answer is not read further. -/
abbrev Reads (xs : List Term) (m : Reading α) : Prop := Gathers xs m fun _ => []

/-- A step that gathers from some terms gathers from more of them. -/
theorem Gathers.mono (h : Gathers xs m next) (hsub : xs ⊆ ys) : Gathers ys m next := by
  intro acc a out hrun
  obtain ⟨us, rfl, hus, hnext⟩ := h acc a out hrun
  have hroot : ∀ x ∈ xs, Hangs ys us x := fun x hx => .root (hsub hx)
  exact ⟨us, rfl, fun t ht => (hus t ht).trans hroot, fun x hx => (hnext x hx).trans hroot⟩

/-- A step that gathers may be left without reading its answer further. -/
theorem Gathers.reads (h : Gathers xs m next) : Reads xs m := by
  intro acc a out hrun
  obtain ⟨us, rfl, hus, -⟩ := h acc a out hrun
  exact ⟨us, rfl, hus, fun _ hx => nomatch hx⟩

/-- An answer alone gathers nothing, and is read further if it is one of the terms. -/
theorem gathers_pure (h : ∀ x ∈ next a, x ∈ xs) : Gathers xs (pure a) next := by
  intro acc b out hrun
  cases hrun
  exact ⟨[], (List.append_nil _).symm, fun _ ht => (nomatch ht), fun x hx => .root (h x hx)⟩

/-- An answer alone gathers nothing. -/
theorem reads_pure : Reads xs (pure a) := gathers_pure fun _ hx => nomatch hx

/-- A failure gathers nothing. -/
theorem gathers_failure : Gathers xs (failure : Reading α) next := fun _ _ _ hrun => nomatch hrun

/-- A choice gathers nothing. -/
theorem reads_lift {o : Option α} : Reads xs (liftM o : Reading α) := by
  cases o with
  | none => exact gathers_failure
  | some a => exact reads_pure

/-- Triples that hang from the terms may be gathered. -/
theorem gathers_gather {next : Unit → List Term} (h : ∀ t ∈ ts, Hangs xs ts t.subject)
    (hnext : ∀ x ∈ next (), Hangs xs ts x) : Gathers xs (Source.gather ts) next := by
  intro acc u out hrun
  cases hrun
  exact ⟨ts, rfl, h, hnext⟩

/-- The second of two steps may begin with what the answer of the first one is to be read from. -/
theorem Gathers.bind (hm : Gathers xs m next) (hf : ∀ a, Gathers (next a ++ xs) (f a) last) :
    Gathers xs (m >>= f) last := by
  intro acc b out hrun
  rw [StateT.run_bind] at hrun
  obtain ⟨⟨a, mid⟩, hfirst, hsecond⟩ := Option.bind_eq_some_iff.1 hrun
  obtain ⟨us, rfl, hus, hnext⟩ := hm acc a mid hfirst
  obtain ⟨vs, rfl, hvs, hlast⟩ := hf a _ b out hsecond
  have hroot : ∀ x ∈ next a ++ xs, Hangs xs (us ++ vs) x := by
    intro x hx
    rcases List.mem_append.1 hx with hx | hx
    · exact (hnext x hx).mono (List.subset_append_left us vs)
    · exact .root hx
  have hthen : ∀ {x}, Hangs (next a ++ xs) vs x → Hangs xs (us ++ vs) x := fun hx =>
    (hx.mono (List.subset_append_right us vs)).trans hroot
  refine ⟨us ++ vs, List.append_assoc _ _ _, fun t ht => ?_, fun x hx => hthen (hlast x hx)⟩
  rcases List.mem_append.1 ht with ht | ht
  · exact (hus t ht).mono (List.subset_append_left us vs)
  · exact hthen (hvs t ht)

/-- Two steps one after the other, the second one from where the first one began. -/
theorem Gathers.then (hm : Reads xs m) (hf : ∀ a, Gathers xs (f a) last) :
    Gathers xs (m >>= f) last := hm.bind hf

/-- A step after a look-up may rely on what this finds. -/
theorem gathers_lift_bind {o : Option α} (h : ∀ a, o = some a → Gathers xs (f a) last) :
    Gathers xs ((liftM o : Reading α) >>= f) last := by
  cases o with
  | none => exact fun _ _ _ hrun => nomatch hrun
  | some a => exact fun acc b out hrun => h a rfl acc b out hrun

/-- A last step that only computes. -/
theorem Gathers.map {g : α → β} (hm : Gathers xs m next) :
    Reads xs (m >>= fun a => pure (g a)) := hm.bind fun _ => reads_pure

/-- A test gathers what its branches do. -/
theorem gathers_ite {c : Prop} [Decidable c] (h : Gathers xs m next) (h' : Gathers xs m' next) :
    Gathers xs (if c then m else m') next := by
  split <;> assumption

/-- A choice between two steps before the same one. -/
theorem gathers_ite_bind {c : Prop} [Decidable c] (h : Gathers xs m next)
    (h' : Gathers xs m' next) (hf : ∀ a, Gathers (next a ++ xs) (f a) last) :
    Gathers xs (if c then m >>= f else m' >>= f) last :=
  gathers_ite (h.bind hf) (h'.bind hf)

/-- Operands that are read one by one. -/
theorem reads_mapM {read : Term → Reading α} (h : ∀ x, Reads [x] (read x)) (hsub : ys ⊆ xs) :
    Reads xs (ys.mapM read) := by
  induction ys with
  | nil => exact reads_pure
  | cons y ys ih =>
    obtain ⟨hy, hsub⟩ := List.cons_subset.1 hsub
    rw [List.mapM_cons]
    exact ((h y).mono (by simpa using hy)).then fun _ => (ih hsub).map

end Reading

open Reading

/-! ## Lists -/

namespace TripleSet

variable {S : TripleSet} {limit : Nat} {visited : List Node} {x y : Term} {cs : List Cell}

/-- The triples of a list hang from its head. -/
theorem hangs_of_mem_cellTriples {t : Triple} (ht : t ∈ S.cellTriples limit visited x) :
    Hangs [x] (S.cellTriples limit visited x) t.subject := by
  induction visited, x using TripleSet.cellTriples.induct S limit with
  | case1 visited l =>
    rw [cellTriples] at ht
    cases ht
  | case2 visited c hstop =>
    rw [cellTriples_node, if_pos hstop] at ht
    cases ht
  | case3 visited c hgo hrest =>
    rw [cellTriples_node, if_neg hgo, hrest, List.append_nil] at ht
    rw [(mem_statements.1 ht).2.2]
    exact .root List.mem_cons_self
  | case4 visited c hgo u us hrest hu _ ih =>
    rw [cellTriples_node, if_neg hgo, hrest] at ht ⊢
    have hus : ∀ v ∈ u :: us, v.subject = c := fun v hv => (mem_statements.1 (hrest ▸ hv)).2.2
    rcases List.mem_append.1 ht with ht | ht
    · rw [(mem_statements.1 ht).2.2]
      exact .root List.mem_cons_self
    rcases List.mem_append.1 ht with ht | ht
    · rw [hus t ht]
      exact .root List.mem_cons_self
    -- the next cell hangs from this one by the triple that leads to it
    · refine ((ih ht).mono ?_).trans fun y hy => ?_
      · exact fun v hv => List.mem_append_right _ (List.mem_append_right _ hv)
      · obtain rfl := List.mem_singleton.1 hy
        refine .step (List.mem_append_right _ (List.mem_append_left _ List.mem_cons_self)) ?_
        rw [hus u List.mem_cons_self]
        exact .root List.mem_cons_self

/-- The object that is looked up is that of the first statement. -/
theorem exists_statements_eq_cons {n : Node} {p : Iri} (h : S.object? n p = some x) :
    ∃ us, S.statements n p = ⟨n, p, x⟩ :: us := by
  have hhead : (S.statements n p).head?.map Triple.object = some x := by
    rw [← h, object?, statements, List.head?_filter]
  cases hstatements : S.statements n p with
  | nil =>
    rw [hstatements] at hhead
    cases hhead
  | cons u us =>
    rw [hstatements] at hhead
    obtain ⟨m, q, o⟩ := u
    obtain ⟨-, rfl, rfl⟩ := mem_statements.1 (hstatements ▸ List.mem_cons_self)
    cases hhead
    exact ⟨us, rfl⟩

/-- The triples of a new cell within the limit, and those of the cells after it. -/
theorem subset_cellTriples {n : Node} {item rest : Term} (hroom : visited.length < limit)
    (hnew : n ∉ visited) (hfirst : S.object? n (.rdf .first) = some item)
    (hrest : S.object? n (.rdf .rest) = some rest) :
    ⟨n, .rdf .first, item⟩ :: ⟨n, .rdf .rest, rest⟩ :: S.cellTriples limit (n :: visited) rest ⊆
      S.cellTriples limit visited (.node n) := by
  have hgo : ¬ (limit ≤ visited.length ∨ n ∈ visited) := by
    rw [not_or, Nat.not_le]
    exact ⟨hroom, hnew⟩
  obtain ⟨us, hus⟩ := exists_statements_eq_cons hfirst
  obtain ⟨vs, hvs⟩ := exists_statements_eq_cons hrest
  rw [cellTriples_node, if_neg hgo, hus, hvs]
  intro t ht
  simp only [List.mem_cons, List.cons_append, List.mem_append] at ht ⊢
  tauto

/-- The items of a list hang from its head: the triples lead along the cells that are read, and from
each to its item. -/
theorem hangs_of_passes (h : Passes S.object? x cs y) (hnodup : (cs.map Cell.node).Nodup)
    (hvisited : ∀ c ∈ cs, c.node ∉ visited) (hlength : cs.length ≤ limit - visited.length) :
    ∀ c ∈ cs, Hangs [x] (S.cellTriples limit visited x) c.item := by
  induction h generalizing visited with
  | done => exact fun c hc => nomatch hc
  | @pass n item rest y cs hnil hfirst hrest h ih =>
    obtain ⟨hfresh, hnodup⟩ := List.nodup_cons.1 hnodup
    obtain ⟨hnew, hvisited⟩ := List.forall_mem_cons.1 hvisited
    rw [List.length_cons] at hlength
    have hroom : visited.length < limit := by omega
    have hsub := subset_cellTriples hroom hnew hfirst hrest
    obtain ⟨hitem, hsub⟩ := List.cons_subset.1 hsub
    obtain ⟨hlink, hsub⟩ := List.cons_subset.1 hsub
    have hcell : Hangs [.node n] (S.cellTriples limit visited (.node n)) (.node n) :=
      .root List.mem_cons_self
    refine List.forall_mem_cons.2 ⟨.step hitem hcell, fun c hc => ?_⟩
    have hlater := ih hnodup (notMem_visited_cons hfresh hvisited) (by
      rw [List.length_cons]
      omega) c hc
    refine (hlater.mono hsub).trans fun z hz => ?_
    obtain rfl := List.mem_singleton.1 hz
    exact .step hlink hcell

end TripleSet

namespace Source

variable {R : Source} {n s root : Node} {p c : Iri} {x o : Term} {xs : List Term} {α : Type}

/-- Reading an object gathers the triple that leads to it. -/
theorem gathers_required (hn : .node n ∈ xs) : Gathers xs (R.required n p) fun o => [o] := by
  refine reads_lift.then fun o => ?_
  have hgather : Gathers xs (gather [⟨n, p, o⟩]) fun _ => [o] := by
    have hroot : Hangs xs [⟨n, p, o⟩] n := .root hn
    refine gathers_gather (fun t ht => ?_) fun y hy => ?_
    · obtain rfl := List.mem_singleton.1 ht
      exact hroot
    · obtain rfl := List.mem_singleton.1 hy
      exact .step List.mem_cons_self hroot
  exact hgather.bind fun _ => gathers_pure fun y hy => List.mem_append_left _ hy

/-- Reading a type gathers the triple that states it. -/
theorem reads_noteType (hn : .node n ∈ xs) : Reads xs (R.noteType n c) := by
  refine gathers_ite (gathers_gather (fun t ht => ?_) fun _ hx => nomatch hx) reads_pure
  obtain rfl := List.mem_singleton.1 ht
  exact .root hn

/-- A list is read on from its items. -/
theorem gathers_list (hx : x ∈ xs) : Gathers xs (R.list x) fun items => items := by
  refine gathers_lift_bind fun items hitems => ?_
  obtain ⟨cs, hcs, hlength, rfl⟩ := TripleSet.readList_eq_ok_iff_passes.1
    (TripleSet.toOption_readList_eq_some_iff.1 hitems)
  have hroot : ∀ y ∈ [x], Hangs xs (R.triples.listTriples R.settings.listLimit x) y :=
    fun y hy => .root (List.mem_singleton.1 hy ▸ hx)
  have hgather : Gathers xs (gather (R.triples.listTriples R.settings.listLimit x))
      fun _ => cs.map Cell.item := by
    refine gathers_gather (fun t ht => ?_) fun y hy => ?_
    · exact (TripleSet.hangs_of_mem_cellTriples ht).trans hroot
    · obtain ⟨c, hc, rfl⟩ := List.mem_map.1 hy
      exact (TripleSet.hangs_of_passes hcs hcs.nodup (by simp) hlength c hc).trans hroot
  exact hgather.bind fun _ => gathers_pure fun y hy => List.mem_append_left _ hy

/-! ### Expressions -/

/-- Reading an object property expression gathers what hangs from its term. -/
theorem reads_objectProperty : Reads [x] (R.objectProperty x) := by
  obtain (i | b) | l := x
  · exact reads_pure
  · exact (gathers_required List.mem_cons_self).bind fun _ => Gathers.map reads_lift
  · exact gathers_failure

/-- Reading a facet gathers what hangs from its node. -/
theorem reads_facet : Reads [x] (R.facet x) := by
  refine gathers_lift_bind fun n hn => ?_
  have hx : x = .node n := by
    cases x with
    | node m => exact congrArg _ (Option.some.inj hn)
    | literal l => cases hn
  subst hx
  split
  case h_1 t hout =>
    have hsubject : t.subject = n := (TripleSet.mem_outgoing.1 (hout ▸ List.mem_cons_self)).2
    have hgather : Reads [.node n] (gather [t]) := by
      refine gathers_gather (fun u hu => ?_) fun _ hy => nomatch hy
      obtain rfl := List.mem_singleton.1 hu
      exact .root (hsubject ▸ List.mem_cons_self)
    exact reads_lift.then fun _ => hgather.map
  case h_2 => exact gathers_failure

/-- Reading operands gathers what hangs from their node, if reading one does from its term. -/
theorem reads_operandsOf {inner : Term → Reading α} (h : ∀ x, Reads [x] (inner x)) :
    Reads [.node n] (R.operandsOf inner n p) :=
  (gathers_required List.mem_cons_self).bind fun _ => (gathers_list (by simp)).bind fun _ =>
    reads_mapM h (by simp)

/-- A qualified restriction is read on from its filler. -/
theorem gathers_bounded : Gathers [.node n] (R.bounded n p) fun r => r.2.2.toList := by
  have hgo : ∀ bs, Gathers [.node n] (bounded.go R n p bs) fun r => r.2.2.toList := by
    intro bs
    induction bs with
    | nil => exact gathers_failure
    | cons b bs ih =>
      refine gathers_ite ?_ (gathers_ite ?_ ih)
      · exact (gathers_required (by simp)).bind fun _ => reads_lift.then fun _ =>
          gathers_pure (by simp)
      · exact (gathers_required (by simp)).bind fun _ => (gathers_required (by simp)).bind fun _ =>
          reads_lift.then fun _ => gathers_pure (by simp)
  exact hgo _

/-- Reading a data range at a node gathers what hangs from the node. -/
theorem reads_dataRangeAt {inner : Term → Reading DataRange} (h : ∀ x, Reads [x] (inner x)) :
    Reads [.node n] (R.dataRangeAt inner n) := by
  have hliteral : ∀ x, Reads [x] (literal x) := fun _ => reads_lift
  refine (reads_noteType (by simp)).then fun _ => ?_
  refine gathers_ite ?_ (gathers_ite ?_ (gathers_ite ?_ (gathers_ite ?_ ?_)))
  · exact (reads_operandsOf h).map
  · exact (reads_operandsOf h).map
  · exact (gathers_required (by simp)).bind fun o => ((h o).mono (by simp)).map
  · exact (reads_operandsOf hliteral).map
  · exact (gathers_required (by simp)).bind fun _ => reads_lift.then fun _ =>
      ((reads_operandsOf fun _ => reads_facet).mono (by simp)).map

/-- Reading a data range inside of others gathers what hangs from its term. -/
theorem reads_dataRangeIn (within : List Node) (x : Term) :
    Reads [x] (R.dataRangeIn within x) := by
  induction within, x using Source.dataRangeIn.induct R with
  | case1 within d =>
    rw [Source.dataRangeIn]
    exact reads_pure
  | case2 within b hnew _ ih =>
    rw [Source.dataRangeIn, dif_pos hnew]
    exact reads_dataRangeAt ih
  | case3 within b hold =>
    rw [Source.dataRangeIn, dif_neg hold]
    exact gathers_failure
  | case4 within l =>
    rw [Source.dataRangeIn]
    exact gathers_failure

/-- Reading a data range gathers what hangs from its term. -/
theorem reads_dataRange : Reads [x] (R.dataRange x) := reads_dataRangeIn [] x

/-- Reading a restriction on an object property gathers what hangs from its node. -/
theorem reads_objectRestriction {inner : Term → Reading ClassExpr} {e : ObjectPropertyExpr}
    (h : ∀ x, Reads [x] (inner x)) : Reads [.node n] (R.objectRestriction inner n e) := by
  refine gathers_ite ?_ (gathers_ite ?_ (gathers_ite ?_ (gathers_ite ?_ ?_)))
  · exact (gathers_required (by simp)).bind fun o => ((h o).mono (by simp)).map
  · exact (gathers_required (by simp)).bind fun o => ((h o).mono (by simp)).map
  · exact (gathers_required (by simp)).bind fun _ => Gathers.map reads_lift
  · exact (gathers_required (by simp)).map
  · refine gathers_bounded.bind fun r => ?_
    obtain ⟨_, _, _ | filler⟩ := r
    · exact reads_pure
    · exact ((h filler).mono (by simp)).map

/-- Reading a restriction on a data property gathers what hangs from its node. -/
theorem reads_dataRestriction {inner : Term → Reading DataRange}
    (h : ∀ x, Reads [x] (inner x)) : Reads [.node n] (R.dataRestriction inner n p) := by
  refine gathers_ite ?_ (gathers_ite ?_ (gathers_ite ?_ ?_))
  · exact (gathers_required (by simp)).bind fun o => ((h o).mono (by simp)).map
  · exact (gathers_required (by simp)).bind fun o => ((h o).mono (by simp)).map
  · exact (gathers_required (by simp)).bind fun _ => Gathers.map reads_lift
  · refine gathers_bounded.bind fun r => ?_
    obtain ⟨_, _, _ | filler⟩ := r
    · exact reads_pure
    · exact ((h filler).mono (by simp)).map

/-- Reading a class expression at a node gathers what hangs from the node. -/
theorem reads_classExprAt {inner : Term → Reading ClassExpr} {innerData : Term → Reading DataRange}
    (h : ∀ x, Reads [x] (inner x)) (hdata : ∀ x, Reads [x] (innerData x)) :
    Reads [.node n] (R.classExprAt inner innerData n) := by
  have hindividual : ∀ x, Reads [x] (individual x) := fun _ => reads_lift
  refine gathers_ite ?_ ((reads_noteType (by simp)).then fun _ => ?_)
  · refine (reads_noteType (by simp)).then fun _ => (gathers_required (by simp)).bind fun q => ?_
    split
    case h_1 =>
      exact (reads_objectProperty.mono (by simp)).then fun _ =>
        (reads_objectRestriction h).mono (by simp)
    case h_2 => exact reads_lift.then fun _ => (reads_dataRestriction hdata).mono (by simp)
    case h_3 => exact gathers_failure
  · refine gathers_ite ?_ (gathers_ite ?_ (gathers_ite ?_ ?_))
    · exact (reads_operandsOf h).map
    · exact (reads_operandsOf h).map
    · exact (gathers_required (by simp)).bind fun o => ((h o).mono (by simp)).map
    · exact (reads_operandsOf hindividual).map

/-- Reading a class expression inside of others gathers what hangs from its term. -/
theorem reads_classExprIn (within : List Node) (x : Term) :
    Reads [x] (R.classExprIn within x) := by
  induction within, x using Source.classExprIn.induct R with
  | case1 within d =>
    rw [Source.classExprIn]
    exact reads_pure
  | case2 within b hnew _ ih =>
    rw [Source.classExprIn, dif_pos hnew]
    exact reads_classExprAt ih fun x => reads_dataRangeIn _ x
  | case3 within b hold =>
    rw [Source.classExprIn, dif_neg hold]
    exact gathers_failure
  | case4 within l =>
    rw [Source.classExprIn]
    exact gathers_failure

/-- Reading a class expression gathers what hangs from its term. -/
theorem reads_classExpr : Reads [x] (R.classExpr x) := reads_classExprIn [] x

/-! ### Axioms -/

/-- Reading an assertion gathers nothing. -/
theorem reads_assertion : Reads xs (R.assertion s p o) :=
  gathers_ite gathers_failure (gathers_ite reads_pure (gathers_ite reads_pure gathers_failure))

/-- Reading a negative assertion gathers what hangs from its node. -/
theorem reads_negativeAssertion : Reads [.node root] (R.negativeAssertion root) := by
  refine (gathers_required (by simp)).bind fun _ => (gathers_required (by simp)).bind fun _ =>
    reads_lift.then fun _ => reads_lift.then fun _ => gathers_ite ?_ ?_
  · exact (gathers_required (by simp)).bind fun _ => Gathers.map reads_lift
  · exact (gathers_required (by simp)).bind fun _ => Gathers.map reads_lift

/-- Reading a group gathers what hangs from its node. -/
theorem reads_group : Reads [.node root] (R.group root c) := by
  have hnamed : ∀ x, Reads [x] (named x) := fun _ => reads_lift
  have hindividual : ∀ x, Reads [x] (individual x) := fun _ => reads_lift
  refine gathers_ite_bind (gathers_required (by simp)) (gathers_required (by simp)) fun head =>
    (gathers_list (by simp)).bind fun items => ?_
  split
  case h_1 => exact (reads_mapM (fun _ => reads_classExpr) (by simp)).map
  case h_2 => exact (reads_mapM hindividual (by simp)).map
  case h_3 =>
    split
    case h_1 => exact (reads_mapM hnamed (by simp)).map
    case h_2 => exact (reads_mapM hnamed (by simp)).map
    case h_3 => exact gathers_failure

/-- Reading a typing gathers what hangs from its subject and its object. -/
theorem reads_typing : Reads [.node s, o] (R.typing s o) := by
  unfold typing
  split
  case h_1 => exact gathers_failure
  case h_2 b => exact gathers_ite gathers_failure (reads_classExpr.mono (by simp)).map
  case h_3 c =>
    have hgroup : ∀ c, Reads [.node s, .node (.iri c)] (R.group s c) :=
      fun c => reads_group.mono (by simp)
    split
    case h_1 => exact (reads_negativeAssertion.mono (by simp)).map
    case h_2 => exact (hgroup _).map
    case h_3 => exact (hgroup _).map
    case h_4 => exact (hgroup _).map
    case h_5 =>
      split
      case h_1 => exact reads_pure
      case h_2 => exact gathers_ite reads_pure gathers_failure

/-- Reading a property below another gathers what hangs from the two. -/
theorem reads_subProperty : Reads [.node s, o] (R.subProperty s o) := by
  unfold subProperty
  split
  case h_1 =>
    exact (reads_objectProperty.mono (by simp)).then fun _ =>
      (reads_objectProperty.mono (by simp)).map
  case h_2 => exact reads_lift.then fun _ => Gathers.map reads_lift
  case h_3 => exact reads_lift.then fun _ => Gathers.map reads_lift
  case h_4 => exact gathers_failure

/-- Finding the sort of two properties gathers nothing. -/
theorem reads_pairSort : Reads xs (R.pairSort s o) := by
  unfold pairSort
  split
  case h_1 => exact reads_pure
  case h_2 => exact reads_pure
  case h_3 => exact gathers_failure

/-- Reading a domain gathers what hangs from the property and the class. -/
theorem reads_domain : Reads [.node s, o] (R.domain s o) := by
  have hclass : Reads [.node s, o] (R.classExpr o) := reads_classExpr.mono (by simp)
  unfold domain
  split
  case h_1 => exact reads_lift.then fun _ => hclass.map
  case h_2 => exact reads_lift.then fun _ => hclass.map
  case h_3 => exact reads_lift.then fun _ => Gathers.map reads_lift
  case h_4 => exact gathers_failure

/-- Reading a range gathers what hangs from the property and its range. -/
theorem reads_range : Reads [.node s, o] (R.range s o) := by
  unfold range
  split
  case h_1 => exact reads_lift.then fun _ => (reads_classExpr.mono (by simp)).map
  case h_2 => exact reads_lift.then fun _ => (reads_dataRange.mono (by simp)).map
  case h_3 => exact reads_lift.then fun _ => Gathers.map reads_lift
  case h_4 => exact gathers_failure

/-- Reading an equivalence gathers what hangs from the two terms. -/
theorem reads_equivalence : Reads [.node s, o] (R.equivalence s o) := by
  refine gathers_ite ?_ ?_
  · exact reads_lift.then fun _ => (reads_dataRange.mono (by simp)).map
  · exact (reads_classExpr.mono (by simp)).then fun _ => (reads_classExpr.mono (by simp)).map

/-- Reading a key gathers what hangs from the class and the list. -/
theorem reads_key : Reads [.node s, o] (R.key s o) := by
  have hnamed : ∀ x, Reads [x] (named x) := fun _ => reads_lift
  unfold key
  refine (gathers_list (by simp)).bind fun items => ?_
  rw [List.partition_eq_filter_filter]
  have hitems : ∀ q : Term → Bool, items.filter q ⊆ items ++ [.node s, o] :=
    fun q x hx => List.mem_append_left _ (List.mem_of_mem_filter hx)
  refine gathers_ite gathers_failure ((reads_classExpr.mono (by simp)).then fun _ => ?_)
  exact (reads_mapM hnamed (hitems _)).then fun _ => (reads_mapM hnamed (hitems _)).map

/-- The axiom of a triple is read from its subject and its object. -/
theorem reads_statement {t : Triple} : Reads [.node t.subject, t.object] (R.statement t) := by
  obtain ⟨s, p, o⟩ := t
  have hplain : ∀ {read : Reading Axiom}, Reads [.node s, o] read →
      Reads [.node s, o] (statement.plain read) := fun h => h.map
  have hsubject : Reads [.node s, o] (R.classExpr s) := reads_classExpr.mono (by simp)
  have hobject : Reads [.node s, o] (R.classExpr o) := reads_classExpr.mono (by simp)
  refine gathers_ite gathers_failure ?_
  dsimp only
  split
  case h_1 => exact reads_typing
  case h_2 => exact hplain (hsubject.then fun _ => hobject.map)
  case h_3 => exact hplain reads_equivalence
  case h_4 => exact hplain (hsubject.then fun _ => hobject.map)
  case h_5 =>
    exact hplain (reads_lift.then fun _ => (gathers_list (by simp)).bind fun _ =>
      (reads_mapM (fun _ => reads_classExpr) (by simp)).map)
  case h_6 => exact hplain reads_subProperty
  case h_7 =>
    exact hplain ((gathers_list (by simp)).bind fun _ =>
      (reads_mapM (fun _ => reads_objectProperty) (by simp)).then fun _ => Gathers.map reads_lift)
  case h_8 =>
    exact hplain (reads_pairSort.then fun _ => reads_lift.then fun _ => Gathers.map reads_lift)
  case h_9 =>
    exact hplain (reads_pairSort.then fun _ => reads_lift.then fun _ => Gathers.map reads_lift)
  case h_10 => exact hplain reads_domain
  case h_11 => exact hplain reads_range
  case h_12 => exact hplain (reads_lift.then fun _ => Gathers.map reads_lift)
  case h_13 => exact hplain (Gathers.map reads_lift)
  case h_14 => exact hplain (Gathers.map reads_lift)
  case h_15 => exact hplain reads_key
  case h_16 => exact gathers_ite (hplain reads_assertion) gathers_failure

/-! ### Footprints -/

variable {a : AnnotatedAxiom} {f : Footprint} {t : Triple}

/-- The triples that are gathered from a main triple hang from its subject and its object. -/
theorem hangs_of_run {r : Axiom × Bool} {main : Triple} {ts : List Triple}
    (hrun : (R.statement main).run [] = some (r, ts)) (ht : t ∈ ts) :
    Hangs [.node main.subject, main.object] ts t.subject := by
  obtain ⟨us, hus, hhangs, -⟩ := reads_statement [] r ts hrun
  obtain rfl : ts = us := hus
  exact hhangs t ht

/-- A triple of a footprint is about something that hangs from the main triple by triples of the
footprint, or about a node that they make stand for the main triple. -/
theorem hangs_or_reified_of_mem_scan (h : (a, f) ∈ R.scan) (ht : t ∈ f.triples) :
    Hangs [.node f.main.subject, f.main.object] f.triples t.subject ∨
      ∀ u ∈ f.main.reifiedBy t.subject, u ∈ f.triples := by
  have hread := mem_axiomsAt_iff.1 (mem_scan_iff.1 h)
  generalize hmain : f.main = main at hread ⊢
  have hroot : ∀ {us}, Hangs [.node main.subject, main.object] us main.subject :=
    .root List.mem_cons_self
  have hgathered : ∀ {r ts us}, (R.statement main).run [] = some (r, ts) → t ∈ ts →
      (∀ u ∈ ts, u ∈ us) → Hangs [.node main.subject, main.object] us t.subject :=
    fun hrun ht hsub => (hangs_of_run hrun ht).mono hsub
  cases hread with
  | @rooted ax ts hm hrun =>
    have hsub : ∀ u ∈ ts, u ∈ (R.noted main ax ts main.subject).2.triples := fun u hu =>
      Footprint.mem_triples_of.2 (Or.inr (List.mem_append_left _ hu))
    refine Or.inl ?_
    rcases Footprint.mem_triples_of.1 ht with rfl | ht
    · exact hroot
    rcases List.mem_append.1 ht with ht | ht
    · exact hgathered hrun ht hsub
    · rw [(TripleSet.mem_outgoing.1 (List.mem_of_mem_filter ht)).2]
      exact hroot
  | @bare ax ts hm hrun =>
    have hsub : ∀ u ∈ ts, u ∈ (Footprint.of main ts).triples := fun u hu =>
      Footprint.mem_triples_of.2 (Or.inr hu)
    refine Or.inl ?_
    rcases Footprint.mem_triples_of.1 ht with rfl | ht
    · exact hroot
    · exact hgathered hrun ht hsub
  | @reified ax ts n hm hrun hn =>
    have hsub : ∀ u ∈ ts, u ∈ (R.noted main ax (ts ++ R.reification n main) n).2.triples :=
      fun u hu => Footprint.mem_triples_of.2
        (Or.inr (List.mem_append_left _ (List.mem_append_left _ hu)))
    -- the triples of the node make it stand for the main triple
    have hreified := ((notedOn_of_run hm hrun).reified n).2 rfl
    rcases Footprint.mem_triples_of.1 ht with rfl | ht
    · exact Or.inl hroot
    rcases List.mem_append.1 ht with ht | ht
    · rcases List.mem_append.1 ht with ht | ht
      · exact Or.inl (hgathered hrun ht hsub)
      · rw [subject_of_mem_reification ht]
        exact Or.inr hreified
    · rw [(TripleSet.mem_outgoing.1 (List.mem_of_mem_filter ht)).2]
      exact Or.inr hreified

end Source

end Ontograph
