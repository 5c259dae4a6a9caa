import Ontograph.Proofs.Canonical.Rewriting

/-!
# Merging headers is renaming

Of several headers one is kept, and each other one is replaced by it: first where it is a subject,
then where it is an object.  Both sweeps hand triples over one by one, each of which is written in
its new form before it is taken out in its old form (`Graph.mem_base_edits_handOver`), so a sweep
takes each triple of the base to its new form, and the two sweeps for one header rename it
(`Graph.mem_base_absorb`).  Renaming the headers one after another is renaming them at once, because
the kept header is none of them (`Graph.mem_base_absorbAll`).

No new form may be imported already, since it would not be written then: the imports do not mention
the headers of the base.  The main result is `Pipeline.mergeHeaders_renames`.
-/

namespace Ontograph

/-! ## Renaming -/

/-- The node that stands for a node, once some nodes are replaced by another one. -/
def Node.mergedInto (n : Node) (losers : List Node) (winner : Node) : Node :=
  if n ∈ losers then winner else n

/-- The term that stands for a term. -/
def Term.mergedInto (x : Term) (losers : List Node) (winner : Node) : Term :=
  match x with
  | .node n => .node (n.mergedInto losers winner)
  | .literal l => .literal l

/-- The triple that stands for a triple: its subject and its object are renamed. -/
def Triple.mergedInto (t : Triple) (losers : List Node) (winner : Node) : Triple :=
  ⟨t.subject.mergedInto losers winner, t.predicate, t.object.mergedInto losers winner⟩

section Renaming

variable {losers : List Node} {loser winner n : Node} {x : Term} {t : Triple}

/-- A node that is not replaced stands for itself. -/
theorem Node.mergedInto_of_not_mem (h : n ∉ losers) : n.mergedInto losers winner = n := if_neg h

/-- For a node that is replaced stands the node that replaces it. -/
theorem Node.mergedInto_of_mem (h : n ∈ losers) : n.mergedInto losers winner = winner := if_pos h

/-- A term that is none of the replaced nodes stands for itself. -/
theorem Term.mergedInto_of_not_mem (h : ∀ n ∈ losers, x ≠ .node n) :
    x.mergedInto losers winner = x := by
  cases x with
  | literal l => rfl
  | node n => exact congrArg Term.node (Node.mergedInto_of_not_mem fun hn => h n hn rfl)

/-- A triple that mentions none of the nodes stays. -/
theorem Triple.mergedInto_of_not_mem (h : ∀ n ∈ losers, t.subject ≠ n ∧ t.object ≠ .node n) :
    t.mergedInto losers winner = t := by
  unfold mergedInto
  rw [Node.mergedInto_of_not_mem fun hn => (h _ hn).1 rfl,
    Term.mergedInto_of_not_mem fun n hn => (h n hn).2]

/-- A node that replaces nothing stands for itself alone. -/
theorem Term.eq_of_mergedInto (hne : n ≠ winner) (h : x.mergedInto losers winner = .node n) :
    x = .node n := by
  cases x with
  | literal l => cases h
  | node m =>
    have hm : m.mergedInto losers winner = n := Term.node.inj h
    by_cases hmem : m ∈ losers
    · rw [Node.mergedInto_of_mem hmem] at hm
      exact absurd hm.symm hne
    · rw [Node.mergedInto_of_not_mem hmem] at hm
      rw [hm]

/-- Nodes may be replaced one after another. -/
theorem Node.mergedInto_cons :
    n.mergedInto (loser :: losers) winner =
      (n.mergedInto [loser] winner).mergedInto losers winner := by
  by_cases hn : n = loser <;> simp [mergedInto, hn]

/-- Nodes may be replaced one after another instead of all at once. -/
theorem Triple.mergedInto_cons :
    t.mergedInto (loser :: losers) winner =
      (t.mergedInto [loser] winner).mergedInto losers winner := by
  obtain ⟨s, p, o⟩ := t
  cases o <;> simp only [mergedInto, Term.mergedInto, ← Node.mergedInto_cons]

/-- No replaced node is left. -/
theorem Triple.mergedInto_ne (hwinner : winner ∉ losers) (hn : n ∈ losers) :
    (t.mergedInto losers winner).subject ≠ n ∧ (t.mergedInto losers winner).object ≠ .node n := by
  have hnode : ∀ m : Node, m.mergedInto losers winner ≠ n := by
    intro m hm
    by_cases hmem : m ∈ losers
    · rw [Node.mergedInto_of_mem hmem] at hm
      exact hwinner (hm ▸ hn)
    · rw [Node.mergedInto_of_not_mem hmem] at hm
      exact hmem (hm ▸ hn)
  refine ⟨hnode _, ?_⟩
  obtain ⟨s, p, o⟩ := t
  cases o with
  | literal l => exact fun h => nomatch h
  | node m => exact fun h => hnode m (Term.node.inj h)

end Renaming

namespace Graph

variable {g : Graph} {t u : Triple} {ts : List Triple} {f : Triple → Triple}
  {losers : List Node} {loser winner n : Node}

/-! ## Handing triples over -/

/-- A triple that is not imported is in the base after it is written. -/
theorem mem_base_insert (h : g.isImported t = false) :
    u ∈ (g.insert t).2.base ↔ u ∈ g.base ∨ u = t := by
  by_cases hu : u = t
  · subst hu
    have hmem : u ∈ (g.insert u).2 := mem_insert.2 (Or.inr rfl)
    simp only [or_true, iff_true]
    refine (mem_def.1 hmem).resolve_right fun himported => ?_
    rw [imports_insert, ← isImported_iff, h] at himported
    cases himported
  · rw [mem_base_insert_of_ne hu, or_iff_left hu]

/-- Triples are written in a new form and taken out in their old one. -/
theorem mem_base_edits_handOver (hnew : ∀ t ∈ ts, f t ∉ ts ∧ g.isImported (f t) = false) :
    u ∈ (g.edits (ts.flatMap fun t => [.add (f t), .delete t])).2.base ↔
      (u ∈ g.base ∧ u ∉ ts) ∨ ∃ t ∈ ts, f t = u := by
  induction ts generalizing g with
  | nil => simp [edits]
  | cons t ts ih =>
    obtain ⟨⟨hold, himported⟩, hrest⟩ := List.forall_mem_cons.1 hnew
    set g' := ((g.insert (f t)).2.remove t).2 with hg'
    have hstep : (g.edits ((t :: ts).flatMap fun t => [.add (f t), .delete t])).2 =
        (g'.edits (ts.flatMap fun t => [.add (f t), .delete t])).2 := rfl
    have himports : g'.imports = g.imports := by rw [hg', imports_remove, imports_insert]
    have hbase : u ∈ g'.base ↔ (u ∈ g.base ∨ u = f t) ∧ u ≠ t := by
      rw [hg', mem_base_remove, mem_base_insert himported]
    rw [hstep, ih fun v hv => ?_, hbase]
    · have hkept : u = f t → u ≠ t ∧ u ∉ ts := by
        rintro rfl
        exact not_or.1 fun h => hold (List.mem_cons.2 h)
      simp only [List.mem_cons, not_or, exists_eq_or_imp]
      grind
    · obtain ⟨hv', hi⟩ := hrest v hv
      refine ⟨fun hmem => hv' (List.mem_cons_of_mem _ hmem), ?_⟩
      rw [isImported, himports]
      exact hi

/-- Handing over those triples of the base that pass a test is taking each triple to its new form,
if the new form of the other triples is the old one. -/
theorem mem_base_edits_filter {p : Triple → Bool} {h : Triple → Triple}
    (hmoved : ∀ t, p t = true → f t = h t) (hstays : ∀ t, p t = false → h t = t)
    (hnew : ∀ t, p t = true → p (f t) = false ∧ g.isImported (f t) = false) :
    u ∈ (g.edits ((g.base.toList.filter p).flatMap fun t => [.add (f t), .delete t])).2.base ↔
      ∃ t ∈ g.base, h t = u := by
  rw [mem_base_edits_handOver fun t ht => ?_]
  · simp only [List.mem_filter, TripleSet.mem_def]
    constructor
    · rintro (⟨hbase, hkept⟩ | ⟨t, ⟨ht, hp⟩, rfl⟩)
      · exact ⟨u, hbase, hstays u (Bool.eq_false_iff.2 fun hp => hkept ⟨hbase, hp⟩)⟩
      · exact ⟨t, ht, (hmoved t hp).symm⟩
    · rintro ⟨t, ht, rfl⟩
      cases hp : p t with
      | true => exact Or.inr ⟨t, ⟨ht, hp⟩, hmoved t hp⟩
      | false =>
        rw [hstays t hp, hp]
        exact Or.inl ⟨ht, fun h => nomatch h.2⟩
  · obtain ⟨hgone, himported⟩ := hnew t (List.mem_filter.1 ht).2
    refine ⟨fun hmem => ?_, himported⟩
    rw [(List.mem_filter.1 hmem).2] at hgone
    cases hgone

/-! ## Replacing headers -/

/-- No imported triple has the node as its subject or its object. -/
def NotImported (g : Graph) (n : Node) : Prop :=
  ∀ t, g.isImported t = true → t.subject ≠ n ∧ t.object ≠ .node n

/-- Whether the imports mention a node is a matter of the imports. -/
theorem NotImported.congr {g' : Graph} (h : g.NotImported n) (himports : g'.imports = g.imports) :
    g'.NotImported n := by
  intro t ht
  rw [isImported, himports] at ht
  exact h t ht

/-- One node is replaced by another one. -/
theorem mem_base_absorb (hne : winner ≠ loser) (hwinner : g.NotImported winner) :
    u ∈ (g.absorb winner loser).2.base ↔ ∃ t ∈ g.base, t.mergedInto [loser] winner = u := by
  set g' := (g.edits (g.statementEdits loser winner)).2 with hg'
  have himports : g'.imports = g.imports := becomes_edits.imports
  have hwinner' : g'.NotImported winner := hwinner.congr himports
  have hsubject : ∀ v, v ∈ g'.base ↔
      ∃ t ∈ g.base, { t with subject := t.subject.mergedInto [loser] winner } = v := by
    intro v
    refine mem_base_edits_filter (fun t ht => ?_) (fun t ht => ?_) fun t _ => ⟨?_, ?_⟩
    · rw [Node.mergedInto_of_mem (List.mem_singleton.2 (eq_of_beq ht))]
    · rw [Node.mergedInto_of_not_mem fun h => ne_of_beq_false ht (List.mem_singleton.1 h)]
    · exact beq_false_of_ne hne
    · exact Bool.eq_false_iff.2 fun himported => (hwinner _ himported).1 rfl
  -- the second edits are those of the base that the first ones have left
  have hobject : u ∈ (g'.edits (g'.referenceEdits loser winner)).2.base ↔
      ∃ t ∈ g'.base, { t with object := t.object.mergedInto [loser] winner } = u := by
    refine mem_base_edits_filter (fun t ht => ?_) (fun t ht => ?_) fun t _ => ⟨?_, ?_⟩
    · rw [eq_of_beq ht, Term.mergedInto, Node.mergedInto_of_mem (List.mem_singleton_self _)]
    · rw [Term.mergedInto_of_not_mem fun n hn => List.mem_singleton.1 hn ▸ ne_of_beq_false ht]
    · exact beq_false_of_ne fun h => hne (Term.node.inj h)
    · exact Bool.eq_false_iff.2 fun himported => (hwinner' _ himported).2 rfl
  have habsorb : (g.absorb winner loser).2 = (g'.edits (g'.referenceEdits loser winner)).2 := rfl
  rw [habsorb, hobject]
  constructor
  · rintro ⟨v, hv, rfl⟩
    obtain ⟨t, ht, rfl⟩ := (hsubject v).1 hv
    exact ⟨t, ht, rfl⟩
  · rintro ⟨t, ht, rfl⟩
    exact ⟨_, (hsubject _).2 ⟨t, ht, rfl⟩, rfl⟩

/-- Replacing a node leaves the imports alone. -/
theorem imports_absorb : (g.absorb winner loser).2.imports = g.imports :=
  (becomes_edits.trans becomes_edits).imports

/-- Nodes are replaced one after another by one that is none of them. -/
theorem mem_base_absorbAll (hne : winner ∉ losers) (hwinner : g.NotImported winner) :
    u ∈ (g.absorbAll winner losers).2.base ↔ ∃ t ∈ g.base, t.mergedInto losers winner = u := by
  induction losers generalizing g with
  | nil =>
    have hstays : ∀ t : Triple, t.mergedInto [] winner = t := fun t =>
      Triple.mergedInto_of_not_mem fun n hn => nomatch hn
    simp [absorbAll, hstays]
  | cons loser losers ih =>
    obtain ⟨hfirst, hrest⟩ := List.ne_and_not_mem_of_not_mem_cons hne
    have hstep : (g.absorbAll winner (loser :: losers)).2 =
        ((g.absorb winner loser).2.absorbAll winner losers).2 := rfl
    have hcons : ∀ t : Triple, t.mergedInto (loser :: losers) winner =
        (t.mergedInto [loser] winner).mergedInto losers winner := fun _ => Triple.mergedInto_cons
    rw [hstep, ih hrest (hwinner.congr imports_absorb)]
    simp only [mem_base_absorb hfirst hwinner, hcons]
    constructor
    · rintro ⟨_, ⟨t, ht, rfl⟩, rfl⟩
      exact ⟨t, ht, rfl⟩
    · rintro ⟨t, ht, rfl⟩
      exact ⟨_, ⟨t, ht, rfl⟩, rfl⟩

/-- No node of the list has more statements than the one that is chosen. -/
theorem length_le_of_fullest? {ns : List Node} (h : g.fullest? ns = some winner) :
    ∀ n ∈ ns, (g.base.outgoing n).length ≤ (g.base.outgoing winner).length := by
  induction ns generalizing winner with
  | nil => cases h
  | cons m ns ih =>
    unfold fullest? at h
    cases hrest : g.fullest? ns with
    | none =>
      rw [hrest] at h
      cases h
      rw [fullest?_eq_none_iff.1 hrest]
      exact fun n hn => List.mem_singleton.1 hn ▸ Nat.le_refl _
    | some k =>
      rw [hrest] at h
      dsimp only at h
      split at h
      case isTrue hmore =>
        cases h
        exact List.forall_mem_cons.2 ⟨Nat.le_of_lt hmore, ih hrest⟩
      case isFalse hless =>
        cases h
        exact List.forall_mem_cons.2 ⟨Nat.le_refl _, fun n hn =>
          Nat.le_trans (ih hrest n hn) (Nat.le_of_not_lt hless)⟩

/-- A graph has become another one in which a header has taken the place of all other headers: it
had as many statements as any of them, the base is what it was with the others replaced by it, it
is the only header, and nothing is said about the others any more. -/
structure MergesInto (g : Graph) (winner : Node) (g' : Graph) : Prop where
  imports : g'.imports = g.imports
  mem_headers : winner ∈ g.headers
  fullest : ∀ n ∈ g.headers, (g.base.outgoing n).length ≤ (g.base.outgoing winner).length
  base : ∀ t, t ∈ g'.base ↔
    ∃ u ∈ g.base, u.mergedInto (g.headers.filter (· != winner)) winner = t
  headers : g'.headers = [winner]
  gone : ∀ n ∈ g.headers, n ≠ winner → ∀ t ∈ g'.base, t.subject ≠ n ∧ t.object ≠ .node n
  kept : ∀ t ∈ g.base, (∀ n ∈ g.headers, n ≠ winner → t.subject ≠ n ∧ t.object ≠ .node n) →
    t ∈ g'.base

/-- Replacing all other headers by one of the fullest merges the headers. -/
theorem mergesInto_absorbAll (hfullest : g.fullest? g.headers = some winner)
    (hwinner : g.NotImported winner) (hclass : .iri (.owl .Ontology) ∉ g.headers) :
    g.MergesInto winner (g.absorbAll winner (g.headers.filter (· != winner))).2 := by
  set losers := g.headers.filter (· != winner) with hlosers
  set g' := (g.absorbAll winner losers).2 with hg'
  have hheader : winner ∈ g.headers := mem_of_fullest? hfullest
  have hmem : ∀ n, n ∈ losers ↔ n ∈ g.headers ∧ n ≠ winner := by simp [hlosers]
  have hne : winner ∉ losers := fun h => ((hmem winner).1 h).2 rfl
  have hbase : ∀ t, t ∈ g'.base ↔ ∃ u ∈ g.base, u.mergedInto losers winner = t := fun t =>
    mem_base_absorbAll hne hwinner
  -- the class is neither replaced nor does it replace a header, so only headers become headers
  have honly : ∀ n ∈ g'.headers, n = winner := by
    intro n hn
    obtain ⟨⟨m, p, o⟩, hu, he⟩ := (hbase _).1 (Graph.mem_headers.1 hn)
    obtain ⟨hm, rfl, ho⟩ := Triple.mk.inj he
    have hother : .iri (.owl .Ontology) ≠ winner := fun h => hclass (h ▸ hheader)
    obtain rfl := Term.eq_of_mergedInto hother ho
    have hold : m ∈ g.headers := Graph.mem_headers.2 hu
    by_cases hmw : m = winner
    · rw [← hm, hmw]
      exact Node.mergedInto_of_not_mem hne
    · rw [← hm]
      exact Node.mergedInto_of_mem ((hmem m).2 ⟨hold, hmw⟩)
  have hstays : winner ∈ g'.headers := by
    refine Graph.mem_headers.2 ((hbase _).2 ⟨_, Graph.mem_headers.1 hheader, ?_⟩)
    refine Triple.mergedInto_of_not_mem fun n hn => ?_
    obtain ⟨hold, hnw⟩ := (hmem n).1 hn
    exact ⟨hnw.symm, fun h => hclass (Term.node.inj h ▸ hold)⟩
  have hone : g'.headers.length = 1 :=
    length_headers_of_eq (List.ne_nil_of_mem hstays) honly
  refine ⟨becomes_absorbAll.imports, hheader, length_le_of_fullest? hfullest, hbase, ?_, ?_, ?_⟩
  · obtain ⟨n, hn⟩ := List.length_eq_one_iff.1 hone
    rw [hn] at hstays ⊢
    rw [List.mem_singleton.1 hstays]
  · intro n hn hnw t ht
    obtain ⟨u, -, rfl⟩ := (hbase t).1 ht
    exact Triple.mergedInto_ne hne ((hmem n).2 ⟨hn, hnw⟩)
  · intro t ht hother
    refine (hbase t).2 ⟨t, ht, Triple.mergedInto_of_not_mem fun n hn => ?_⟩
    obtain ⟨hn, hnw⟩ := (hmem n).1 hn
    exact hother n hn hnw

end Graph

namespace Workbench

open Ontograph.Graph

variable {w : Workbench}

/-- The headers of a graph can be merged: the imports mention none of them, the class of headers is
none of them, and where there is none, no import has the header that is added. -/
structure Mergeable (w : Workbench) : Prop where
  notImported : ∀ n ∈ w.graph.headers, w.graph.NotImported n
  notClass : .iri (.owl .Ontology) ∉ w.graph.headers
  new : w.graph.headers = [] →
    w.graph.isImported (.typing w.supply.head (.owl .Ontology)) = false

/-- The headers of a graph with some are merged into one of them. -/
theorem Mergeable.mergesInto (h : w.Mergeable) (hsome : w.graph.headers ≠ []) :
    ∃ winner, w.graph.MergesInto winner w.mergeHeaders.2.graph := by
  unfold mergeHeaders
  cases hfullest : w.graph.fullest? w.graph.headers with
  | none => exact absurd (fullest?_eq_none_iff.1 hfullest) hsome
  | some winner =>
    exact ⟨winner, mergesInto_absorbAll hfullest
      (h.notImported winner (mem_of_fullest? hfullest)) h.notClass⟩

/-- A graph without a header is given one. -/
theorem Mergeable.mem_base_mergeHeaders (h : w.Mergeable) (hnone : w.graph.headers = [])
    {t : Triple} : t ∈ w.mergeHeaders.2.graph.base ↔
      t ∈ w.graph.base ∨ t = .typing w.supply.head (.owl .Ontology) := by
  have hrun : w.mergeHeaders.2.graph =
      (w.graph.insert (.typing w.supply.head (.owl .Ontology))).2 := by
    unfold mergeHeaders
    rw [fullest?_eq_none_iff.2 hnone]
    rfl
  rw [hrun, mem_base_insert (h.new hnone)]

/-- After a merge there is one header. -/
theorem Mergeable.length_headers (h : w.Mergeable) : w.mergeHeaders.2.graph.headers.length = 1 := by
  by_cases hnone : w.graph.headers = []
  · have hnew : ∀ n, n ∈ w.mergeHeaders.2.graph.headers ↔ n = w.supply.head := by
      intro n
      rw [mem_headers, h.mem_base_mergeHeaders hnone, ← mem_headers, hnone]
      simp
    exact length_headers_of_eq (List.ne_nil_of_mem ((hnew _).2 rfl)) fun n hn => (hnew n).1 hn
  · obtain ⟨winner, hmerges⟩ := h.mergesInto hnone
    rw [hmerges.headers]
    rfl

end Workbench

namespace Pipeline

open Ontograph.Graph

variable {p : Pass} {ps : Pipeline} {s : Settings} {w : Workbench} {number left : Nat}
  {before : List PassReport}

/-- All passes but the one that merges headers leave the names alone. -/
theorem supply_run (hp : p ∈ standard) (hheader : p ≠ headerPass) :
    (p.run s w).2.supply = w.supply := by
  rcases mem_standard_iff.1 hp with rfl | rfl | rfl | rfl
  · rw [run_legacyPass]
  · rw [run_typingPass]
  · exact absurd rfl hheader
  · rw [run_declarationPass]

/-- Headers that can be merged still can be after another pass. -/
theorem mergeable_run (hp : p ∈ standard) (hheader : p ≠ headerPass) (h : w.Mergeable) :
    (p.run s w).2.Mergeable := by
  have hframes : w.graph.Frames (p.run s w).2.graph := frames_run hp hheader
  constructor
  · rw [hframes.headers_eq]
    exact fun n hn => (h.notImported n hn).congr hframes.imports
  · rw [hframes.headers_eq]
    exact h.notClass
  · rw [supply_run hp hheader, hframes.isImported, hframes.headers_eq]
    exact h.new

/-- With one header, a pass that applies leaves it alone. -/
theorem length_headers_run (hp : p ∈ standard) (happlies : p.applies w.graph = true)
    (hone : w.graph.headers.length = 1) : (p.run s w).2.graph.headers.length = 1 := by
  have hheader : p ≠ headerPass := by
    rintro rfl
    simp [headerPass, hone] at happlies
  rw [(frames_run hp hheader).headers_eq, hone]

/-- One header stays one header in a round. -/
theorem length_headers_round (hps : ∀ p ∈ ps, p ∈ standard) (hone : w.graph.headers.length = 1) :
    (round s number ps w).2.graph.headers.length = 1 := by
  induction ps generalizing w with
  | nil => exact hone
  | cons p ps ih =>
    obtain ⟨hp, hrest⟩ := List.forall_mem_cons.1 hps
    unfold round
    split
    case isTrue happlies => exact ih hrest (length_headers_run hp happlies hone)
    case isFalse => exact ih hrest hone

/-- A round that merges headers ends with one header. -/
theorem length_headers_round_of_mem (hps : ∀ p ∈ ps, p ∈ standard) (hmem : headerPass ∈ ps)
    (h : w.Mergeable) : (round s number ps w).2.graph.headers.length = 1 := by
  induction ps generalizing w with
  | nil => cases hmem
  | cons p ps ih =>
    obtain ⟨hp, hrest⟩ := List.forall_mem_cons.1 hps
    unfold round
    by_cases hheader : p = headerPass
    · -- the pass merges the headers, or does not apply because there is one
      subst hheader
      split
      case isTrue =>
        have hone : (headerPass.run s w).2.graph.headers.length = 1 := by
          rw [run_headerPass]
          exact h.length_headers
        exact length_headers_round hrest hone
      case isFalse hidle =>
        refine length_headers_round hrest ?_
        simpa [headerPass] using hidle
    · have hlater : headerPass ∈ ps := (List.mem_cons.1 hmem).resolve_left fun he => hheader he.symm
      split
      case isTrue => exact ih hrest hlater (mergeable_run hp hheader h)
      case isFalse => exact ih hrest hlater h

/-- One header stays one header in a run. -/
theorem length_headers_runFrom (hps : ∀ p ∈ ps, p ∈ standard)
    (hone : w.graph.headers.length = 1) :
    (runFrom ps s number before left w).2.graph.headers.length = 1 := by
  induction left generalizing number before w with
  | zero => exact hone
  | succ left ih =>
    have hround : (round s number ps w).2.graph.headers.length = 1 :=
      length_headers_round hps hone
    unfold runFrom
    dsimp only
    split
    case isTrue => exact hround
    case isFalse => exact ih hround

/-- A normalization that merges headers leaves one, converged or not. -/
theorem length_headers_normalize (hps : ∀ p ∈ ps, p ∈ standard) (hmem : headerPass ∈ ps)
    (h : w.Mergeable) : (ps.normalize s w).2.graph.headers.length = 1 := by
  obtain ⟨left, hleft⟩ : ∃ left, max 1 s.rounds = left + 1 := ⟨max 1 s.rounds - 1, by omega⟩
  have hround : (round s 1 ps w).2.graph.headers.length = 1 :=
    length_headers_round_of_mem hps hmem h
  unfold normalize
  rw [hleft, runFrom]
  dsimp only
  split
  case isTrue => exact hround
  case isFalse => exact length_headers_runFrom hps hround

/-- **Merging headers is renaming.** Let the imports mention no header of the base, the class of
headers be none of them, and a name that is taken be new.  If the base has headers, the pass keeps
one with the most statements and replaces the others by it, wherever they are subjects or objects;
nothing else changes.  If it has none, the pass adds one triple, which types a new blank node as a
header.  So a standard normalization with any settings, converged or not, leaves one header. -/
theorem mergeHeaders_renames (s : Settings) (w : Workbench)
    (himports : ∀ n ∈ w.graph.headers, w.graph.NotImported n)
    (hclass : .iri (.owl .Ontology) ∉ w.graph.headers)
    (hnew : w.graph.headers = [] →
      ∀ t ∈ w.graph, t.subject ≠ w.supply.head ∧ t.object ≠ .node w.supply.head) :
    (w.graph.headers ≠ [] →
      ∃ winner, w.graph.MergesInto winner (headerPass.run s w).2.graph) ∧
    (w.graph.headers = [] → ∃ b : Blank,
      (∀ t ∈ w.graph, t.subject ≠ .blank b ∧ t.object ≠ .node (.blank b)) ∧
      (headerPass.run s w).2.graph.imports = w.graph.imports ∧
      ∀ t, t ∈ (headerPass.run s w).2.graph.base ↔
        t ∈ w.graph.base ∨ t = .typing (.blank b) (.owl .Ontology)) ∧
    (standard.normalize s w).2.graph.headers.length = 1 := by
  have hmergeable : w.Mergeable := by
    refine ⟨himports, hclass, fun hnone => Bool.eq_false_iff.2 fun himported => ?_⟩
    exact (hnew hnone _ (Or.inr (isImported_iff.1 himported))).1 rfl
  rw [run_headerPass]
  refine ⟨hmergeable.mergesInto, fun hnone => ⟨_, hnew hnone, ?_, fun t => ?_⟩, ?_⟩
  · exact Workbench.becomes_mergeHeaders.imports
  · exact hmergeable.mem_base_mergeHeaders hnone
  · exact length_headers_normalize (fun _ hp => hp) (by simp [standard]) hmergeable

/-- Three headers that refer to each other and to themselves, one of them blank, under an import:
the one with the most statements is kept, and what was said of all of them is said of it.  Where
the base is empty, the blank header of the import is another one than the new header. -/
theorem mergeHeaders_renames_three :
    let a : Node := .iri (.ofValue "http://example.org/a")
    let b : Node := .iri (.ofValue "http://example.org/b")
    let c : Node := .blank ⟨"c"⟩
    let d : Node := .blank ⟨"d"⟩
    let header (n : Node) : Triple := .typing n (.owl .Ontology)
    let i : Import := ⟨0, .ofList [header d]⟩
    let g : Graph :=
      { base := .ofList [header a, header b, header c, ⟨b, .rdfs .seeAlso, a⟩,
          ⟨b, .rdfs .seeAlso, c⟩, ⟨a, .rdfs .isDefinedBy, a⟩, ⟨c, .rdfs .isDefinedBy, b⟩]
        imports := [i] }
    let w : Workbench := ⟨g, ⟨"n", 0⟩⟩
    let w' : Workbench := ⟨{ imports := [i] }, ⟨"n", 0⟩⟩
    g.headers = [a, b, c] ∧ (∀ n ∈ g.headers, g.NotImported n) ∧
      g.MergesInto b (headerPass.run {} w).2.graph ∧
      (headerPass.run {} w).2.graph.base =
        .ofList [header b, ⟨b, .rdfs .seeAlso, b⟩, ⟨b, .rdfs .isDefinedBy, b⟩] ∧
      w'.graph.headers = [] ∧ (∀ t ∈ w'.graph, t.subject ≠ w'.supply.head) ∧
      (standard.normalize {} w').2.graph.headers.length = 1 := by
  intro a b c d header i g w w'
  have hheaders : g.headers = [a, b, c] := by decide +kernel
  have hbase : (headerPass.run {} w).2.graph.base =
      .ofList [header b, ⟨b, .rdfs .seeAlso, b⟩, ⟨b, .rdfs .isDefinedBy, b⟩] := by decide +kernel
  have hone : (headerPass.run {} w).2.graph.headers = [b] := by decide +kernel
  have himported : ∀ t, t ∈ i.triples → t = header d := by simp [i]
  have himports : ∀ n ∈ g.headers, g.NotImported n := by
    have hall : ∀ n ∈ [a, b, c], (header d).subject ≠ n ∧ (header d).object ≠ .node n := by
      decide +kernel
    rw [hheaders]
    intro n hn t ht
    rw [himported t (by simpa [isImported, g] using ht)]
    exact hall n hn
  have hclass : .iri (.owl .Ontology) ∉ g.headers := by decide +kernel
  have hsome : g.headers ≠ [] := by simp [hheaders]
  obtain ⟨winner, hmerges⟩ :=
    (mergeHeaders_renames {} w himports hclass fun hnone => absurd hnone hsome).1 hsome
  have hwinner : winner = b := List.head_eq_of_cons_eq (hmerges.headers.symm.trans hone)
  have hnone : w'.graph.headers = [] := by decide +kernel
  have hnew : ∀ t ∈ w'.graph, t.subject ≠ w'.supply.head ∧ t.object ≠ .node w'.supply.head := by
    intro t ht
    have hd : (header d).subject ≠ w'.supply.head ∧ (header d).object ≠ .node w'.supply.head := by
      decide +kernel
    have himport : t ∈ i.triples := by simpa [w', mem_def, TripleSet.not_mem_empty] using ht
    rw [himported t himport]
    exact hd
  have hadded := mergeHeaders_renames {} w' (by simp [hnone]) (by simp [hnone]) fun _ => hnew
  exact ⟨hheaders, himports, hwinner ▸ hmerges, hbase, hnone, fun t ht => (hnew t ht).1,
    hadded.2.2⟩

end Pipeline

end Ontograph
