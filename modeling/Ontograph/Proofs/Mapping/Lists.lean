import Mathlib.Tactic.Tauto
import Ontograph.Proofs.Graph.Cells
import Ontograph.Proofs.Mapping.Fresh
import Ontograph.Proofs.Mapping.Reading

/-!
# Writing and reading lists and numbers

The steps of writing answer with a draft that has grown by some triples about new nodes
(`Draft.Grows`).  A list that was written is read back item by item, and the triples gathered are
those of its cells; a cardinality that was written is read back as the same number.
-/

namespace Ontograph

open Reading

/-! ## Steps of writing -/

/-- Does the triple say that its subject stands for a triple about another node? -/
def Triple.reifies (t : Triple) : Bool :=
  t.predicate == .owl .annotatedSource && !t.object.isLiteral

/-- From one draft to another some triples are written, about nodes taken in between that stand for
no triple. -/
structure Draft.Grows (d d' : Draft) (ts : List Triple) : Prop
    extends d.supply.Covers d'.supply ts where
  mem_iff : ∀ t, t ∈ d'.triples ↔ t ∈ d.triples ∨ t ∈ ts
  reifies : ∀ t ∈ ts, t.reifies = false

namespace Draft

variable {d d₁ d₃ d' : Draft} {ts us early own own' inner : List Triple}

/-- A draft grows by nothing. -/
theorem Grows.refl (d : Draft) : d.Grows d [] := ⟨Supply.covers_nil .refl, by simp, by simp⟩

/-- One part is written after another. -/
theorem Grows.append (h : d.Grows d₁ ts) (h' : d₁.Grows d' us) : d.Grows d' (ts ++ us) := by
  refine ⟨h.toCovers.append h'.toCovers, fun t => ?_, fun t ht => ?_⟩
  · rw [h'.mem_iff, h.mem_iff, List.mem_append, or_assoc]
  · exact (List.mem_append.1 ht).elim (h.reifies t) (h'.reifies t)

/-- Some parts are written, then a node is taken and described, before and after the parts inside
of it are written. -/
theorem Grows.build (hearly : d.Grows d₁ early)
    (hinner : Grows ⟨d₁.supply.tail, d₁.triples ++ own⟩ d₃ inner)
    (hown : ∀ t ∈ own ++ own', t.subject = d₁.supply.head)
    (hreifies : ∀ t ∈ own ++ own', t.reifies = false) :
    d.Grows ⟨d₃.supply, d₃.triples ++ own'⟩ (early ++ (own ++ own') ++ inner) := by
  refine ⟨hearly.toCovers.build hown hinner.toCovers, fun t => ?_, fun t ht => ?_⟩
  · simp only [List.mem_append, hinner.mem_iff, hearly.mem_iff]
    tauto
  · rcases List.mem_append.1 ht with ht | ht
    · exact (List.mem_append.1 ht).elim (hearly.reifies t) (hreifies t)
    · exact hinner.reifies t ht

/-- A node is taken and described. -/
theorem grows_node (own : List Triple) (hown : ∀ t ∈ own, t.subject = d.supply.head)
    (hreifies : ∀ t ∈ own, t.reifies = false) :
    d.Grows ⟨d.supply.tail, d.triples ++ own⟩ own := by
  refine ⟨?_, fun t => List.mem_append, hreifies⟩
  have h := (Supply.covers_nil (.refl (s := d.supply))).build hown
    (Supply.covers_nil (.refl (s := d.supply.tail)))
  simpa using h

/-- A node is taken and described after some parts were written. -/
theorem Grows.node (hearly : d.Grows d₁ early) (hown : ∀ t ∈ own, t.subject = d₁.supply.head)
    (hreifies : ∀ t ∈ own, t.reifies = false) :
    d.Grows ⟨d₁.supply.tail, d₁.triples ++ own⟩ (early ++ own) :=
  hearly.append (grows_node own hown hreifies)

end Draft

namespace Drafting

variable {α β : Type} {m : Drafting α} {f : α → Drafting β} {d d' : Draft} {a : α}
  {s : Node} {p c : Iri} {o : Term}

/-- Two steps succeed if each of them does. -/
theorem bind_eq_ok_iff {r : β × Draft} :
    (m >>= f) d = .ok r ↔ ∃ a d₁, m d = .ok (a, d₁) ∧ f a d₁ = .ok r := by
  have hbind : (m >>= f) d = (m d).bind fun x => f x.1 x.2 := rfl
  rw [hbind]
  cases m d with
  | error e => simp [Except.bind]
  | ok x =>
    obtain ⟨a, d₁⟩ := x
    simp only [Except.bind, Except.ok.injEq, Prod.mk.injEq]
    constructor
    · intro h
      exact ⟨a, d₁, ⟨rfl, rfl⟩, h⟩
    · rintro ⟨_, _, ⟨rfl, rfl⟩, h⟩
      exact h

/-- A step that only answers leaves the draft as it is. -/
theorem pure_eq_ok_iff {b : α} : (pure a : Drafting α) d = .ok (b, d') ↔ a = b ∧ d = d' := by
  have h : (pure a : Drafting α) d = .ok (a, d) := rfl
  rw [h, Except.ok.injEq, Prod.mk.injEq]

/-- Writing a triple puts it at the end of the draft. -/
theorem emit_eq_ok_iff {u : Unit} :
    emit s p o d = .ok (u, d') ↔ ⟨d.supply, d.triples ++ [⟨s, p, o⟩]⟩ = d' := by
  have h : emit s p o d = .ok ((), ⟨d.supply, d.triples ++ [⟨s, p, o⟩]⟩) := rfl
  rw [h, Except.ok.injEq, Prod.mk.injEq]
  exact and_iff_right rfl

/-- A new node is the next one of the supply. -/
theorem fresh_eq_ok_iff {n : Node} :
    fresh d = .ok (n, d') ↔ d.supply.head = n ∧ ⟨d.supply.tail, d.triples⟩ = d' := by
  have h : fresh d = .ok (d.supply.head, ⟨d.supply.tail, d.triples⟩) := rfl
  rw [h, Except.ok.injEq, Prod.mk.injEq]

/-- A new node that is typed is the next one, and its type is written. -/
theorem freshOf_eq_ok_iff {n : Node} :
    freshOf c d = .ok (n, d') ↔ d.supply.head = n ∧
      ⟨d.supply.tail, d.triples ++ [.typing d.supply.head c]⟩ = d' := by
  have h : freshOf c d =
      .ok (d.supply.head, ⟨d.supply.tail, d.triples ++ [.typing d.supply.head c]⟩) := rfl
  rw [h, Except.ok.injEq, Prod.mk.injEq]

/-- A demand that is met writes nothing. -/
theorem atLeast_eq_ok_iff {least found : Nat} {u : Unit} :
    atLeast least found d = .ok (u, d') ↔ least ≤ found ∧ d = d' := by
  unfold atLeast
  split
  case isTrue h =>
    have hrefuse : (refuse (.tooFew least found) : Drafting Unit) d =
        .error (.tooFew least found) := rfl
    rw [hrefuse]
    simp only [reduceCtorEq, false_iff]
    omega
  case isFalse h =>
    rw [pure_eq_ok_iff]
    simp only [true_and]
    have hle : least ≤ found := by omega
    simp [hle]

end Drafting

open Drafting

/-! ## Lists -/

/-- A list with one more item is written as the rest of it, and then a cell. -/
theorem exists_rest_of_encodeList {x head : Term} {xs : List Term}
    (h : encodeList (x :: xs) d = .ok (head, d')) :
    ∃ rest d₁, encodeList xs d = .ok (rest, d₁) ∧ head = .node d₁.supply.head ∧
      d' = ⟨d₁.supply.tail, d₁.triples ++
        [⟨d₁.supply.head, .rdf .first, x⟩, ⟨d₁.supply.head, .rdf .rest, rest⟩]⟩ := by
  obtain ⟨rest, d₁, hrest, h⟩ := bind_eq_ok_iff.1 h
  obtain ⟨cell, d₂, hcell, h⟩ := bind_eq_ok_iff.1 h
  obtain ⟨rfl, rfl⟩ := fresh_eq_ok_iff.1 hcell
  obtain ⟨_, d₃, hfirst, h⟩ := bind_eq_ok_iff.1 h
  obtain rfl := emit_eq_ok_iff.1 hfirst
  obtain ⟨_, d₄, hnext, h⟩ := bind_eq_ok_iff.1 h
  obtain rfl := emit_eq_ok_iff.1 hnext
  obtain ⟨rfl, rfl⟩ := pure_eq_ok_iff.1 h
  exact ⟨rest, d₁, hrest, rfl, by rw [List.append_assoc]; rfl⟩

section Cells

variable {S : TripleSet} {n : Node} {x rest : Term} {xs : List Term} {limit : Nat}
  {visited : List Node}

/-- A cell that was written is read, and then the rest of the list. -/
theorem TripleSet.Tells.readCells_cell (hnil : n ≠ .iri (.rdf .nil))
    (h : S.Tells n [⟨n, .rdf .first, x⟩, ⟨n, .rdf .rest, rest⟩]) (hnew : n ∉ visited)
    (hlimit : visited.length < limit)
    (hxs : S.readCells (some limit) (n :: visited) rest = .ok xs) :
    S.readCells (some limit) visited (.node n) = .ok (x :: xs) := by
  have hfirst := h.object?_eq (p := .rdf .first) (o := x) (by decide) (by simp) (by simp)
  have hnext := h.object?_eq (p := .rdf .rest) (o := rest) (by decide) (by simp) (by simp)
  refine readCells_eq_ok_iff.2 (Or.inr ⟨n, x, rest, xs, rfl, hnil, hnew, ?_, hfirst, hnext, hxs,
    rfl⟩)
  rintro l ⟨⟩
  exact hlimit

/-- The triples of a cell that was written are its own two and those of the rest of the list. -/
theorem TripleSet.Tells.mem_cellTriples_iff {t : Triple}
    (h : S.Tells n [⟨n, .rdf .first, x⟩, ⟨n, .rdf .rest, rest⟩]) (hnew : n ∉ visited)
    (hlimit : visited.length < limit) : t ∈ S.cellTriples limit visited (.node n) ↔
      t ∈ S.cellTriples limit (n :: visited) rest ∨
        t ∈ [⟨n, .rdf .first, x⟩, ⟨n, .rdf .rest, rest⟩] := by
  have hfirst := statements_eq_singleton (h.mem ⟨n, .rdf .first, x⟩ (by simp)) fun o ho => by
    simpa using h.only _ ho rfl rfl
  have hnext := statements_eq_singleton (h.mem ⟨n, .rdf .rest, rest⟩ (by simp)) fun o ho => by
    simpa using h.only _ ho rfl rfl
  rw [cellTriples_cell hlimit hnew hfirst hnext]
  simp only [List.mem_cons, List.not_mem_nil, or_false]
  tauto

end Cells

/-- A list that was written reads back, cell by cell. -/
theorem readCells_of_encodeList {xs : List Term} {d d' : Draft} {head : Term}
    (h : encodeList xs d = .ok (head, d')) :
    ∃ ts, d.Grows d' ts ∧
      (∀ t ∈ ts, t.predicate = .rdf .first ∨ t.predicate = .rdf .rest) ∧
      ∀ (S : TripleSet) (limit : Nat) (visited : List Node), S.NilEnds →
        S.Holds d.supply d'.supply none ts → visited.length + xs.length ≤ limit →
        (∀ n ∈ visited, ¬ d.supply.Makes d'.supply n) →
        S.readCells (some limit) visited head = .ok xs ∧
          ∀ t, t ∈ S.cellTriples limit visited head ↔ t ∈ ts := by
  induction xs generalizing d' head with
  | nil =>
    obtain ⟨rfl, rfl⟩ := pure_eq_ok_iff.1 h
    refine ⟨[], (.refl _), by simp, fun S limit visited hnil _ _ _ => ⟨?_, ?_⟩⟩
    · exact TripleSet.readCells_eq_ok_iff.2 (Or.inl ⟨rfl, rfl⟩)
    · intro t
      rw [hnil.cellTriples_nil]
  | cons x xs ih =>
    obtain ⟨rest, d₁, hrest, rfl, rfl⟩ := exists_rest_of_encodeList h
    obtain ⟨ts, hts, hpred, hread⟩ := ih hrest
    have hown := Draft.grows_node (d := d₁)
      [⟨d₁.supply.head, .rdf .first, x⟩, ⟨d₁.supply.head, .rdf .rest, rest⟩] (by simp)
      (by simp [Triple.reifies])
    refine ⟨ts ++ _, hts.append hown, ?_, ?_⟩
    · intro t ht
      rcases List.mem_append.1 ht with ht | ht
      · exact hpred t ht
      · simp only [List.mem_cons, List.not_mem_nil, or_false] at ht
        rcases ht with rfl | rfl
        · exact Or.inl rfl
        · exact Or.inr rfl
    · intro S limit visited hnil hS hlimit hvisited
      rw [List.length_cons] at hlimit
      have hnew : d₁.supply.head ∉ visited := fun hmem =>
        hvisited _ hmem (Supply.makes_head_tail.mono hts.toPrecedes .refl)
      have htells : S.Tells d₁.supply.head
          [⟨d₁.supply.head, .rdf .first, x⟩, ⟨d₁.supply.head, .rdf .rest, rest⟩] := by
        rw [← List.append_nil (ts ++ _)] at hS
        exact hS.tells hts.toCovers (Supply.covers_nil .refl)
      -- the cell is taken after the rest is written, so the rest does not come back to it
      have hvisited' : ∀ n ∈ d₁.supply.head :: visited, ¬ d.supply.Makes d₁.supply n := by
        intro n hn hmade
        rcases List.mem_cons.1 hn with rfl | hn
        · exact hmade.ne_head hts.toPrecedes rfl
        · exact hvisited n hn (hmade.mono .refl Supply.precedes_tail)
      obtain ⟨hxs, hmem⟩ := hread S limit (d₁.supply.head :: visited) hnil
        (hS.left hts.toCovers hown.toCovers) (by rw [List.length_cons]; omega) hvisited'
      constructor
      · exact htells.readCells_cell (fun he => nomatch he) hnew (by omega) hxs
      · intro t
        rw [htells.mem_cellTriples_iff hnew (by omega), hmem, List.mem_append]

/-- A list that was written is read, and its cells are gathered. -/
theorem yields_list_of_encodeList {xs : List Term} {d d' : Draft} {head : Term}
    (h : encodeList xs d = .ok (head, d')) :
    ∃ ts, d.Grows d' ts ∧
      (∀ t ∈ ts, t.predicate = .rdf .first ∨ t.predicate = .rdf .rest) ∧
      ∀ R : Source, R.triples.NilEnds → R.triples.Holds d.supply d'.supply none ts →
        xs.length ≤ R.settings.listLimit → Yields (R.list head) xs ts := by
  obtain ⟨ts, hts, hpred, hread⟩ := readCells_of_encodeList h
  refine ⟨ts, hts, hpred, fun R hnil hR hlen => ?_⟩
  obtain ⟨hxs, hmem⟩ := hread R.triples R.settings.listLimit [] hnil hR (by simpa using hlen)
    (by simp)
  have hitems : (R.triples.readList R.settings.listLimit head).toOption = some xs := by
    rw [TripleSet.readList, hxs]
    rfl
  unfold Source.list
  refine (yields_lift hitems).bind_nil (Yields.congr _ ?_ hmem)
  exact yields_gather.map (g := fun _ => xs)

/-! ## Numbers -/

/-- A cardinality that was written reads back. -/
theorem cardinality?_ofNat (n : UInt32) :
    Source.cardinality? (Literal.ofNat n.toNat) = some n := by
  have hvalue : (Literal.ofNat n.toNat).value.toList = Nat.toDigits 10 n.toNat := by
    simp [Literal.ofNat, Literal.ofType, Literal.value]
  have hdigit : ∀ c ∈ Nat.toDigits 10 n.toNat, c.isDigit = true := fun c hc =>
    Nat.isDigit_of_mem_toDigits (by decide) (by decide) hc
  have hfold : (Nat.toDigits 10 n.toNat).foldl
      (fun n c => 10 * n + (c.toNat - '0'.toNat)) 0 = n.toNat :=
    Nat.ofDigitChars_ten_toDigits
  unfold Source.cardinality?
  rw [hvalue]
  have hplus : ∀ rest, Nat.toDigits 10 n.toNat ≠ '+' :: rest := by
    intro rest heq
    have hbad := hdigit '+' (by rw [heq]; exact List.mem_cons_self)
    exact absurd hbad (by decide)
  dsimp only
  split
  case h_1 rest heq => exact absurd heq (hplus rest)
  rw [if_neg]
  · rw [hfold, if_pos n.toNat_lt_size, UInt32.ofNat_toNat]
  · have hall : (Nat.toDigits 10 n.toNat).all Char.isDigit = true := List.all_eq_true.2 hdigit
    have hempty : (Nat.toDigits 10 n.toNat).isEmpty = false := by
      rw [List.isEmpty_eq_false_iff]
      exact Nat.toDigits_ne_nil
    rw [hall, hempty]
    decide

end Ontograph
