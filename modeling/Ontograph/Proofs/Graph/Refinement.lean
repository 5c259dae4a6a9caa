import Mathlib.Data.Finset.Basic
import Ontograph.Graph.Lookup

/-!
# Graphs as plain sets

Seen from outside, a graph is a finite set of triples that can be written and a list of finite sets
that can only be read (`PlainGraph`).  Each change of a graph is the change of these plain sets that
its name says, with the same reply (`Graph.plain_change`), and it moves the generation on exactly if
it changes them (`Graph.moves_change`).  Each look-up is answered from the union of the sets
(`Graph.looksUp_plain`).  The main result, for all changes made one after another, is
`Graph.changes_refine`.
-/

namespace Ontograph

open TripleSet

/-! ## Plain sets -/

/-- A finite set of triples to be written, and finite sets to be read, each under its tag. -/
structure PlainGraph where
  base : Finset Triple
  imports : List (Nat × Finset Triple)
  deriving DecidableEq

/-- The triples of a set, in no order. -/
def TripleSet.toFinset (S : TripleSet) : Finset Triple := ⟨S.toList, S.nodup⟩

/-- A set of triples and its finite set have the same triples. -/
@[simp] theorem TripleSet.mem_toFinset {S : TripleSet} {t : Triple} : t ∈ S.toFinset ↔ t ∈ S :=
  Iff.rfl

/-- The plain sets of a graph. -/
def Graph.plain (g : Graph) : PlainGraph where
  base := g.base.toFinset
  imports := g.imports.map fun i => (i.tag, i.triples.toFinset)

/-- A change of a graph. -/
inductive Change
  | insert (t : Triple)
  | remove (t : Triple)
  | insertTerms (s : Term) (p : Iri) (o : Term)
  | addImport (i : Import)
  | dropImport (tag : Nat)

/-- What is replied to a change. -/
inductive Reply
  | done
  | answered (b : Bool)
  | refused (e : InvalidSubject)
  deriving DecidableEq

/-- Changes are made one after another; also lists the replies. -/
def Change.run {σ : Type} (make : σ → Change → Reply × σ) : List Change → σ → List Reply × σ
  | [], s => ([], s)
  | c :: cs, s => ((make s c).1 :: (run make cs (make s c).2).1, (run make cs (make s c).2).2)

/-- A change is made in a graph. -/
def Graph.change (g : Graph) : Change → Reply × Graph
  | .insert t => (g.insert t).map .answered id
  | .remove t => (g.remove t).map .answered id
  | .insertTerms s p o =>
    match g.insertTerms s p o with
    | .ok r => r.map .answered id
    | .error e => (.refused e, g)
  | .addImport i => (.done, g.addImport i)
  | .dropImport tag => (g.dropImport tag).map .answered id

namespace PlainGraph

variable {m : PlainGraph} {t : Triple}

/-- The triples that can only be read. -/
def imported (m : PlainGraph) : Finset Triple := m.imports.foldr (fun i S => i.2 ∪ S) ∅

/-- The triples of all sets. -/
def all (m : PlainGraph) : Finset Triple := m.base ∪ m.imported

/-- A triple can only be read if one of the sets to be read has it. -/
theorem mem_imported : t ∈ m.imported ↔ ∃ i ∈ m.imports, t ∈ i.2 := by
  unfold imported
  induction m.imports with
  | nil => simp
  | cons i is ih => simp [ih]

/-- A triple is added unless one of the sets has it. -/
def insert (m : PlainGraph) (t : Triple) : Reply × PlainGraph :=
  if t ∈ m.all then (.answered false, m)
  else (.answered true, { m with base := Insert.insert t m.base })

/-- A change is made in plain sets. -/
def change (m : PlainGraph) : Change → Reply × PlainGraph
  | .insert t => m.insert t
  | .remove t => (.answered (decide (t ∈ m.base)), { m with base := m.base.erase t })
  | .insertTerms (.node s) p o => m.insert ⟨s, p, o⟩
  | .insertTerms (.literal l) _ _ => (.refused ⟨l⟩, m)
  | .addImport i => (.done, { m with imports := m.imports ++ [(i.tag, i.triples.toFinset)] })
  | .dropImport tag =>
    (.answered (m.imports.any (·.1 == tag)),
      { m with imports := m.imports.filter (·.1 != tag) })

end PlainGraph

namespace Graph

variable {g : Graph} {t : Triple}

/-- The plain sets to be read have what the graph imports. -/
theorem mem_imported_plain : t ∈ g.plain.imported ↔ g.isImported t = true := by
  simp [PlainGraph.mem_imported, plain]

/-- The plain sets have the triples of the graph. -/
theorem mem_all_plain : t ∈ g.plain.all ↔ t ∈ g := by
  rw [PlainGraph.all, Finset.mem_union, mem_imported_plain, isImported_iff, mem_def]
  rfl

/-! ## Changes -/

/-- An insertion does and answers what it does in plain sets. -/
theorem plain_insert :
    (g.plain.insert t).1 = .answered (g.insert t).1 ∧
      (g.insert t).2.plain = (g.plain.insert t).2 := by
  unfold Graph.insert PlainGraph.insert
  have hheld : t ∈ g.plain.all ↔ g.contains t = true := mem_all_plain.trans contains_iff.symm
  simp only [hheld]
  split
  case isTrue => exact ⟨rfl, rfl⟩
  case isFalse =>
    have hbase : (g.base.insert t).toFinset = Insert.insert t g.base.toFinset := by
      ext u
      simp [or_comm]
    simp [plain, hbase]

/-- A removal does and answers what it does in plain sets. -/
theorem plain_remove :
    decide (t ∈ g.base.toFinset) = (g.remove t).1 ∧
      (g.remove t).2.plain = { g.plain with base := g.base.toFinset.erase t } := by
  unfold remove
  split
  case isTrue h =>
    have hbase : (g.base.erase t).toFinset = g.base.toFinset.erase t := by
      ext u
      simp [and_comm]
    simp [plain, hbase, h]
  case isFalse h => simp [plain, h]

/-- Dropping imports does and answers what it does in plain sets. -/
theorem plain_dropImport {tag : Nat} :
    g.plain.imports.any (·.1 == tag) = (g.dropImport tag).1 ∧
      (g.dropImport tag).2.plain =
        { g.plain with imports := g.plain.imports.filter (·.1 != tag) } := by
  have hany : g.plain.imports.any (·.1 == tag) = g.imports.any (·.tag == tag) := by
    simp only [plain, List.any_map]
    rfl
  have hfilter : g.plain.imports.filter (·.1 != tag) =
      (g.imports.filter (·.tag != tag)).map fun i => (i.tag, i.triples.toFinset) := by
    simp only [plain, List.filter_map]
    rfl
  rw [hany, hfilter]
  unfold dropImport
  split
  case isTrue h => exact ⟨h, rfl⟩
  case isFalse h =>
    have hall : g.imports.filter (·.tag != tag) = g.imports := by
      refine List.filter_eq_self.2 fun i hi => ?_
      simpa using fun e => h (List.any_eq_true.2 ⟨i, hi, by simp [e]⟩)
    rw [hall]
    exact ⟨Bool.eq_false_iff.2 h, rfl⟩

/-- A change of a graph is the change of its plain sets. -/
theorem plain_change (c : Change) :
    (g.change c).1 = (g.plain.change c).1 ∧ (g.change c).2.plain = (g.plain.change c).2 := by
  cases c with
  | insert t => exact ⟨plain_insert.1.symm, plain_insert.2⟩
  | remove t => exact ⟨congrArg Reply.answered plain_remove.1.symm, plain_remove.2⟩
  | insertTerms s p o =>
    cases s with
    | literal l => exact ⟨rfl, rfl⟩
    | node s => exact ⟨plain_insert.1.symm, plain_insert.2⟩
  | addImport i => simp [change, PlainGraph.change, addImport, plain]
  | dropImport tag =>
    exact ⟨congrArg Reply.answered plain_dropImport.1.symm, plain_dropImport.2⟩

/-- A graph stays as it is, or its plain sets change and its generation moves on. -/
def Moves (g g' : Graph) : Prop :=
  g' = g ∨ (g'.plain ≠ g.plain ∧ g.generation < g'.generation)

/-- An insertion moves the generation on exactly if it changes the plain sets. -/
theorem moves_insert : g.Moves (g.insert t).2 := by
  unfold Graph.insert
  split
  case isTrue => exact Or.inl rfl
  case isFalse h =>
    refine Or.inr ⟨fun hsame => h (contains_iff.2 (Or.inl ?_)), Nat.lt_succ_self _⟩
    have hbase : (g.base.insert t).toFinset = g.base.toFinset := congrArg PlainGraph.base hsame
    have ht : t ∈ (g.base.insert t).toFinset := TripleSet.mem_insert.2 (Or.inr rfl)
    exact mem_toFinset.1 (hbase ▸ ht)

/-- A removal moves the generation on exactly if it changes the plain sets. -/
theorem moves_remove : g.Moves (g.remove t).2 := by
  unfold remove
  split
  case isTrue h =>
    refine Or.inr ⟨fun hsame => ?_, Nat.lt_succ_self _⟩
    have hbase : (g.base.erase t).toFinset = g.base.toFinset := congrArg PlainGraph.base hsame
    have ht : t ∈ (g.base.erase t).toFinset := hbase ▸ mem_toFinset.2 h
    exact (mem_erase.1 (mem_toFinset.1 ht)).2 rfl
  case isFalse => exact Or.inl rfl

/-- Another number of imports is a change. -/
theorem moves_of_length {is : List Import} (h : is.length ≠ g.imports.length) :
    g.Moves { g with imports := is, generation := g.generation + 1 } := by
  refine Or.inr ⟨fun hsame => h ?_, Nat.lt_succ_self _⟩
  simpa [plain] using congrArg (fun m : PlainGraph => m.imports.length) hsame

/-- Dropping imports moves the generation on exactly if it changes the plain sets. -/
theorem moves_dropImport {tag : Nat} : g.Moves (g.dropImport tag).2 := by
  unfold dropImport
  split
  case isTrue h =>
    obtain ⟨i, hi, htag⟩ := List.any_eq_true.1 h
    exact moves_of_length (Nat.ne_of_lt
      (List.length_filter_lt_length_iff_exists.2 ⟨i, hi, by simpa using htag⟩))
  case isFalse => exact Or.inl rfl

/-- A change leaves a graph as it is, or it changes the plain sets and moves the generation on. -/
theorem moves_change (c : Change) : g.Moves (g.change c).2 := by
  cases c with
  | insert t => exact moves_insert
  | remove t => exact moves_remove
  | insertTerms s p o =>
    cases s with
    | literal l => exact Or.inl rfl
    | node s => exact moves_insert
  | addImport i => exact moves_of_length (by simp)
  | dropImport tag => exact moves_dropImport

/-! ## Look-ups -/

/-- The look-ups of a graph are answered from plain sets: each pattern finds, once each, the triples
of the union that it admits, and every other look-up answers what its pattern finds. -/
structure LooksUp (g : Graph) (m : PlainGraph) : Prop where
  nodup_find : ∀ q, (g.find q).Nodup
  mem_find : ∀ q t, t ∈ g.find q ↔ t ∈ m.all ∧ q.admits t = true
  size : g.size = (g.find ⟨none, none, none⟩).length
  contains : ∀ t, g.contains t = !(g.find (.only t)).isEmpty
  objects : ∀ s p, g.objects s p = (g.find ⟨some s, some p, none⟩).map Triple.object
  object? : ∀ s p, g.object? s p = (g.find ⟨some s, some p, none⟩).head?.map Triple.object
  subjects : ∀ p o, g.subjects p o = (g.find ⟨none, some p, some o⟩).map Triple.subject
  types : ∀ s, g.types s =
    (g.find ⟨some s, some (.rdf .type), none⟩).filterMap fun t => t.object.iri?
  hasSubject : ∀ p o, g.hasSubject p o = !(g.find ⟨none, some p, some o⟩).isEmpty
  hasProperty : ∀ s p, g.hasProperty s p = !(g.find ⟨some s, some p, none⟩).isEmpty
  hasType : ∀ s c, g.hasType s c = !(g.find (.only ⟨s, .rdf .type, c⟩)).isEmpty
  anyUsing : ∀ p f, g.anyUsing p f = (g.find ⟨none, some p, none⟩).any f
  anyWithObject : ∀ o f, g.anyWithObject o f = (g.find ⟨none, none, some o⟩).any f
  isImported : ∀ t, g.isImported t = !(({ g with base := ∅ } : Graph).find (.only t)).isEmpty
  mem_find_imports : ∀ q t, t ∈ ({ g with base := ∅ } : Graph).find q ↔
    t ∈ m.imported ∧ q.admits t = true

/-- A graph has a triple if the pattern made for it finds something. -/
theorem contains_eq_find : g.contains t = !(g.find (.only t)).isEmpty := by
  rw [Bool.eq_iff_iff, contains_iff, Bool.not_eq_true', List.isEmpty_eq_false_iff_exists_mem]
  simp only [Graph.mem_find, Pattern.admits_only, exists_eq_right]

/-- What is imported is what is left without the base. -/
theorem mem_without_base : t ∈ ({ g with base := ∅ } : Graph) ↔ g.isImported t = true := by
  rw [mem_def, isImported_iff]
  exact or_iff_right not_mem_empty

/-- The look-ups of a graph are answered from its plain sets. -/
theorem looksUp_plain : g.LooksUp g.plain where
  nodup_find _ := Graph.nodup_find
  mem_find q t := by rw [Graph.mem_find, mem_all_plain]
  size := by
    rw [size_eq, find_eq, ← search_eq]
    rfl
  contains _ := contains_eq_find
  objects _ _ := rfl
  object? _ _ := by rw [object?_eq, object?_eq_find, find_eq]
  subjects _ _ := rfl
  types s := by
    rw [types, objects, List.filterMap_map]
    rfl
  hasSubject _ _ := by rw [hasSubject_eq, hasSubject_eq_find, find_eq]
  hasProperty _ _ := by rw [hasProperty_eq, hasProperty_eq_find, find_eq]
  hasType _ _ := contains_eq_find
  anyUsing _ _ := by rw [anyUsing_eq, uses_eq_find, find_eq]
  anyWithObject _ _ := by rw [anyWithObject_eq, incoming_eq_find, find_eq]
  isImported t := by
    rw [← contains_eq_find, Bool.eq_iff_iff, contains_iff, mem_without_base]
  mem_find_imports q t := by rw [Graph.mem_find, mem_without_base, mem_imported_plain]

/-- The plain sets run along with a graph, with the same replies. -/
theorem plain_run (cs : List Change) :
    (Change.run PlainGraph.change cs g.plain).1 = (Change.run change cs g).1 ∧
      (Change.run PlainGraph.change cs g.plain).2 = (Change.run change cs g).2.plain := by
  induction cs generalizing g with
  | nil => exact ⟨rfl, rfl⟩
  | cons c cs ih =>
    obtain ⟨hreply, hplain⟩ := plain_change (g := g) c
    obtain ⟨hreplies, hrest⟩ := ih (g := (g.change c).2)
    rw [hplain] at hreplies hrest
    exact ⟨congrArg₂ List.cons hreply.symm hreplies, hrest⟩

/-- **A graph is its plain sets.** Changes made one after another in any graph get the replies that
they get in its plain sets, and lead to a graph whose plain sets are those that they lead to.  There
each look-up is answered from the plain sets.  A further change that leaves the plain sets as they
are leaves the graph as it is, with its generation; any other change moves the generation on. -/
theorem changes_refine (g : Graph) (cs : List Change) :
    let made := Change.run change cs g
    let plainly := Change.run PlainGraph.change cs g.plain
    made.1 = plainly.1 ∧ made.2.plain = plainly.2 ∧ made.2.LooksUp plainly.2 ∧
      ∀ c, (made.2.change c).2.plain = (plainly.2.change c).2 ∧
        ((plainly.2.change c).2 = plainly.2 → (made.2.change c).2 = made.2) ∧
        ((plainly.2.change c).2 ≠ plainly.2 →
          made.2.generation < (made.2.change c).2.generation) := by
  intro made plainly
  obtain ⟨hreplies, hplain⟩ := plain_run (g := g) cs
  refine ⟨hreplies.symm, hplain.symm, hplain ▸ looksUp_plain, fun c => ?_⟩
  have hstep : (made.2.change c).2.plain = (plainly.2.change c).2 := by
    rw [(plain_change c).2, hplain]
  have hsame : (plainly.2.change c).2 = plainly.2 ↔ (made.2.change c).2.plain = made.2.plain := by
    rw [← hstep, hplain]
  rw [ne_eq, hsame]
  refine ⟨hstep, fun h => ?_, fun h => ?_⟩
  · exact (moves_change c).resolve_right fun hmoved => hmoved.1 h
  · exact ((moves_change c).resolve_left fun hstays => h (congrArg plain hstays)).2

/-- A triple that the base and an import added twice hold is there once.  Taken out of the base it
is still there, so it is not written again before the import is dropped. -/
example :
    let n : Node := .iri (.ofValue "http://example.org/n")
    let t : Triple := .typing n (.owl .Class)
    let i : Import := ⟨0, .ofList [t]⟩
    let g : Graph := { base := .ofList [t], imports := [i, i] }
    g.find ⟨none, none, none⟩ = [t] ∧
      (Change.run change [.remove t, .insert t, .dropImport 0, .insert t] g).1 =
        [.answered true, .answered false, .answered true, .answered true] := by
  decide +kernel

end Graph

end Ontograph
