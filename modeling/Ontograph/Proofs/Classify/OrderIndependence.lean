import Ontograph.Proofs.Classify.Completeness
import Ontograph.Proofs.Graph.Sameness

/-!
# Classification does not depend on the order of the triples

In what order a search follows its leads depends on the order of the triples, and so does what it
remembers on the way.  The category of a term does not: in two sets with the same triples, which
leave no choice, the same questions are settled (`TripleSet.Alike.settled?`) and the same questions
are consulted (`TripleSet.Alike.consults`), so the same categories are derivable.
-/

namespace Ontograph

namespace TripleSet.Alike

variable {S T : TripleSet} {n m : Node} {p : Iri} {q r : Question}

/-! ## The triples around a node -/

/-- Whether a node enumerates literals does not depend on the order of triples. -/
theorem enumeratesLiterals? (h : S.Alike T) :
    S.enumeratesLiterals? n = T.enumeratesLiterals? n := by
  have hitems : S.items = T.items := funext fun _ => h.items
  rw [TripleSet.enumeratesLiterals?, TripleSet.enumeratesLiterals?,
    h.object? (by simp [readOnce]), hitems]

/-- Whether a property is declared of another sort does not depend on the order. -/
theorem isDeclaredOtherwise (h : S.Alike T) :
    S.isDeclaredOtherwise n p = T.isDeclaredOtherwise n p := by
  simp only [TripleSet.isDeclaredOtherwise, h.hasType]

/-- Whether a node is the root of annotations does not depend on the order. -/
theorem isAnnotationRoot (h : S.Alike T) : S.isAnnotationRoot n = T.isAnnotationRoot n := by
  simp only [TripleSet.isAnnotationRoot, h.hasType]

/-- Whether a node looks like a class does not depend on the order. -/
theorem looksLikeClass (h : S.Alike T) : S.looksLikeClass n = T.looksLikeClass n := by
  simp only [TripleSet.looksLikeClass, h.hasType, h.hasProperty, h.hasSubject,
    h.enumeratesLiterals?, any_eq_of_mem_iff h.mem_listLinks]

/-- Whether a node is typed as an object property does not depend on the order. -/
theorem isTypedObjectProperty (h : S.Alike T) :
    S.isTypedObjectProperty n = T.isTypedObjectProperty n := by
  simp only [TripleSet.isTypedObjectProperty, h.hasType]

/-- Whether a node looks like an object property does not depend on the order. -/
theorem looksLikeObjectProperty (h : S.Alike T) :
    S.looksLikeObjectProperty n = T.looksLikeObjectProperty n := by
  simp only [TripleSet.looksLikeObjectProperty, h.hasProperty, h.hasSubject,
    any_eq_of_mem_iff h.mem_subjects, any_eq_of_mem_iff h.mem_objects,
    any_eq_of_mem_iff h.mem_listLinks]

/-- Whether a node looks like a data property does not depend on the order. -/
theorem looksLikeDataProperty (h : S.Alike T) :
    S.looksLikeDataProperty n = T.looksLikeDataProperty n := by
  simp only [TripleSet.looksLikeDataProperty, h.hasProperty, any_eq_of_mem_iff h.mem_subjects,
    any_eq_of_mem_iff h.mem_objects]

/-- Whether an IRI looks like an annotation property does not depend on the order. -/
theorem looksLikeAnnotationProperty (h : S.Alike T) :
    S.looksLikeAnnotationProperty p = T.looksLikeAnnotationProperty p := by
  simp only [TripleSet.looksLikeAnnotationProperty, h.isAnnotationRoot]
  exact any_eq_of_mem_iff h.mem

/-- Whether a node looks like a datatype does not depend on the order. -/
theorem looksLikeDatatype (h : S.Alike T) : S.looksLikeDatatype n = T.looksLikeDatatype n := by
  simp only [TripleSet.looksLikeDatatype, h.hasType, h.hasProperty, h.hasSubject,
    h.enumeratesLiterals?]

/-- Whether a node looks like an individual does not depend on the order. -/
theorem looksLikeIndividual (h : S.Alike T) :
    S.looksLikeIndividual n = T.looksLikeIndividual n := by
  simp only [TripleSet.looksLikeIndividual, h.hasType, h.hasSubject,
    any_eq_of_mem_iff h.mem_outgoing, any_eq_of_mem_iff h.mem_listLinks]

/-- The same questions are settled, with the same answers. -/
theorem settled? (h : S.Alike T) : S.settled? q = T.settled? q := by
  simp only [TripleSet.settled?, h.looksLikeClass, h.isTypedObjectProperty, h.isDeclaredOtherwise,
    h.looksLikeObjectProperty, h.hasType, h.looksLikeDataProperty, h.looksLikeAnnotationProperty,
    h.looksLikeDatatype, h.looksLikeIndividual]

/-- Whether a question is ruled out does not depend on the order. -/
theorem ruledOut (h : S.Alike T) : S.RuledOut q ↔ T.RuledOut q := by
  rw [← settled?_eq_false_iff, ← settled?_eq_false_iff, h.settled?]

/-! ## The rules of evidence -/

/-- Two nodes that are linked are so in whatever order. -/
theorem links (h : S.Alike T) (hl : S.Links p n m) : T.Links p n m :=
  hl.imp (h.mem _).1 (h.mem _).1

/-- A restriction has its fillers in whatever order. -/
theorem fills (h : S.Alike T) {x : Term} (hf : S.Fills n x) : T.Fills n x :=
  hf.imp fun _ => (h.mem _).1

/-- A question consults the same questions in both sets. -/
theorem consults (h : S.Alike T) (hc : S.Consults q r) : T.Consults q r := by
  have hmem := fun t => (h.mem t).1
  cases hc with
  | operandClass hn hj hm =>
    exact .operandClass (fun ht => hn ((h.mem _).2 ht)) (hmem _ hj) (h.items ▸ hm)
  | operandRange hn hj hm =>
    exact .operandRange (fun ht => hn ((h.mem _).2 ht)) (hmem _ hj) (h.items ▸ hm)
  | equivalent hd hl => exact .equivalent hd (h.links hl)
  | domainOf hd hp => exact .domainOf hd (hmem _ hp)
  | rangeOf hd hp => exact .rangeOf hd (hmem _ hp)
  | fillsClass hr hp => exact .fillsClass (h.fills hr) (hmem _ hp)
  | fillsRange hr hp => exact .fillsRange (h.fills hr) (hmem _ hp)
  | kin hd hp hl => exact .kin hd hp (h.links hl)
  | sibling hd ht hp hg hh hm hne =>
    exact .sibling hd ((h.mem_listLinks _).1 ht) hp (hmem _ hg) (hmem _ hh) (h.items ▸ hm) hne
  | range hd hm => exact .range hd (hmem _ hm)
  | filler hd hp hr => exact .filler hd (hmem _ hp) (h.fills hr)
  | subProperty hl => exact .subProperty (h.links hl)
  | assertsNode ht hp => exact .assertsNode (hmem _ ht) hp
  | assertsLiteral ht hp => exact .assertsLiteral (hmem _ ht) hp
  | valueOf ht hp => exact .valueOf (hmem _ ht) hp

/-- A question consults the same questions in whatever order. -/
theorem pursues (h : S.Alike T) (hp : S.Pursues q r) : T.Pursues q r :=
  ⟨fun hout => hp.1 (h.ruledOut.2 hout), h.consults hp.2⟩

/-- A node that fills a restriction on an inverse does so in whatever order. -/
theorem fillsInverse (h : S.Alike T) (hf : S.FillsInverse n) : T.FillsInverse n := by
  obtain ⟨r, b, hr, hb⟩ := hf
  exact ⟨r, b, h.fills hr, (h.mem _).1 hb⟩

/-- An evident question is so in whatever order. -/
theorem evident (h : S.Alike T) (he : S.Evident q) : T.Evident q := by
  rw [evident_iff, certain_mem_leads_iff] at he ⊢
  rw [← h.settled?, ← h.ruledOut]
  exact he.imp_right fun ⟨hopen, hc, hf⟩ => ⟨hopen, hc, h.fillsInverse hf⟩

/-- What is derivable in one set is derivable in the other. -/
theorem derivable (h : S.Alike T) (hq : S.Derivable q) : T.Derivable q := by
  obtain ⟨r, hqr, hr⟩ := hq
  exact ⟨r, Relation.ReflTransGen.mono (fun _ _ => h.pursues) _ _ hqr, h.evident hr⟩

/-- Sets with the same triples classify every term alike. -/
theorem isA (h : S.Alike T) {c : Category} {x : Term} : S.isA none c x = T.isA none c x := by
  cases x with
  | literal l => rfl
  | node n =>
    -- the searches may differ at every step, what is derivable does not
    rw [Bool.eq_iff_iff, isA_node_iff, isA_node_iff]
    exact ⟨h.derivable, h.symm.derivable⟩

end TripleSet.Alike

end Ontograph
