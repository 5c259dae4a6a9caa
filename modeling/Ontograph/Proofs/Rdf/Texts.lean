import Mathlib.Data.List.Infix
import Ontograph.Rdf.Text

/-!
# Written forms tell terms apart

Different terms have different written forms.  For IRIs this says that no text is the text of a
word and of another IRI too.  For literals it says that the end of the quoted text can be found:
escaped text never has a quote without a backslash before it, and a character can be read back from
the front of a text (`Quoted.decodeChar?`), whatever follows it.
-/

namespace Ontograph

/-! ## Words -/

namespace Word

/-- A word of the OWL vocabulary is found by its name. -/
theorem ofName?_owl (n : OwlName) : OwlName.ofName? n.name = some n := by
  have hall : ∀ n ∈ OwlName.all, OwlName.ofName? n.name = some n := by decide +kernel
  exact hall n (OwlName.mem_all n)

/-- A word of the RDF vocabulary is found by its name. -/
theorem ofName?_rdf (n : RdfName) : RdfName.ofName? n.name = some n := by
  have hall : ∀ n ∈ RdfName.all, RdfName.ofName? n.name = some n := by decide +kernel
  exact hall n (RdfName.mem_all n)

/-- A word of the RDFS vocabulary is found by its name. -/
theorem ofName?_rdfs (n : RdfsName) : RdfsName.ofName? n.name = some n := by
  have hall : ∀ n ∈ RdfsName.all, RdfsName.ofName? n.name = some n := by decide +kernel
  exact hall n (RdfsName.mem_all n)

/-- A word of the XSD vocabulary is found by its name. -/
theorem ofName?_xsd (n : XsdName) : XsdName.ofName? n.name = some n := by
  have hall : ∀ n ∈ XsdName.all, XsdName.ofName? n.name = some n := by decide +kernel
  exact hall n (XsdName.mem_all n)

/-- What follows a namespace is found. -/
theorem localPart?_append (space name : String) : localPart? space (space ++ name) = some name := by
  have hprefix : space.toList.isPrefixOf? (space ++ name).toList = some name.toList :=
    List.isPrefixOf?_eq_some_iff_append_eq.2 String.toList_append.symm
  rw [localPart?, hprefix, Option.map_some, String.ofList_toList]

/-- No namespace is found in front of a word of another one. -/
theorem localPart?_eq_none {space space' : String} (name : String)
    (h : ¬ space.toList <+: space'.toList) (h' : ¬ space'.toList <+: space.toList) :
    localPart? space (space' ++ name) = none := by
  rw [localPart?, Option.map_eq_none_iff, Option.eq_none_iff_forall_ne_some]
  intro rest hrest
  have hprefix : space.toList <+: (space' ++ name).toList :=
    ⟨rest, List.isPrefixOf?_eq_some_iff_append_eq.1 hrest⟩
  rw [String.toList_append] at hprefix
  rcases List.prefix_or_prefix_of_prefix hprefix (List.prefix_append _ _) with hp | hp
  · exact h hp
  · exact h' hp

/-- A word is found from its text. -/
theorem ofValue?_value (w : Word) : ofValue? w.value = some w := by
  cases w with
  | owl n =>
    simp [ofValue?, value, localPart?_append, ofName?_owl]
  | rdf n =>
    have howl : localPart? owlSpace (rdfSpace ++ n.name) = none :=
      localPart?_eq_none _ (by decide +kernel) (by decide +kernel)
    simp [ofValue?, value, howl, localPart?_append, ofName?_rdf]
  | rdfs n =>
    have howl : localPart? owlSpace (rdfsSpace ++ n.name) = none :=
      localPart?_eq_none _ (by decide +kernel) (by decide +kernel)
    have hrdf : localPart? rdfSpace (rdfsSpace ++ n.name) = none :=
      localPart?_eq_none _ (by decide +kernel) (by decide +kernel)
    simp [ofValue?, value, howl, hrdf, localPart?_append, ofName?_rdfs]
  | xsd n =>
    have howl : localPart? owlSpace (xsdSpace ++ n.name) = none :=
      localPart?_eq_none _ (by decide +kernel) (by decide +kernel)
    have hrdf : localPart? rdfSpace (xsdSpace ++ n.name) = none :=
      localPart?_eq_none _ (by decide +kernel) (by decide +kernel)
    have hrdfs : localPart? rdfsSpace (xsdSpace ++ n.name) = none :=
      localPart?_eq_none _ (by decide +kernel) (by decide +kernel)
    simp [ofValue?, value, howl, hrdf, hrdfs, localPart?_append, ofName?_xsd]

end Word

namespace Iri

/-- Different IRIs have different values. -/
theorem value_injective : Function.Injective value := by
  intro i j h
  cases i with
  | word w =>
    cases j with
    | word w' =>
      have hword : some w = some w' := by
        rw [← Word.ofValue?_value w, ← Word.ofValue?_value w']
        exact congrArg Word.ofValue? h
      rw [Option.some.inj hword]
    | other text unnamed =>
      have hnamed := Word.ofValue?_value w
      rw [show w.value = text from h, unnamed] at hnamed
      cases hnamed
  | other text unnamed =>
    cases j with
    | word w' =>
      have hnamed := Word.ofValue?_value w'
      rw [show w'.value = text from h.symm, unnamed] at hnamed
      cases hnamed
    | other text' unnamed' =>
      obtain rfl : text = text' := h
      rfl

end Iri

/-! ## Quoted text -/

namespace Quoted

/-- The value of a hexadecimal digit. -/
def hexValue (c : Char) : Nat := "0123456789ABCDEF".toList.idxOf c

/-- Reads the character written at the front of a text, unless a quote or the end is there. -/
def decodeChar? : List Char → Option (Char × List Char)
  | [] => none
  | '"' :: _ => none
  | '\\' :: 'b' :: cs => some (Char.ofNat 0x08, cs)
  | '\\' :: 't' :: cs => some (Char.ofNat 0x09, cs)
  | '\\' :: 'n' :: cs => some (Char.ofNat 0x0A, cs)
  | '\\' :: 'f' :: cs => some (Char.ofNat 0x0C, cs)
  | '\\' :: 'r' :: cs => some (Char.ofNat 0x0D, cs)
  | '\\' :: '"' :: cs => some (Char.ofNat 0x22, cs)
  | '\\' :: '\\' :: cs => some (Char.ofNat 0x5C, cs)
  | '\\' :: 'u' :: c₃ :: c₂ :: c₁ :: c₀ :: cs =>
    some (Char.ofNat (((hexValue c₃ * 16 + hexValue c₂) * 16 + hexValue c₁) * 16 + hexValue c₀), cs)
  | c :: cs => some (c, cs)

/-- A hexadecimal digit has the value it was written for. -/
theorem hexValue_hexDigit {n : Nat} (h : n < 16) : hexValue (hexDigit n) = n := by
  have hall : ∀ n < 16, hexValue (hexDigit n) = n := by decide +kernel
  exact hall n h

/-- A numeric escape of four digits says a number below `2 ^ 16`. -/
theorem decodeChar?_numeric {n : Nat} (h : n < 65536) (rest : List Char) :
    decodeChar? (numeric n ++ rest) = some (Char.ofNat n, rest) := by
  have hdigits : ((n / 4096 % 16 * 16 + n / 256 % 16) * 16 + n / 16 % 16) * 16 + n % 16 = n := by
    omega
  have hmod : ∀ k : Nat, hexValue (hexDigit (k % 16)) = k % 16 := fun k =>
    hexValue_hexDigit (Nat.mod_lt k (by decide))
  simp only [numeric, List.cons_append, List.nil_append, decodeChar?, hmod, hdigits]

/-- What was written for a character is read as that character. -/
theorem decodeChar?_encodeChar (c : Char) (rest : List Char) :
    decodeChar? (encodeChar c ++ rest) = some (c, rest) := by
  have hback : ∀ n, c.toNat = n → Char.ofNat n = c := by
    rintro n rfl
    exact Char.ofNat_toNat c
  unfold encodeChar
  split
  case h_8 n hquote hbackslash =>
    split
    case isTrue hhidden =>
      have hsmall : c.toNat < 65536 := by
        simp only [isHidden, Bool.or_eq_true, decide_eq_true_eq, beq_iff_eq] at hhidden
        omega
      rw [decodeChar?_numeric hsmall, Char.ofNat_toNat]
    case isFalse =>
      -- neither a quote nor a backslash: the character stands for itself
      have hc : c ≠ '"' := fun h => hquote (by rw [h]; rfl)
      have hc' : c ≠ '\\' := fun h => hbackslash (by rw [h]; rfl)
      rw [List.singleton_append]
      unfold decodeChar?
      split <;> simp_all
  all_goals
    rename_i hn
    rw [← hback _ hn]
    rfl

/-- Where the escaped text ends is known: at the first quote that is not escaped. -/
theorem encode_append_inj {cs ds xs ys : List Char}
    (h : encode cs ++ '"' :: xs = encode ds ++ '"' :: ys) : cs = ds ∧ xs = ys := by
  have hcons : ∀ c cs, encode (c :: cs) = encodeChar c ++ encode cs := fun _ _ => rfl
  induction cs generalizing ds with
  | nil =>
    cases ds with
    | nil => exact ⟨rfl, (List.cons.inj h).2⟩
    | cons d ds =>
      rw [hcons, List.append_assoc] at h
      have hread := decodeChar?_encodeChar d (encode ds ++ '"' :: ys)
      rw [← h] at hread
      cases hread
  | cons c cs ih =>
    cases ds with
    | nil =>
      rw [hcons, List.append_assoc] at h
      have hread := decodeChar?_encodeChar c (encode cs ++ '"' :: xs)
      rw [h] at hread
      cases hread
    | cons d ds =>
      rw [hcons, hcons, List.append_assoc, List.append_assoc] at h
      have hread := decodeChar?_encodeChar c (encode cs ++ '"' :: xs)
      rw [h, decodeChar?_encodeChar, Option.some.injEq, Prod.mk.injEq] at hread
      obtain ⟨rfl, hrest⟩ := hread
      obtain ⟨rfl, rfl⟩ := ih hrest.symm
      exact ⟨rfl, rfl⟩

end Quoted

/-- A quoted text, and what follows it, are told apart. -/
theorem quoted_append_inj {s t x y : String} (h : quoted s ++ x = quoted t ++ y) :
    s = t ∧ x = y := by
  have hchars := congrArg String.toList h
  simp only [quoted, String.toList_append, String.toList_ofList, List.cons_append,
    List.append_assoc, List.nil_append, List.cons.injEq, true_and] at hchars
  obtain ⟨htext, hrest⟩ := Quoted.encode_append_inj hchars
  exact ⟨String.toList_injective htext, String.toList_injective hrest⟩

/-! ## Terms -/

/-- Different IRIs have different texts. -/
theorem Iri.text_injective : Function.Injective Iri.text := by
  intro i j h
  have hchars := congrArg String.toList h
  simp only [Iri.text, String.toList_append, List.append_assoc, List.append_cancel_left_eq,
    List.append_cancel_right_eq] at hchars
  exact Iri.value_injective (String.toList_injective hchars)

/-- Different blank nodes have different texts. -/
theorem Blank.text_injective : Function.Injective Blank.text := by
  rintro ⟨l⟩ ⟨l'⟩ h
  have hchars := congrArg String.toList h
  simp only [Blank.text, String.toList_append, List.append_cancel_left_eq] at hchars
  rw [String.toList_injective hchars]

namespace Literal

/-- What follows the quoted text of a literal: nothing, a language or a datatype. -/
def suffix : Literal → String
  | .plain _ => ""
  | .tagged _ language => "@" ++ language
  | .typed _ datatype _ => "^^" ++ datatype.text

/-- The text of a literal is its quoted value and then its language or datatype. -/
theorem text_eq (l : Literal) : l.text = quoted l.value ++ l.suffix := by
  cases l with
  | plain v => exact String.append_empty.symm
  | tagged v language => exact String.append_assoc
  | typed v datatype => exact String.append_assoc

/-- A literal is told by its text and by what follows it. -/
theorem eq_of_suffix {l l' : Literal} (hvalue : l.value = l'.value)
    (hsuffix : l.suffix = l'.suffix) : l = l' := by
  have hchars := congrArg String.toList hsuffix
  cases l <;> cases l' <;> obtain rfl := hvalue <;>
    simp only [suffix, String.toList_append, String.toList_empty] at hchars
  case plain.plain => rfl
  case tagged.tagged =>
    cases String.toList_injective (List.append_cancel_left hchars)
    rfl
  case typed.typed =>
    cases Iri.text_injective (String.toList_injective (List.append_cancel_left hchars))
    rfl
  all_goals cases hchars

/-- Different literals have different texts. -/
theorem text_injective : Function.Injective text := by
  intro l l' h
  rw [text_eq, text_eq] at h
  obtain ⟨hvalue, hsuffix⟩ := quoted_append_inj h
  exact eq_of_suffix hvalue hsuffix

end Literal

/-- The first character tells IRIs, blank nodes and literals apart. -/
theorem Term.text_injective : Function.Injective Term.text := by
  have hiri : ∀ i : Iri, i.text.toList.head? = some '<' := fun i => by
    simp [Iri.text]
  have hblank : ∀ b : Blank, b.text.toList.head? = some '_' := fun b => by
    simp [Blank.text]
  have hliteral : ∀ l : Literal, l.text.toList.head? = some '"' := fun l => by
    simp [Literal.text_eq, quoted]
  intro x y h
  have hfirst := congrArg (fun s => s.toList.head?) h
  match x, y, h, hfirst with
  | .node (.iri i), .node (.iri j), h, _ => rw [Iri.text_injective h]
  | .node (.blank b), .node (.blank c), h, _ => rw [Blank.text_injective h]
  | .literal l, .literal m, h, _ => rw [Literal.text_injective h]
  | .node (.iri i), .node (.blank b), _, hfirst | .node (.iri i), .literal l, _, hfirst
  | .node (.blank b), .node (.iri i), _, hfirst | .node (.blank b), .literal l, _, hfirst
  | .literal l, .node (.iri i), _, hfirst | .literal l, .node (.blank b), _, hfirst =>
    simp [Term.text, Node.text, hiri, hblank, hliteral] at hfirst

end Ontograph
