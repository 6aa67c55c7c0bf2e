import Entail.Node
import Entail.Proofs.Text.Escape
/-!
# Node texts

The text of a node says which node it is. The first character tells names, blank nodes and literals
apart; in a literal the first unescaped quote closes the lexical form, and what follows the quote is
the language or the datatype.
-/

namespace Entail

namespace Literal

theorem toList_text (l : Literal) :
    l.text.toList = '\x22' :: (Text.escapeChars l.lexical.toList ++ '\x22' :: l.suffix.toList) := by
  simp [text, Text.escape]

theorem suffix_of_string (lexical : String) :
    (typed lexical Vocabulary.xsdString).suffix.toList = [] := by
  simp [suffix]

theorem suffix_of_ne_string {datatype : String} (h : datatype ≠ Vocabulary.xsdString)
    (lexical : String) :
    (typed lexical datatype).suffix.toList = '^' :: '^' :: '<' :: (datatype.toList ++ ['>']) := by
  simp [suffix, h]

theorem suffix_of_language (lexical language : String) :
    (tagged lexical language).suffix.toList = '@' :: language.toList := by
  simp [suffix]

theorem datatype_eq_of_suffix_eq {lexical lexical' datatype datatype' : String}
    (h : (typed lexical datatype).suffix.toList = (typed lexical' datatype').suffix.toList) :
    datatype = datatype' := by
  by_cases hd : datatype = Vocabulary.xsdString
  · by_cases hd' : datatype' = Vocabulary.xsdString
    · rw [hd, hd']
    · rw [hd, suffix_of_string, suffix_of_ne_string hd'] at h
      cases h
  · by_cases hd' : datatype' = Vocabulary.xsdString
    · rw [hd', suffix_of_string, suffix_of_ne_string hd] at h
      cases h
    · rw [suffix_of_ne_string hd, suffix_of_ne_string hd'] at h
      refine String.toList_inj.1 ?_
      simpa using h

theorem suffix_typed_ne_tagged (lexical datatype lexical' language : String) :
    (typed lexical datatype).suffix.toList ≠ (tagged lexical' language).suffix.toList := by
  intro h
  rw [suffix_of_language] at h
  by_cases hd : datatype = Vocabulary.xsdString
  · rw [hd, suffix_of_string] at h
    cases h
  · rw [suffix_of_ne_string hd] at h
    exact absurd (List.cons.inj h).1 (by decide)

theorem eq_of_suffix_eq {a b : Literal} (hlexical : a.lexical = b.lexical)
    (hsuffix : a.suffix.toList = b.suffix.toList) : a = b := by
  cases a with
  | typed lexical datatype =>
      cases b with
      | typed lexical' datatype' =>
          obtain rfl : lexical = lexical' := hlexical
          rw [datatype_eq_of_suffix_eq hsuffix]
      | tagged lexical' language => exact absurd hsuffix (suffix_typed_ne_tagged _ _ _ _)
  | tagged lexical language =>
      cases b with
      | typed lexical' datatype => exact absurd hsuffix.symm (suffix_typed_ne_tagged _ _ _ _)
      | tagged lexical' language' =>
          obtain rfl : lexical = lexical' := hlexical
          rw [suffix_of_language, suffix_of_language] at hsuffix
          rw [String.toList_inj.1 (List.cons.inj hsuffix).2]

theorem text_injective : Function.Injective text := by
  intro a b h
  have hinside := congrArg String.toList h
  rw [toList_text, toList_text, List.cons.injEq] at hinside
  have hfirst : Text.IsFirstQuote (Text.escapeChars b.lexical.toList ++ '\x22' :: b.suffix.toList)
      (Text.escapeChars a.lexical.toList) a.suffix.toList := by
    rw [← hinside.2, Text.isFirstQuote_escapeChars_iff]
    exact ⟨rfl, rfl⟩
  rw [Text.isFirstQuote_escapeChars_iff] at hfirst
  exact eq_of_suffix_eq (String.toList_inj.1 (Text.escapeChars_injective hfirst.1)) hfirst.2

end Literal

namespace Node

theorem head?_text (n : Node) :
    n.text.toList.head? = some (match n with
      | iri _ => '<'
      | blank _ => '_'
      | literal _ => '\x22') := by
  cases n with
  | iri name => simp [text]
  | blank index => simp [text]
  | literal value => simp [text, Literal.toList_text]

theorem text_injective : Function.Injective text := by
  intro a b h
  have hhead := head?_text a
  rw [h, head?_text b, Option.some_inj] at hhead
  cases a with
  | iri name =>
      cases b with
      | iri name' => simpa [text] using h
      | blank => cases hhead
      | literal => cases hhead
  | blank index =>
      cases b with
      | iri => cases hhead
      | blank index' =>
          have hdigits : Nat.toDigits 10 index = Nat.toDigits 10 index' := by
            simpa [text] using congrArg String.toList h
          rw [← @Nat.ofDigitChars_ten_toDigits index, hdigits, Nat.ofDigitChars_ten_toDigits]
      | literal => cases hhead
  | literal value =>
      cases b with
      | iri => cases hhead
      | blank => cases hhead
      | literal value' => rw [Literal.text_injective h]

/-- Nodes with one text are one node. The text of a literal goes on after its opening quote with the
escaped lexical form, which the first unescaped quote ends, whatever the lexical form holds and
whatever the suffix is, and reading that form back gives the lexical form. -/
theorem text_identifies_node :
    (∀ a b : Node, a.text = b.text ↔ a = b) ∧
      ∀ l : Literal, ∃ inside, (literal l).text.toList = '\x22' :: inside ∧
        (∀ before after, Text.IsFirstQuote inside before after ↔
          before = (Text.escape l.lexical).toList ∧ after = l.suffix.toList) ∧
        Text.unescape? (Text.escape l.lexical) = some l.lexical := by
  refine ⟨fun a b => text_injective.eq_iff, fun l => ?_⟩
  refine ⟨_, l.toList_text, fun before after => ?_, Text.unescape?_escape l.lexical⟩
  rw [Text.isFirstQuote_escapeChars_iff, Text.escape, String.toList_ofList]

end Node

end Entail
