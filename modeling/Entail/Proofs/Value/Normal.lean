import Entail.Value
import Entail.Proofs.Number.Numeral
import Mathlib.Data.List.TakeWhile
/-!
# Normal forms

What decoding a node and encoding it again leads to: literals that say the same number, truth value or
text are brought to one form, and a node that says none of these stays as it is. Literals that are
read as decimals are left aside.
-/

namespace Entail

open Number

/-! ## Trimming -/

namespace Text

variable {core cs before after : List Char}

/-- `cs` is `core` with blank characters before and after it. -/
def IsPadded (core cs : List Char) : Prop :=
  ∃ before after, (∀ c ∈ before, isBlank c = true) ∧ (∀ c ∈ after, isBlank c = true) ∧
    cs = before ++ core ++ after

theorem IsPadded.refl (cs : List Char) : IsPadded cs cs :=
  ⟨[], [], List.forall_mem_nil _, List.forall_mem_nil _, by rw [List.nil_append, List.append_nil]⟩

theorem trimChars_append_left (h : ∀ c ∈ before, isBlank c = true) :
    trimChars (before ++ cs) = trimChars cs := by
  rw [trimChars, List.dropWhile_append_of_pos h, trimChars]

theorem trimChars_append_right (h : ∀ c ∈ after, isBlank c = true) :
    trimChars (cs ++ after) = trimChars cs := by
  rw [trimChars, trimChars, List.dropWhile_append]
  split
  · next hempty =>
      rw [List.isEmpty_iff.1 hempty, List.dropWhile_eq_nil_iff.2 h]
  · rw [List.reverse_append,
      List.dropWhile_append_of_pos fun c hc => h c (List.mem_reverse.1 hc)]

theorem IsPadded.toList_trim {s : String} (h : IsPadded core s.toList)
    (hcore : ∀ c ∈ core, isBlank c = false) : (trim s).toList = core := by
  obtain ⟨before, after, hbefore, hafter, hs⟩ := h
  rw [trim, String.toList_ofList, hs, trimChars_append_right hafter,
    trimChars_append_left hbefore, trimChars_eq_self hcore]

theorem isPadded_trim (s : String) : IsPadded (trim s).toList s.toList := by
  rw [trim, String.toList_ofList]
  refine ⟨s.toList.takeWhile isBlank,
    ((s.toList.dropWhile isBlank).reverse.takeWhile isBlank).reverse,
    fun c hc => List.mem_takeWhile_imp hc,
    fun c hc => List.mem_takeWhile_imp (List.mem_reverse.1 hc), ?_⟩
  rw [trimChars, List.append_assoc, ← List.reverse_append, List.takeWhile_append_dropWhile,
    List.reverse_reverse, List.takeWhile_append_dropWhile]

end Text

theorem Number.IntegerForm.not_isBlank {cs : List Char} {i : Int} (h : IntegerForm cs i) :
    ∀ c ∈ cs, Text.isBlank c = false := by
  have hnumeral : ∀ {cs : List Char} {n : Nat}, Numeral cs n → ∀ c ∈ cs, Text.isBlank c = false := by
    intro cs n h c hc
    obtain ⟨d, hd, rfl⟩ := isDigit_iff.1 (h.isDigit hc)
    clear h hc
    revert d
    decide
  cases h with
  | unsigned h => exact hnumeral h
  | plus h => exact List.forall_mem_cons.2 ⟨rfl, hnumeral h⟩
  | minus h => exact List.forall_mem_cons.2 ⟨rfl, hnumeral h⟩

/-! ## Normal forms of nodes -/

def boolForms : Bool → List String
  | true => ["true", "1"]
  | false => ["false", "0"]

theorem not_isBlank_of_mem_boolForms {form : String} {b : Bool} (h : form ∈ boolForms b) :
    ∀ c ∈ form.toList, Text.isBlank c = false := by
  have hall : (boolForms b).all (fun form => form.toList.all fun c => !Text.isBlank c) = true := by
    cases b <;> rfl
  intro c hc
  have hnot := List.all_eq_true.1 (List.all_eq_true.1 hall form h) c hc
  simpa using hnot

def integerDatatypes : List String :=
  [Vocabulary.xsdInteger, Vocabulary.xsdInt, Vocabulary.xsdLong]

def fractionalDatatypes : List String :=
  [Vocabulary.xsdDecimal, Vocabulary.xsdDouble, Vocabulary.xsdFloat]

def textDatatypes : List String :=
  [Vocabulary.xsdString, Vocabulary.langString]

namespace Node

/-- A literal that is read as a decimal. -/
def IsFractional : Node → Prop
  | literal l => l.datatype ∈ fractionalDatatypes
  | _ => False

/-- `n` stands for `v`, and the normal form of it is `m`. A number that is out of range is not that of
any bounded integer, so a literal that says it stands for itself. -/
inductive Normalizes : Node → Value → Node → Prop
  | integer {lexical datatype : String} {core digits : List Char} {i : Int64}
      (hdatatype : datatype ∈ integerDatatypes) (hpadded : Text.IsPadded core lexical.toList)
      (hcore : IntegerForm core i.toInt) (hdigits : CanonicalForm digits i.toInt) :
      Normalizes (literal (.typed lexical datatype)) (.integer i)
        (literal (.typed (String.ofList digits) Vocabulary.xsdInteger))
  | bool {lexical form : String} {b : Bool} (hpadded : Text.IsPadded form.toList lexical.toList)
      (hform : form ∈ boolForms b) :
      Normalizes (literal (.typed lexical Vocabulary.xsdBoolean)) (.bool b)
        (literal (.typed (if b then "true" else "false") Vocabulary.xsdBoolean))
  | string {lexical datatype : String} (hdatatype : datatype ∈ textDatatypes) :
      Normalizes (literal (.typed lexical datatype)) (.string lexical)
        (literal (.typed lexical Vocabulary.xsdString))
  | tagged {lexical language : String} :
      Normalizes (literal (.tagged lexical language)) (.string lexical)
        (literal (.typed lexical Vocabulary.xsdString))
  | noInteger {lexical datatype : String} (hdatatype : datatype ∈ integerDatatypes)
      (hnone : ¬ ∃ core, ∃ i : Int64, Text.IsPadded core lexical.toList ∧
        IntegerForm core i.toInt) :
      Normalizes (literal (.typed lexical datatype)) (.node (literal (.typed lexical datatype)))
        (literal (.typed lexical datatype))
  | noBool {lexical : String}
      (hnone : ¬ ∃ form b, Text.IsPadded form.toList lexical.toList ∧ form ∈ boolForms b) :
      Normalizes (literal (.typed lexical Vocabulary.xsdBoolean))
        (.node (literal (.typed lexical Vocabulary.xsdBoolean)))
        (literal (.typed lexical Vocabulary.xsdBoolean))
  | unknown {lexical datatype : String} (hbool : datatype ≠ Vocabulary.xsdBoolean)
      (hdatatype : datatype ∉ integerDatatypes ++ fractionalDatatypes ++ textDatatypes) :
      Normalizes (literal (.typed lexical datatype)) (.node (literal (.typed lexical datatype)))
        (literal (.typed lexical datatype))
  | iri {name : String} : Normalizes (iri name) (.node (iri name)) (iri name)
  | blank {index : Nat} : Normalizes (blank index) (.node (blank index)) (blank index)

variable {n m : Node} {v : Value}

theorem exists_normalizes (hn : ¬ n.IsFractional) : ∃ v m, n.Normalizes v m := by
  cases n with
  | iri name => exact ⟨_, _, .iri⟩
  | blank index => exact ⟨_, _, .blank⟩
  | literal l =>
      cases l with
      | tagged lexical language => exact ⟨_, _, .tagged⟩
      | typed lexical datatype =>
          have hfractional : datatype ∉ fractionalDatatypes := hn
          by_cases hinteger : datatype ∈ integerDatatypes
          · by_cases hform : ∃ core, ∃ i : Int64, Text.IsPadded core lexical.toList ∧
                IntegerForm core i.toInt
            · obtain ⟨core, i, hpadded, hcore⟩ := hform
              exact ⟨_, _, .integer hinteger hpadded hcore (canonicalForm_iff.2 rfl)⟩
            · exact ⟨_, _, .noInteger hinteger hform⟩
          by_cases hbool : datatype = Vocabulary.xsdBoolean
          · subst hbool
            by_cases hform : ∃ form b, Text.IsPadded form.toList lexical.toList ∧
                form ∈ boolForms b
            · obtain ⟨form, b, hpadded, hmem⟩ := hform
              exact ⟨_, _, .bool hpadded hmem⟩
            · exact ⟨_, _, .noBool hform⟩
          by_cases htext : datatype ∈ textDatatypes
          · exact ⟨_, _, .string htext⟩
          · refine ⟨_, _, .unknown hbool ?_⟩
            simp only [List.mem_append, not_or]
            exact ⟨⟨hinteger, hfractional⟩, htext⟩

theorem Normalizes.normal (h : n.Normalizes v m) : m.Normalizes v m := by
  cases h with
  | integer _ _ _ hdigits =>
      refine .integer List.mem_cons_self (.refl _) ?_ hdigits
      rw [String.toList_ofList]
      exact hdigits.integerForm
  | @bool _ _ b =>
      refine .bool (.refl _) ?_
      cases b <;> exact List.mem_cons_self
  | string => exact .string List.mem_cons_self
  | tagged => exact .string List.mem_cons_self
  | noInteger hdatatype hnone => exact .noInteger hdatatype hnone
  | noBool hnone => exact .noBool hnone
  | unknown hbool hdatatype => exact .unknown hbool hdatatype
  | iri => exact .iri
  | blank => exact .blank

end Node

/-! ## Decoding and encoding -/

namespace Value

open Node

variable {n m : Node} {v : Value} {lexical datatype : String} {b : Bool}

theorem ofDatatype?_of_mem_integerDatatypes (h : datatype ∈ integerDatatypes) :
    Reading.ofDatatype? datatype = some .integer := by
  rw [Reading.ofDatatype?, if_pos]
  simpa [integerDatatypes] using h

theorem ofDatatype?_of_mem_textDatatypes (h : datatype ∈ textDatatypes) :
    Reading.ofDatatype? datatype = some .string := by
  rw [textDatatypes, List.mem_cons, List.mem_singleton] at h
  rcases h with rfl | rfl <;> rfl

theorem ofDatatype?_eq_none (hbool : datatype ≠ Vocabulary.xsdBoolean)
    (h : datatype ∉ integerDatatypes ++ fractionalDatatypes ++ textDatatypes) :
    Reading.ofDatatype? datatype = none := by
  simp only [List.mem_append, not_or, integerDatatypes, fractionalDatatypes, textDatatypes,
    List.mem_cons, List.not_mem_nil, or_false] at h
  obtain ⟨⟨hinteger, hfractional⟩, htext⟩ := h
  simp [Reading.ofDatatype?, hbool, hinteger, hfractional, htext]

theorem ofNode_typed {r : Reading} (h : Reading.ofDatatype? datatype = some r) :
    ofNode (.literal (.typed lexical datatype)) =
      (read? lexical r).getD (.node (.literal (.typed lexical datatype))) := by
  rw [ofNode, Literal.datatype, h, Option.bind_some, Literal.lexical]

theorem readBool?_eq_some_iff : readBool? lexical = some b ↔ lexical ∈ boolForms b := by
  cases b <;> grind [readBool?, boolForms]

theorem read?_integer_eq_some_iff : read? lexical .integer = some v ↔
    ∃ core, ∃ i : Int64, (Text.IsPadded core lexical.toList ∧ IntegerForm core i.toInt) ∧
      integer i = v := by
  rw [read?, Option.map_eq_some_iff]
  constructor
  · rintro ⟨i, hi, hv⟩
    exact ⟨_, i, ⟨Text.isPadded_trim lexical, readInt64?_eq_some_iff.1 hi⟩, hv⟩
  · rintro ⟨core, i, ⟨hpadded, hcore⟩, hv⟩
    refine ⟨i, ?_, hv⟩
    rw [hpadded.toList_trim hcore.not_isBlank, readInt64?_eq_some_iff]
    exact hcore

theorem read?_bool_eq_some_iff : read? lexical .bool = some v ↔
    ∃ form b, (Text.IsPadded form.toList lexical.toList ∧ form ∈ boolForms b) ∧ bool b = v := by
  rw [read?, Option.map_eq_some_iff]
  constructor
  · rintro ⟨b, hb, hv⟩
    exact ⟨_, b, ⟨Text.isPadded_trim lexical, readBool?_eq_some_iff.1 hb⟩, hv⟩
  · rintro ⟨form, b, ⟨hpadded, hform⟩, hv⟩
    refine ⟨b, ?_, hv⟩
    rw [String.toList_inj.1 (hpadded.toList_trim (not_isBlank_of_mem_boolForms hform)),
      readBool?_eq_some_iff]
    exact hform

/-- The normal form is what decoding and encoding lead to. -/
theorem eq_of_normalizes (h : n.Normalizes v m) : v = ofNode n ∧ m = v.toNode := by
  cases h with
  | integer hdatatype hpadded hcore hdigits =>
      constructor
      · rw [ofNode_typed (ofDatatype?_of_mem_integerDatatypes hdatatype),
          read?_integer_eq_some_iff.2 ⟨_, _, ⟨hpadded, hcore⟩, rfl⟩, Option.getD_some]
      · rw [toNode, int64Text, canonicalForm_iff.1 hdigits]
  | bool hpadded hform =>
      refine ⟨?_, rfl⟩
      rw [ofNode_typed rfl, read?_bool_eq_some_iff.2 ⟨_, _, ⟨hpadded, hform⟩, rfl⟩,
        Option.getD_some]
  | string hdatatype =>
      refine ⟨?_, rfl⟩
      rw [ofNode_typed (ofDatatype?_of_mem_textDatatypes hdatatype), read?, Option.getD_some]
  | tagged => exact ⟨rfl, rfl⟩
  | noInteger hdatatype hnone =>
      have hread : read? _ .integer = none := Option.eq_none_iff_forall_ne_some.2 fun v hv => by
        obtain ⟨core, i, hform, _⟩ := read?_integer_eq_some_iff.1 hv
        exact hnone ⟨core, i, hform⟩
      refine ⟨?_, rfl⟩
      rw [ofNode_typed (ofDatatype?_of_mem_integerDatatypes hdatatype), hread, Option.getD_none]
  | noBool hnone =>
      have hread : read? _ .bool = none := Option.eq_none_iff_forall_ne_some.2 fun v hv => by
        obtain ⟨form, b, hform, _⟩ := read?_bool_eq_some_iff.1 hv
        exact hnone ⟨form, b, hform⟩
      refine ⟨?_, rfl⟩
      rw [ofNode_typed rfl, hread, Option.getD_none]
  | unknown hbool hdatatype =>
      refine ⟨?_, rfl⟩
      rw [ofNode, Literal.datatype, ofDatatype?_eq_none hbool hdatatype]
      rfl
  | iri => exact ⟨rfl, rfl⟩
  | blank => exact ⟨rfl, rfl⟩

theorem normalizes_iff (hn : ¬ n.IsFractional) :
    n.Normalizes v m ↔ v = ofNode n ∧ m = (ofNode n).toNode := by
  constructor
  · intro h
    obtain ⟨hv, hm⟩ := eq_of_normalizes h
    exact ⟨hv, hv ▸ hm⟩
  · rintro ⟨rfl, rfl⟩
    obtain ⟨v, m, h⟩ := exists_normalizes hn
    obtain ⟨rfl, rfl⟩ := eq_of_normalizes h
    exact h

theorem ofNode_toNode_ofNode (hn : ¬ n.IsFractional) : ofNode (ofNode n).toNode = ofNode n := by
  have h : n.Normalizes (ofNode n) (ofNode n).toNode := (normalizes_iff hn).2 ⟨rfl, rfl⟩
  exact (eq_of_normalizes h.normal).1.symm

/-- Decoding undoes encoding on what a node was decoded to. The node is brought to its normal form
in this way, and two nodes have the same normal form if and only if they stand for the same value. -/
theorem decoding_undoes_encoding (n n' : Node) (hn : ¬ n.IsFractional) (hn' : ¬ n'.IsFractional) :
    ofNode (ofNode n).toNode = ofNode n ∧
      (∀ v m, n.Normalizes v m ↔ v = ofNode n ∧ m = (ofNode n).toNode) ∧
      ((ofNode n).toNode = (ofNode n').toNode ↔ ofNode n = ofNode n') := by
  refine ⟨ofNode_toNode_ofNode hn, fun v m => normalizes_iff hn, fun h => ?_, congrArg toNode⟩
  calc ofNode n = ofNode (ofNode n).toNode := (ofNode_toNode_ofNode hn).symm
    _ = ofNode (ofNode n').toNode := by rw [h]
    _ = ofNode n' := ofNode_toNode_ofNode hn'

/-- The least bounded integer with blank characters and zeros around it, and without. -/
theorem decoding_undoes_encoding_least :
    let n := Node.literal (.typed "\t-00009223372036854775808\u2003" Vocabulary.xsdLong)
    let n' := Node.literal (.typed "-9223372036854775808" Vocabulary.xsdInt)
    ¬ n.IsFractional ∧ ¬ n'.IsFractional ∧ ofNode (ofNode n).toNode = ofNode n ∧
      n.Normalizes (.integer Int64.minValue)
        (.literal (.typed "-9223372036854775808" Vocabulary.xsdInteger)) ∧
      ofNode n = ofNode n' := by
  intro n n'
  have hlong : Vocabulary.xsdLong ∉ fractionalDatatypes := by decide
  have hint : Vocabulary.xsdInt ∉ fractionalDatatypes := by decide
  have hread : readInt64? (Text.trim "\t-00009223372036854775808\u2003").toList =
      some Int64.minValue := by decide +kernel
  have hread' : readInt64? (Text.trim "-9223372036854775808").toList = some Int64.minValue := by
    decide +kernel
  have hwrite : int64Text Int64.minValue = "-9223372036854775808" := by decide +kernel
  have hv : ofNode n = .integer Int64.minValue := by
    rw [ofNode_typed rfl, read?, hread]
    rfl
  have hv' : ofNode n' = .integer Int64.minValue := by
    rw [ofNode_typed rfl, read?, hread']
    rfl
  obtain ⟨hround, hnormal, hsame⟩ := decoding_undoes_encoding n n' hlong hint
  refine ⟨hlong, hint, hround, (hnormal _ _).2 ⟨hv.symm, ?_⟩, hsame.1 ?_⟩
  · rw [hv, toNode, hwrite]
  · rw [hv, hv']

end Value

end Entail
