import Entail.Text.Unescape
import Mathlib.Data.List.Basic
import Mathlib.Tactic.IntervalCases
/-!
# Escaping

Reading escaped text gives back what was escaped. No quote in escaped text is unescaped, so a quote
written after it is the first one, whatever comes after that.
-/

namespace Entail.Text

variable {c : Char} {cs b a rest : List Char} {n d : Nat}

/-! ## Hexadecimal digits -/

theorem hexDigits_of_lt (h : n < 16) : hexDigits n = [n.digitChar] :=
  Nat.toDigits_of_lt_base h

theorem hexDigits_of_le (h : 16 ≤ n) : hexDigits n = hexDigits (n / 16) ++ [(n % 16).digitChar] :=
  Nat.toDigits_of_base_le (by decide) h

theorem exists_digit_of_mem_hexDigits (h : c ∈ hexDigits n) : ∃ d < 16, c = d.digitChar := by
  induction n using Nat.strongRecOn with
  | ind n ih =>
      by_cases hn : n < 16
      · rw [hexDigits_of_lt hn, List.mem_singleton] at h
        exact ⟨n, hn, h⟩
      · rw [hexDigits_of_le (Nat.le_of_not_lt hn), List.mem_append, List.mem_singleton] at h
        rcases h with h | h
        · exact ih (n / 16) (Nat.div_lt_self (by omega) (by decide)) h
        · exact ⟨n % 16, Nat.mod_lt n (by decide), h⟩

theorem hexValue?_digitChar (h : d < 16) : hexValue? d.digitChar = some d := by
  interval_cases d <;> rfl

theorem digitChar_ne (h : d < 16) :
    d.digitChar ≠ '\x7d' ∧ d.digitChar ≠ '\x22' ∧ d.digitChar ≠ '\\' := by
  interval_cases d <;> decide

theorem unescapeFrom?_hexDigits (n : Nat) (rest : List Char) :
    unescapeFrom? (some 0) (hexDigits n ++ rest) = unescapeFrom? (some n) rest := by
  have hdigit : ∀ m d rest, d < 16 → unescapeFrom? (some m) (d.digitChar :: rest) =
      unescapeFrom? (some (16 * m + d)) rest := by
    intro m d rest hd
    rw [unescapeFrom?, if_neg (digitChar_ne hd).1, hexValue?_digitChar hd, Option.bind_some]
  induction n using Nat.strongRecOn generalizing rest with
  | ind n ih =>
      by_cases hn : n < 16
      · rw [hexDigits_of_lt hn, List.singleton_append, hdigit 0 n rest hn, Nat.mul_zero,
          Nat.zero_add]
      · rw [hexDigits_of_le (Nat.le_of_not_lt hn), List.append_assoc, List.singleton_append,
          ih (n / 16) (Nat.div_lt_self (by omega) (by decide)),
          hdigit _ _ rest (Nat.mod_lt n (by decide)), Nat.div_add_mod]

/-! ## One character -/

theorem escapeChar_cases (c : Char) :
    (∃ x, escapeChar c = ['\\', x] ∧ namedEscape? x = some c) ∨
      (escapeChar c = [c] ∧ c ≠ '\\' ∧ c ≠ '\x22') ∨ escapeChar c = numberedEscape c := by
  unfold escapeChar
  split
  · rename_i h
    subst h
    exact .inl ⟨'t', rfl, rfl⟩
  split
  · rename_i h
    subst h
    exact .inl ⟨'r', rfl, rfl⟩
  split
  · rename_i h
    subst h
    exact .inl ⟨'n', rfl, rfl⟩
  split
  · rename_i h
    subst h
    exact .inl ⟨'\x27', rfl, rfl⟩
  split
  · rename_i h
    subst h
    exact .inl ⟨'\x22', rfl, rfl⟩
  split
  · rename_i h
    subst h
    exact .inl ⟨'\\', rfl, rfl⟩
  rename_i hquote hbackslash
  split
  · exact .inr (.inl ⟨rfl, hbackslash, hquote⟩)
  · exact .inr (.inr rfl)

theorem unescapeFrom?_named {x : Char} (h : namedEscape? x = some c) :
    unescapeFrom? none ('\\' :: x :: rest) = (unescapeFrom? none rest).map (c :: ·) := by
  have hu : x ≠ 'u' := by
    rintro rfl
    cases h
  rw [unescapeFrom?, h, Option.bind_some]
  exact fun _ hx _ => hu hx

theorem unescapeFrom?_plain (h : c ≠ '\\') :
    unescapeFrom? none (c :: rest) = (unescapeFrom? none rest).map (c :: ·) := by
  rw [unescapeFrom?, if_neg h]
  · exact fun _ hc _ => h hc
  · exact fun _ _ hc _ => h hc

theorem unescapeFrom?_numbered (c : Char) (rest : List Char) :
    unescapeFrom? none (numberedEscape c ++ rest) = (unescapeFrom? none rest).map (c :: ·) := by
  have hc : charOfNumber? c.toNat = some c := by
    have hvalid : c.toNat.isValidChar := c.valid
    rw [charOfNumber?, if_pos hvalid, Char.ofNat_toNat]
  rw [numberedEscape, List.append_assoc, List.append_assoc]
  simp only [List.cons_append, List.nil_append]
  rw [unescapeFrom?, unescapeFrom?_hexDigits, unescapeFrom?, if_pos rfl, hc, Option.bind_some]

theorem unescapeFrom?_escapeChar (c : Char) (rest : List Char) :
    unescapeFrom? none (escapeChar c ++ rest) = (unescapeFrom? none rest).map (c :: ·) := by
  rcases escapeChar_cases c with ⟨x, heq, hx⟩ | ⟨heq, hc, _⟩ | heq
  · rw [heq]
    exact unescapeFrom?_named hx
  · rw [heq]
    exact unescapeFrom?_plain hc
  · rw [heq]
    exact unescapeFrom?_numbered c rest

/-! ## Quotes -/

theorem isEscaping_append (h : isEscaping b = false) : isEscaping (b ++ a) = isEscaping a := by
  rw [isEscaping, List.foldl_append, ← isEscaping, h]
  rfl

theorem isEscaping_of_not_mem (h : '\\' ∉ cs) : isEscaping cs = false := by
  induction cs with
  | nil => rfl
  | cons c rest ih =>
      rw [List.mem_cons, not_or] at h
      have hc : isEscaping [c] = false := by simp [isEscaping, Ne.symm h.1]
      rw [← List.singleton_append, isEscaping_append hc]
      exact ih h.2

private theorem not_mem_hexDigits (n : Nat) : '\\' ∉ hexDigits n ∧ '\x22' ∉ hexDigits n := by
  constructor
  · intro h
    obtain ⟨d, hd, hc⟩ := exists_digit_of_mem_hexDigits h
    exact (digitChar_ne hd).2.2 hc.symm
  · intro h
    obtain ⟨d, hd, hc⟩ := exists_digit_of_mem_hexDigits h
    exact (digitChar_ne hd).2.1 hc.symm

theorem isEscaping_escapeChar (c : Char) : isEscaping (escapeChar c) = false := by
  rcases escapeChar_cases c with ⟨x, heq, _⟩ | ⟨heq, hc, _⟩ | heq
  · rw [heq]
    simp [isEscaping]
  · rw [heq]
    exact isEscaping_of_not_mem fun h => hc (List.mem_singleton.1 h).symm
  · rw [heq, numberedEscape, List.append_assoc]
    refine (isEscaping_append rfl).trans (isEscaping_of_not_mem fun h => ?_)
    rcases List.mem_append.1 h with h | h
    · exact (not_mem_hexDigits _).1 h
    · exact absurd h (by decide)

theorem isEscaping_of_escapeChar_eq (h : escapeChar c = b ++ '\x22' :: a) : isEscaping b = true := by
  have hmem : '\x22' ∈ escapeChar c := by simp [h]
  rcases escapeChar_cases c with ⟨x, heq, _⟩ | ⟨heq, _, hc⟩ | heq
  · rw [heq] at h
    match b, h with
    | [_], h =>
        obtain ⟨rfl, _⟩ := List.cons.inj h
        rfl
    | _ :: _ :: _, h =>
        have hlen := congrArg List.length h
        simp at hlen
  · rw [heq, List.mem_singleton] at hmem
    exact absurd hmem.symm hc
  · rw [heq, numberedEscape, List.append_assoc, List.mem_append, List.mem_append] at hmem
    rcases hmem with hmem | hmem | hmem
    · exact absurd hmem (by decide)
    · exact absurd hmem (not_mem_hexDigits _).2
    · exact absurd hmem (by decide)

/-! ## Texts -/

theorem escapeChars_cons (c : Char) (cs : List Char) :
    escapeChars (c :: cs) = escapeChar c ++ escapeChars cs :=
  List.flatMap_cons

theorem unescapeFrom?_escapeChars (cs : List Char) :
    unescapeFrom? none (escapeChars cs) = some cs := by
  induction cs with
  | nil => rfl
  | cons c cs ih => rw [escapeChars_cons, unescapeFrom?_escapeChar, ih, Option.map_some]

theorem escapeChars_injective : Function.Injective escapeChars := by
  intro cs cs' h
  rw [← Option.some_inj, ← unescapeFrom?_escapeChars, h, unescapeFrom?_escapeChars]

theorem isEscaping_escapeChars (cs : List Char) : isEscaping (escapeChars cs) = false := by
  induction cs with
  | nil => rfl
  | cons c cs ih => rw [escapeChars_cons, isEscaping_append (isEscaping_escapeChar c), ih]

theorem isEscaping_of_escapeChars_eq (h : escapeChars cs = b ++ '\x22' :: a) :
    isEscaping b = true := by
  induction cs generalizing b with
  | nil => exact absurd h.symm (List.append_ne_nil_of_right_ne_nil b (List.cons_ne_nil _ _))
  | cons c cs ih =>
      rw [escapeChars_cons, List.append_eq_append_iff] at h
      rcases h with ⟨more, rfl, hrest⟩ | ⟨more, hc, hmore⟩
      · rw [isEscaping_append (isEscaping_escapeChar c)]
        exact ih hrest
      · cases more with
        | nil => exact absurd (ih (b := []) hmore.symm) Bool.false_ne_true
        | cons x more =>
            obtain ⟨rfl, _⟩ := List.cons.inj hmore
            exact isEscaping_of_escapeChar_eq hc

/-- Escaped text ends at the first quote that is not escaped, whatever follows. -/
theorem isFirstQuote_escapeChars_iff :
    IsFirstQuote (escapeChars cs ++ '\x22' :: rest) b a ↔ b = escapeChars cs ∧ a = rest := by
  have hquote : IsQuote (escapeChars cs ++ '\x22' :: rest) (escapeChars cs) rest :=
    ⟨rfl, isEscaping_escapeChars cs⟩
  have hfirst : ∀ before after, IsQuote (escapeChars cs ++ '\x22' :: rest) before after →
      (escapeChars cs).length ≤ before.length := by
    rintro before after ⟨hsplit, hopen⟩
    rcases List.append_eq_append_iff.1 hsplit with ⟨more, rfl, _⟩ | ⟨more, heq, hmore⟩
    · rw [List.length_append]
      exact Nat.le_add_right _ _
    · cases more with
      | nil => rw [heq, List.append_nil]
      | cons x more =>
          obtain ⟨rfl, _⟩ := List.cons.inj hmore
          rw [isEscaping_of_escapeChars_eq heq] at hopen
          cases hopen
  constructor
  · intro h
    have hlength := Nat.le_antisymm (h.first _ _ hquote) (hfirst b a h.toIsQuote)
    obtain ⟨hb, ha⟩ := List.append_inj h.split hlength.symm
    exact ⟨hb.symm, (List.cons.inj ha).2.symm⟩
  · rintro ⟨rfl, rfl⟩
    exact ⟨hquote, hfirst⟩

theorem unescape?_escape (s : String) : unescape? (escape s) = some s := by
  rw [unescape?, escape, String.toList_ofList, unescapeFrom?_escapeChars, Option.map_some,
    String.ofList_toList]

end Entail.Text
