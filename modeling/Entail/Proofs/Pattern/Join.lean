import Entail.Condition.Match
import Entail.Proofs.Pattern.Match
/-!
# Joins

Matching patterns one after the other against as many quads, each time merging what the pattern binds
into what is bound already. A join finds the least bindings under which the patterns stand for the
quads.
-/

namespace Entail

namespace Bindings

variable {b c m : Bindings}

/-- `b` extended by the bindings of each pattern against its quad. -/
def join? (b : Bindings) : List Pattern → List Quad → Option Bindings
  | [], [] => some b
  | p :: ps, q :: qs =>
    (p.match? q).bind fun found => (b.merge? found).bind fun b => join? b ps qs
  | _, _ => none

theorem join?_cons_eq_some_iff {p : Pattern} {ps : List Pattern} {q : Quad} {qs : List Quad} :
    b.join? (p :: ps) (q :: qs) = some m ↔
      ∃ found b₁, p.match? q = some found ∧ b.merge? found = some b₁ ∧ b₁.join? ps qs = some m := by
  simp [join?, Option.bind_eq_some_iff]

theorem join?_concat_eq_some_iff {p : Pattern} {ps : List Pattern} {facts : List Quad} :
    b.join? (ps ++ [p]) facts = some m ↔
      ∃ qs q b₁ found, facts = qs ++ [q] ∧ b.join? ps qs = some b₁ ∧ p.match? q = some found ∧
        b₁.merge? found = some m := by
  induction ps generalizing b facts with
  | nil =>
      constructor
      · intro h
        rcases facts with _ | ⟨q, _ | ⟨r, rest⟩⟩
        · cases h
        · obtain ⟨found, b₁, hf, hm, hj⟩ := join?_cons_eq_some_iff.1 h
          cases hj
          exact ⟨[], q, b, found, rfl, rfl, hf, hm⟩
        · obtain ⟨_, _, _, _, hj⟩ := join?_cons_eq_some_iff.1 h
          cases hj
      · rintro ⟨qs, q, b₁, found, rfl, hj, hf, hm⟩
        cases qs with
        | cons r rest => cases hj
        | nil =>
            cases hj
            exact join?_cons_eq_some_iff.2 ⟨found, m, hf, hm, rfl⟩
  | cons r rest ih =>
      constructor
      · intro h
        cases facts with
        | nil => cases h
        | cons q₀ facts =>
            obtain ⟨found₀, b₀, hf₀, hm₀, hj⟩ := join?_cons_eq_some_iff.1 h
            obtain ⟨qs, q, b₁, found, rfl, hj₁, hf, hm⟩ := ih.1 hj
            exact ⟨q₀ :: qs, q, b₁, found, rfl,
              join?_cons_eq_some_iff.2 ⟨found₀, b₀, hf₀, hm₀, hj₁⟩, hf, hm⟩
      · rintro ⟨qs, q, b₁, found, rfl, hj, hf, hm⟩
        cases qs with
        | nil => cases hj
        | cons q₀ qs =>
            obtain ⟨found₀, b₀, hf₀, hm₀, hj₁⟩ := join?_cons_eq_some_iff.1 hj
            exact join?_cons_eq_some_iff.2
              ⟨found₀, b₀, hf₀, hm₀, ih.2 ⟨qs, q, b₁, found, rfl, hj₁, hf, hm⟩⟩

theorem join?_perm {steps steps' : List (Pattern × Quad)} (h : steps.Perm steps') (b : Bindings) :
    b.join? (steps.map Prod.fst) (steps.map Prod.snd) =
      b.join? (steps'.map Prod.fst) (steps'.map Prod.snd) := by
  induction h generalizing b with
  | nil => rfl
  | cons s _ ih =>
      simp only [List.map_cons, join?, ih]
  | swap s t rest =>
      simp only [List.map_cons, join?]
      cases s.1.match? s.2 with
      | none => cases t.1.match? t.2 <;> simp
      | some x =>
          cases t.1.match? t.2 with
          | none => simp
          | some y =>
              simp only [Option.bind_some]
              rw [← Option.bind_assoc, ← Option.bind_assoc, merge?_right_comm]
  | trans _ _ ih₁ ih₂ => rw [ih₁, ih₂]

theorem extends_of_join? {ps : List Pattern} {qs : List Quad} (h : b.join? ps qs = some m) :
    m.Extends b := by
  fun_induction join? b ps qs with
  | case1 b =>
      cases h
      exact Extends.refl _
  | case2 b p ps q qs ih =>
      obtain ⟨found, b₁, _, hm, hj⟩ := join?_cons_eq_some_iff.1 h
      exact (ih b₁ hj).trans (isUnion_of_merge? hm).extends_left
  | case3 => cases h

theorem fitsAll_of_join? {ps : List Pattern} {qs : List Quad} (h : b.join? ps qs = some m) :
    Pattern.FitsAll m ps qs := by
  fun_induction join? b ps qs with
  | case1 => trivial
  | case2 b p ps q qs ih =>
      obtain ⟨found, b₁, hf, hm, hj⟩ := join?_cons_eq_some_iff.1 h
      have hext := (extends_of_join? hj).trans (isUnion_of_merge? hm).extends_right
      exact ⟨(Pattern.fits_of_match? hf).mono hext, ih b₁ hj⟩
  | case3 => cases h

theorem contains_iff_of_join? {ps : List Pattern} {qs : List Quad} (h : b.join? ps qs = some m)
    {v : Variable} : m.contains v = true ↔ b.contains v = true ∨ ∃ p ∈ ps, v ∈ p.vars := by
  fun_induction join? b ps qs with
  | case1 b =>
      cases h
      simp
  | case2 b p ps q qs ih =>
      obtain ⟨found, b₁, hf, hm, hj⟩ := join?_cons_eq_some_iff.1 h
      rw [ih b₁ hj, (isUnion_of_merge? hm).contains_iff, Pattern.contains_iff_of_match? hf, or_assoc]
      simp
  | case3 => cases h

/-- A join succeeds if some bindings extend `b` and make the patterns stand for the quads, and these
extend its result. -/
theorem exists_join?_of_fitsAll {ps : List Pattern} {qs : List Quad} (hb : c.Extends b)
    (h : Pattern.FitsAll c ps qs) : ∃ m, b.join? ps qs = some m ∧ c.Extends m := by
  induction Pattern.fitsAll_iff.1 h generalizing b with
  | nil => exact ⟨b, rfl, hb⟩
  | cons hfits hrest ih =>
      obtain ⟨found, hf, hfound⟩ := Pattern.exists_match?_of_fits hfits
      obtain ⟨b₁, hm⟩ := exists_merge?_of_extends hb hfound
      obtain ⟨m, hj, hext⟩ := ih ((isUnion_of_merge? hm).extends_of hb hfound)
        (Pattern.fitsAll_iff.2 hrest)
      exact ⟨m, join?_cons_eq_some_iff.2 ⟨found, b₁, hf, hm, hj⟩, hext⟩

theorem Extends.eq_of_contains (h : m.Extends b)
    (hdom : ∀ v, m.contains v = true → b.contains v = true) : m = b := by
  apply OrderedMap.ext_get?
  intro v
  apply Option.ext
  intro n
  constructor
  · intro hm
    obtain ⟨k, hk⟩ := OrderedMap.contains_iff.1 (hdom v (contains_of_get? hm))
    rw [hk, ← h v k hk, hm]
  · exact h v n

/-- A join makes the patterns stand for the quads, keeps what is bound before and binds the variables
of the patterns besides, and no others. -/
theorem join?_eq_some_iff {ps : List Pattern} {qs : List Quad} :
    b.join? ps qs = some m ↔ m.Extends b ∧ Pattern.FitsAll m ps qs ∧
      ∀ v, m.contains v = true ↔ b.contains v = true ∨ ∃ p ∈ ps, v ∈ p.vars := by
  constructor
  · intro h
    exact ⟨extends_of_join? h, fitsAll_of_join? h, fun _ => contains_iff_of_join? h⟩
  · rintro ⟨hextends, hfits, hdom⟩
    obtain ⟨found, hjoin, hext⟩ := exists_join?_of_fitsAll hextends hfits
    have hfound : m = found := hext.eq_of_contains fun v hv =>
      (contains_iff_of_join? hjoin).2 ((hdom v).1 hv)
    rw [hjoin, hfound]

theorem join?_empty_eq_some_iff {ps : List Pattern} {qs : List Quad} :
    join? ∅ ps qs = some m ↔
      Pattern.FitsAll m ps qs ∧ ∀ v, m.contains v = true ↔ ∃ p ∈ ps, v ∈ p.vars := by
  have hempty : ∀ v : Variable, (∅ : Bindings).contains v = false := fun v => rfl
  rw [join?_eq_some_iff, and_iff_right (extends_empty m)]
  simp only [hempty, Bool.false_eq_true, false_or]

end Bindings

namespace Condition

variable {c : Condition} {held : Quad → Prop} {t : Token}

theorem mem_positiveVariables {v : Variable} :
    v ∈ c.positiveVariables ↔ ∃ p ∈ c.positives, v ∈ p.vars := by
  have key : ∀ (ps : List Pattern) (s : OrderedSet Variable),
      v ∈ ps.foldl (fun s p => s.union p.vars) s ↔ v ∈ s ∨ ∃ p ∈ ps, v ∈ p.vars := by
    intro ps
    induction ps with
    | nil => simp
    | cons p ps ih =>
        intro s
        rw [List.foldl_cons, ih, OrderedSet.mem_union]
        simp [or_assoc]
  rw [positiveVariables, key]
  exact or_iff_right (OrderedSet.not_mem_empty v)

theorem join?_positives_iff :
    Bindings.join? ∅ c.positives t.facts = some t.bindings ↔
      Pattern.FitsAll t.bindings c.positives t.facts ∧
        ∀ v, t.bindings.contains v = true ↔ v ∈ c.positiveVariables := by
  simp only [mem_positiveVariables]
  exact Bindings.join?_empty_eq_some_iff

theorem isBlocked_iff_join? {b : Bindings} {conjunction : List Pattern} :
    IsBlocked held b conjunction ↔
      ∃ facts : List Quad, (∀ q ∈ facts, held q) ∧ ∃ m, b.join? conjunction facts = some m := by
  constructor
  · rintro ⟨inner, facts, hext, hheld, hfits⟩
    obtain ⟨m, hm, _⟩ := Bindings.exists_join?_of_fitsAll hext hfits
    exact ⟨facts, hheld, m, hm⟩
  · rintro ⟨facts, hheld, m, hm⟩
    exact ⟨m, facts, Bindings.extends_of_join? hm, hheld, Bindings.fitsAll_of_join? hm⟩

theorem isMatch_iff_join? :
    c.IsMatch held t ↔ (t.IsHeld held ∧ Bindings.join? ∅ c.positives t.facts = some t.bindings) ∧
      ∀ conjunction ∈ c.negatives, ¬ IsBlocked held t.bindings conjunction := by
  rw [join?_positives_iff]
  constructor
  · rintro ⟨hheld, hfits, hbinds, hfree⟩
    exact ⟨⟨hheld, hfits, hbinds⟩, hfree⟩
  · rintro ⟨⟨hheld, hfits, hbinds⟩, hfree⟩
    exact ⟨hheld, hfits, hbinds, hfree⟩

end Condition

end Entail
