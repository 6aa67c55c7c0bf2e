import Entail.Proofs.Network.Memory
import Entail.Proofs.Store.Lookup
/-!
# Substitution

Matching seen from the assignments of nodes to variables: a quad matches if some assignment turns the
pattern into it, wildcards apart, and what is found is that assignment on the variables of the
pattern. The filter of a pattern lets all of these quads through, so a memory filled by way of it
misses none.
-/

namespace Entail

variable {p : Pattern} {q : Quad} {b c : Bindings} {σ : Variable → Node}

def Pattern.at (p : Pattern) : Position → Term
  | .graph => p.graph
  | .subject => p.subject
  | .predicate => p.predicate
  | .object => p.object

/-- The node a term becomes under an assignment; none for the wildcard. -/
def Term.under? (σ : Variable → Node) : Term → Option Node
  | .node n => some n
  | .variable v => some (σ v)
  | .any => none

/-- Under the assignment the pattern has the nodes of the quad, wherever it has any. -/
def Pattern.Becomes (p : Pattern) (σ : Variable → Node) (q : Quad) : Prop :=
  ∀ pos n, (p.at pos).under? σ = some n → q.at pos = n

/-- `b` is the assignment on `vars`, and binds nothing else. -/
def Bindings.IsPart (b : Bindings) (σ : Variable → Node) (vars : OrderedSet Variable) : Prop :=
  ∀ v n, b.get? v = some n ↔ v ∈ vars ∧ σ v = n

/-- Take in what comes and goes, in turn. -/
def FactMemory.learn (m : FactMemory) : List (Change Quad) → Except Fault FactMemory
  | [] => .ok m
  | c :: rest => do
    let (_, m) ← m.update c.update c.value
    learn m rest

/-! ## Bindings and assignments -/

namespace Bindings

theorem exists_isPart (σ : Variable → Node) (vars : OrderedSet Variable) :
    ∃ b : Bindings, b.IsPart σ vars := by
  have hlist : ∀ l : List Variable,
      ∃ b : Bindings, ∀ v n, b.get? v = some n ↔ v ∈ l ∧ σ v = n := by
    intro l
    induction l with
    | nil => exact ⟨∅, fun v n => iff_of_false nofun fun h => List.not_mem_nil h.1⟩
    | cons w rest ih =>
        obtain ⟨b, hb⟩ := ih
        refine ⟨b.insert w (σ w), fun v n => ?_⟩
        rw [OrderedMap.get?_insert]
        split
        · next hwv =>
            subst hwv
            rw [Option.some_inj, and_iff_right List.mem_cons_self]
        · next hwv =>
            rw [hb v n, List.mem_cons, or_iff_right (Ne.symm hwv)]
  obtain ⟨b, hb⟩ := hlist vars.toList
  exact ⟨b, fun v n => by rw [hb v n, OrderedSet.mem_toList_iff]⟩

theorem exists_isPart_of_domain {vars : OrderedSet Variable}
    (h : ∀ v, b.contains v = true ↔ v ∈ vars) : ∃ σ, b.IsPart σ vars := by
  refine ⟨fun v => (b.get? v).getD (.iri ""), fun v n => ?_⟩
  rw [← h v, OrderedMap.contains_iff]
  constructor
  · intro hv
    exact ⟨⟨n, hv⟩, by simp only [hv, Option.getD_some]⟩
  · rintro ⟨⟨k, hk⟩, hn⟩
    simp only [hk, Option.getD_some] at hn
    rw [hk, hn]

variable {vars : OrderedSet Variable}

theorem IsPart.contains_iff (h : b.IsPart σ vars) {v : Variable} :
    b.contains v = true ↔ v ∈ vars := by
  rw [OrderedMap.contains_iff]
  constructor
  · rintro ⟨n, hn⟩
    exact ((h v n).1 hn).1
  · intro hv
    exact ⟨σ v, (h v (σ v)).2 ⟨hv, rfl⟩⟩

theorem IsPart.eq_of_extends (hb : b.IsPart σ vars) (hext : b.Extends c)
    (hc : ∀ v, c.contains v = true ↔ v ∈ vars) : c = b := by
  apply OrderedMap.ext_get?
  intro v
  apply Option.ext
  intro n
  refine ⟨hext v n, fun hv => ?_⟩
  have hcontains : c.contains v = true := by
    rw [hc v, ← hb.contains_iff]
    exact contains_of_get? hv
  obtain ⟨k, hk⟩ := OrderedMap.contains_iff.1 hcontains
  have hbk := hext v k hk
  rw [hv] at hbk
  rw [hk, hbk]

end Bindings

/-! ## Matching -/

namespace Pattern

theorem mem_vars_iff_at {v : Variable} : v ∈ p.vars ↔ ∃ pos, p.at pos = .variable v := by
  rw [mem_vars]
  constructor
  · rintro (h | h | h | h)
    · exact ⟨.graph, h⟩
    · exact ⟨.subject, h⟩
    · exact ⟨.predicate, h⟩
    · exact ⟨.object, h⟩
  · rintro ⟨pos, h⟩
    cases pos with
    | graph => exact Or.inl h
    | subject => exact Or.inr (Or.inl h)
    | predicate => exact Or.inr (Or.inr (Or.inl h))
    | object => exact Or.inr (Or.inr (Or.inr h))

theorem fits_iff_at : p.Fits b q ↔ ∀ pos, (p.at pos).Fits b (q.at pos) := by
  constructor
  · intro h pos
    cases pos with
    | graph => exact h.graph
    | subject => exact h.subject
    | predicate => exact h.predicate
    | object => exact h.object
  · intro h
    exact ⟨h .graph, h .subject, h .predicate, h .object⟩

/-- To be bound so that the pattern stands for the quad is to be assigned so that it becomes the
quad. -/
theorem fits_iff_becomes (h : b.IsPart σ p.vars) : p.Fits b q ↔ p.Becomes σ q := by
  rw [fits_iff_at]
  refine forall_congr' fun pos => ?_
  cases hterm : p.at pos with
  | any => exact iff_of_true trivial nofun
  | node k =>
      simp only [Term.Fits, Term.under?, Option.some_inj, forall_eq']
      exact eq_comm
  | «variable» v =>
      have hv : v ∈ p.vars := mem_vars_iff_at.2 ⟨pos, hterm⟩
      simp only [Term.Fits, Term.under?, Option.some_inj, h v, and_iff_right hv, forall_eq']
      exact eq_comm

theorem exists_becomes_of_match? (h : p.match? q = some b) :
    ∃ σ, b.IsPart σ p.vars ∧ p.Becomes σ q := by
  obtain ⟨σ, hσ⟩ := Bindings.exists_isPart_of_domain fun v => contains_iff_of_match? h
  exact ⟨σ, hσ, (fits_iff_becomes hσ).1 (fits_of_match? h)⟩

theorem match?_of_becomes (h : p.Becomes σ q) (hb : b.IsPart σ p.vars) : p.match? q = some b := by
  obtain ⟨m, hm, hext⟩ := exists_match?_of_fits ((fits_iff_becomes hb).2 h)
  rw [hm, hb.eq_of_extends hext fun v => contains_iff_of_match? hm]

theorem exists_match?_iff_becomes : (∃ b, p.match? q = some b) ↔ ∃ σ, p.Becomes σ q := by
  constructor
  · rintro ⟨b, hb⟩
    obtain ⟨σ, _, hσ⟩ := exists_becomes_of_match? hb
    exact ⟨σ, hσ⟩
  · rintro ⟨σ, hσ⟩
    obtain ⟨b, hb⟩ := Bindings.exists_isPart σ p.vars
    exact ⟨b, match?_of_becomes hσ hb⟩

theorem Becomes.match?_eq_some_iff (h : p.Becomes σ q) :
    p.match? q = some b ↔ b.IsPart σ p.vars := by
  refine ⟨fun hb => ?_, match?_of_becomes h⟩
  obtain ⟨c, hc⟩ := Bindings.exists_isPart σ p.vars
  rw [match?_of_becomes h hc, Option.some_inj] at hb
  rw [← hb]
  exact hc

end Pattern

/-! ## Memories -/

namespace FactMemory

variable {m : FactMemory} {held : Quad → Prop}

theorem Holds.learn_spec (h : m.Holds p held) (changes : List (Change Quad)) :
    ∃ m', m.learn changes = .ok m' ∧ m'.Holds p (Change.stepAll changes held) := by
  induction changes generalizing m held with
  | nil => exact ⟨m, rfl, h⟩
  | cons c rest ih =>
      obtain ⟨_, m₁, h₁, _, hm₁, _⟩ := h.update_spec c.update c.value
      obtain ⟨m₂, h₂, hm₂⟩ := ih hm₁
      refine ⟨m₂, ?_, hm₂⟩
      rw [learn, h₁, Result.ok_bind]
      exact h₂

theorem Holds.mem_toList_iff (h : m.Holds p held) :
    (q, b) ∈ m.facts.toList ↔ held q ∧ p.match? q = some b := by
  rw [Index.mem_toList_iff]
  simp only [h.mem_iff]
  constructor
  · rintro ⟨_, hq, hb, _⟩
    exact ⟨hq, hb⟩
  · rintro ⟨hq, hb⟩
    exact (h.exists_key hb).imp fun _ hkey => ⟨hq, hb, hkey⟩

end FactMemory

namespace Pattern

/-- A quad matches a pattern if and only if some assignment turns the pattern into it; the bindings
found are then the part of that assignment, of any such assignment, for the variables of the pattern.
A quad that matches passes the filter of the pattern. So a memory filled from a store holds the
matching quads of the store, whatever happened to it, and after any changes those of what there is
then. -/
theorem matching_is_substitution (p : Pattern) (keys : List Variable)
    (hkeys : ∀ v ∈ keys, v ∈ p.vars) (actions : List Store.Action) (changes : List (Change Quad)) :
    (∀ q, ((∃ b, p.match? q = some b) ↔ ∃ σ, p.Becomes σ q) ∧
        (∀ σ, p.Becomes σ q → ∀ b, p.match? q = some b ↔ b.IsPart σ p.vars) ∧
        ((∃ b, p.match? q = some b) → p.filter.passes q = true)) ∧
      ∃ filled, (FactMemory.new p keys).fill (Store.Session.start.run actions).store.contents =
          .ok filled ∧
        filled.Holds p (Store.stored actions) ∧
        ∃ m, filled.learn changes = .ok m ∧
          m.Holds p (Change.stepAll changes (Store.stored actions)) ∧
          ∀ q b, (q, b) ∈ m.facts.toList ↔
            Change.stepAll changes (Store.stored actions) q ∧ p.match? q = some b := by
  constructor
  · intro q
    refine ⟨exists_match?_iff_becomes, fun σ hσ b => hσ.match?_eq_some_iff, ?_⟩
    rintro ⟨b, hb⟩
    exact passes_filter_of_match? hb
  · have hcontents := Store.Session.contents_run Store.Session.start actions
    have hindexed : (Store.Session.start.run actions).store.contents.IsIndexed :=
      hcontents ▸ Contents.isIndexed_empty.replay _
    have hstored := Store.Session.answers_run actions
    obtain ⟨filled, hfill, _, hholds⟩ := (FactMemory.holds_new hkeys).fill_spec hindexed
    have hfilled : filled.Holds p (Store.stored actions) := hholds.congr hstored.contains_iff
    obtain ⟨m, hlearn, hm⟩ := hfilled.learn_spec changes
    exact ⟨filled, hfill, hfilled, m, hlearn, hm, fun q b => hm.mem_toList_iff⟩

/-- A variable stands in the graph and in two more positions. Of two stored quads one has the same
node in all three; it is lost later, and another one comes. -/
theorem matching_is_substitution_thrice :
    let x : Variable := ⟨"x"⟩
    let p : Pattern := ⟨.variable x, .variable x, .any, .variable x⟩
    let quad : String → Quad := fun s => ⟨.iri s, .iri s, .iri "is", .iri s⟩
    let other : Quad := ⟨.iri "b", .iri "a", .iri "is", .iri "a"⟩
    let actions : List Store.Action := [.mutate (.insert (quad "a")), .mutate (.insert other)]
    (∀ v ∈ [x], v ∈ p.vars) ∧ (∃ σ, p.Becomes σ (quad "a")) ∧ (¬ ∃ σ, p.Becomes σ other) ∧
      ∃ filled, (FactMemory.new p [x]).fill (Store.Session.start.run actions).store.contents =
          .ok filled ∧
        ∃ m, filled.learn [.lost (quad "a"), .gained (quad "b"), .gained other] = .ok m ∧
          ∀ q b, (q, b) ∈ m.facts.toList ↔ q = quad "b" ∧ p.match? q = some b := by
  intro x p quad other actions
  have hkeys : ∀ v ∈ [x], v ∈ p.vars := by decide
  obtain ⟨hmatch, filled, hfill, _, m, hlearn, _, hmem⟩ := matching_is_substitution p [x] hkeys
    actions [.lost (quad "a"), .gained (quad "b"), .gained other]
  have hother : p.match? other = none := by decide
  refine ⟨hkeys, (hmatch (quad "a")).1.1 ⟨OrderedMap.empty.insert x (.iri "a"), by decide⟩,
    fun hσ => ?_, filled, hfill, m, hlearn, fun q b => ?_⟩
  · obtain ⟨b, hb⟩ := (hmatch other).1.2 hσ
    rw [hother] at hb
    cases hb
  · rw [hmem q b]
    refine and_congr_left fun hb => ?_
    have hne : q ≠ other := by
      rintro rfl
      rw [hother] at hb
      cases hb
    change ((((False ∨ q = quad "a") ∨ q = other) ∧ q ≠ quad "a") ∨ q = quad "b") ∨ q = other ↔ _
    tauto

end Pattern

end Entail
