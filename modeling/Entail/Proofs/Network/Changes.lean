import Entail.Proofs.Network.Evaluation
/-!
# Reported changes

What a network reports when a quad comes or goes is the difference between its outputs before and
after, each token once, however many blockers the change runs through.
-/

namespace Entail

variable {ev : Evaluator} {c : Condition} {held : Quad → Prop}

namespace Network

/-- The outputs are all that a network has to remember of what it reported. -/
theorem Tracks.reports_difference {n : Network} (h : n.Tracks ev held) (change : Change Quad) :
    ∃ report next, n.update ev change = .ok (report, next) ∧ next.condition = n.condition ∧
      next.Tracks ev (change.step held) ∧
      Alters report.changes (· ∈ n.outputs) (· ∈ next.outputs) := by
  obtain ⟨report, next, hupdate, hcondition, htracks, halters⟩ := h.update_spec change
  refine ⟨report, next, hupdate, hcondition, htracks, halters.congr (fun t => ?_) fun t => ?_⟩
  · exact (h.outputs t).symm
  · rw [htracks.outputs, hcondition]

/-- Priming with any store, any quads that come and go after that in any order, and one more of them
run without a fault. The reports of the priming and of the last change are exact: no token occurs
twice, those gained are the outputs that were none before, and those lost the ones that are none any
more. Before and after the outputs are those of the condition over the quads held. -/
theorem update_reports_difference (ev : Evaluator) {c : Condition} {n : Network}
    (h : compile c = .ok n) (stored changes : List (Change Quad)) (change : Change Quad) :
    ∃ start primed last report next,
      n.prime ev (Contents.empty.replay stored) = .ok (start, primed) ∧
      primed.follow ev changes = .ok last ∧
      last.update ev change = .ok (report, next) ∧
      Alters start.changes (fun _ => False) (· ∈ primed.outputs) ∧
      Alters report.changes (· ∈ last.outputs) (· ∈ next.outputs) ∧
      (∀ t, t ∈ last.outputs ↔
        c.IsOutput ev (Contents.empty.replay (stored ++ changes)).Has t) ∧
      ∀ t, t ∈ next.outputs ↔
        c.IsOutput ev (Contents.empty.replay (stored ++ changes ++ [change])).Has t := by
  obtain ⟨start, primed, hprime, hcondition, htracks, hstart⟩ :=
    prime_spec ev h (Contents.isIndexed_empty.replay stored)
  obtain ⟨last, hfollow, hcondition', htracks'⟩ := htracks.follow_spec changes
  obtain ⟨report, next, hupdate, hcondition'', htracks'', hreport⟩ :=
    htracks'.reports_difference change
  have hheld : ∀ later : List (Change Quad), (Contents.empty.replay (stored ++ later)).Has =
      later.foldl (fun held change => change.step held) (Contents.empty.replay stored).Has := by
    intro later
    rw [← Contents.has_replay, Contents.replay, List.foldl_append]
    rfl
  refine ⟨start, primed, last, report, next, hprime, hfollow, hupdate, ?_, hreport, fun t => ?_,
    fun t => ?_⟩
  · refine hstart.congr (fun _ => Iff.rfl) fun t => ?_
    rw [htracks.outputs, hcondition]
  · rw [htracks'.outputs, hcondition', hcondition, hheld]
    rfl
  · rw [htracks''.outputs, hcondition'', hcondition', hcondition, List.append_assoc, hheld,
      List.foldl_append]
    rfl

/-- Who knows whom, unless the other knows one back or one knows oneself. -/
def oneWay : Condition where
  positives := [⟨.any, .variable ⟨"x"⟩, .node (.iri "knows"), .variable ⟨"y"⟩⟩]
  negatives := [[⟨.any, .variable ⟨"y"⟩, .node (.iri "knows"), .variable ⟨"x"⟩⟩],
    [⟨.any, .variable ⟨"x"⟩, .node (.iri "knows"), .variable ⟨"x"⟩⟩]]
  aggregation := none

/-- Ben gets to know Anna: the quad matches the positive pattern and blocks at the first conjunction
what Anna and Ben were found with. -/
theorem report_of_oneWay :
    let quad := fun s p o => Quad.mk (.iri "g") (.iri s) (.iri p) (.iri o)
    ∃ n start primed last report next, compile oneWay = .ok n ∧
      n.prime .standard (Contents.empty.replay [.gained (quad "anna" "knows" "ben")]) =
        .ok (start, primed) ∧
      primed.follow .standard [.gained (quad "carl" "knows" "carl")] = .ok last ∧
      last.update .standard (.gained (quad "ben" "knows" "anna")) = .ok (report, next) ∧
      Alters report.changes (· ∈ last.outputs) (· ∈ next.outputs) := by
  intro quad
  have hproblem : oneWay.problem? = none := by decide +kernel
  have hcompile : ∃ n, compile oneWay = .ok n := by
    unfold compile
    rw [hproblem]
    exact ⟨_, rfl⟩
  obtain ⟨n, hn⟩ := hcompile
  obtain ⟨start, primed, last, report, next, hprime, hfollow, hupdate, _, hreport, _⟩ :=
    update_reports_difference .standard hn [.gained (quad "anna" "knows" "ben")]
      [.gained (quad "carl" "knows" "carl")] (.gained (quad "ben" "knows" "anna"))
  exact ⟨n, start, primed, last, report, next, hn, hprime, hfollow, hupdate, hreport⟩

end Network

end Entail
