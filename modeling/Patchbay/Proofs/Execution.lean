import Patchbay.Proofs.Completion
import Patchbay.Proofs.Functional

/-!
# Execution is evaluation

A node is executed on an engine on which everything else is over. What was executed and edited
before does not count: the execution ends as plain recursion over what feeds the node ends, which
knows the states and the connections and neither outputs nor flags.

What is proved here: `World.execution_eq_evaluate`.
-/

namespace Patchbay

variable {σ : Type} [NodeState σ] {r : Registry σ} {p : Policy}

/-- In every world that can be reached and in which everything is over, an execution of a node
can come to its end, however the tasks that it brings about take their steps, and it ends as the
recursion does; after that its node is fresh exactly if it completed. The outputs are equal as
the values are, which does not distinguish the two zeros: a state that is edited to an equal one
does not make its node stale. -/
theorem World.execution_eq_evaluate (hr : r.Functional) (hp : p.propagateUnchanged = false)
    (moves : List (Move σ)) (hmoves : ∀ m ∈ moves, m.isRestore = false ∧ m.isDelivery = false)
    (hquiet : (after r p moves).Quiet) (id : NodeId) :
    let w := after r p moves
    let task := w.tasks.length
    ∃ h : WellFounded w.engine.graph.wiring.Feeds, ∀ steps : List Nat,
      let w' := steps.foldl stepTask (w.next (.start id))
      (∃ (more : List Nat) (ending : Ending),
        (more.foldl stepTask w').tasks[task]?.bind Stack.ending? = some ending) ∧
      ∀ ending, w'.tasks[task]?.bind Stack.ending? = some ending →
        Ending.Agrees ending (w.engine.graph.evaluate r h id) ∧
          (w'.engine.graph.isFresh id = true ↔ ∃ outputs, ending = .ok (.completed outputs)) := by
  intro w task
  have hregular : w.Regular r p := regular_after hr.steady p hmoves
  have hwf := hregular.sound.whole.wiring.acyclic
  have hstart : (w.next (.start id)).Underway r p (w.engine.graph.evaluate r hwf) task id :=
    .start hr.steady hregular hquiet (fun _ => rfl) id
  refine ⟨hwf, fun steps => ?_⟩
  intro w'
  have hunder : w'.Underway r p (w.engine.graph.evaluate r hwf) task id :=
    hstart.steps hr hp steps
  have hordered : w'.Ordered := (hquiet.ordered id).steps hr hp steps hstart
  constructor
  · obtain ⟨more, ending, hend⟩ := hunder.exists_ended hr hp hordered
    exact ⟨more, ending, by rw [hend]; rfl⟩
  · intro ending hend
    exact hunder.ended hr (hunder.getElem?_of_ending? hend)

namespace Studio

/-- A sum was executed twice; then its operand is edited. -/
def reusing : List (Move StudioNode) := adding ++ [.update "a" fun _ => .number 3]

/-- Both nodes are stale, and however the sum is executed next it gives what the recursion
gives. -/
theorem execution_eq_evaluate_reusing :
    let w : World StudioNode := .after (registry.restrict plain) {} reusing
    w.Quiet ∧ ["a", "s"].map w.engine.graph.isFresh = [false, false] ∧
      ∃ h : WellFounded w.engine.graph.wiring.Feeds, ∀ (steps : List Nat) (ending : Ending),
        let w' : World StudioNode := steps.foldl World.stepTask (w.next (.start "s"))
        w'.tasks[w.tasks.length]?.bind Stack.ending? = some ending →
          Ending.Agrees ending (w.engine.graph.evaluate (registry.restrict plain) h "s") ∧
            (w'.engine.graph.isFresh "s" = true ↔
              ∃ outputs, ending = .ok (.completed outputs)) := by
  have hquiet : (World.after (registry.restrict plain) {} reusing).Quiet := by decide +kernel
  obtain ⟨h, hends⟩ := World.execution_eq_evaluate functional_plain rfl reusing (by decide)
    hquiet "s"
  exact ⟨hquiet, by decide +kernel, h, fun steps ending => (hends steps).2 ending⟩

end Studio

end Patchbay
