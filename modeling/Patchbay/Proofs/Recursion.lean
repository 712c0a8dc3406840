import Patchbay.Proofs.Claims

/-!
# Plain recursion

What a node gives if nothing is remembered: its producers are evaluated first, each by the same
rule, and then the node computes from what stands on the sources. Only states and connections
are looked at, no outputs and no flags.

A registry is functional if its node types are executed on demand, compute at once, and give
equal results from equal states and inputs. Equality is the one of the node states and of the
values, which does not distinguish the two zeros.

What is proved here:
  1. `evaluate_eq`: the recursion, with the values of the sources in the place of its calls.
  2. `Truthful.correct`: in a truthful graph a fresh node holds what the recursion gives.
-/

namespace Patchbay

open Json

theorem beq_some_trans {α : Type} [BEq α] [PartialEquivBEq α] {x : Option α} {a b : α}
    (h : (x == some a) = true) (hab : (a == b) = true) : (x == some b) = true := by
  cases x with
  | none => cases h
  | some c =>
    have hca : (c == a) = true := h
    have hcb : (c == b) = true := BEq.trans hca hab
    exact hcb

/-! ## Endings -/

namespace Ending

def ofResult (id : NodeId) : Except Failure Outputs → Ending
  | .ok outputs => .ok (.completed outputs)
  | .error cause => .error (.executionFailed id cause)

/-- The value that stands on a port after a run that ended so. -/
def value? (ending : Ending) (port : PortId) : Option Value :=
  match ending with
  | .ok (.completed outputs) => outputs.value? port
  | _ => none

def IsCompleted (ending : Ending) : Prop := ∃ outputs, ending = .ok (.completed outputs)

instance (ending : Ending) : Decidable ending.IsCompleted :=
  match ending with
  | .ok (.completed outputs) => .isTrue ⟨outputs, rfl⟩
  | .ok .blocked | .ok .alreadyRunning | .ok .discarded | .error _ => .isFalse nofun

/-- The endings are the same, or both are completions with equal outputs. -/
inductive Agrees : Ending → Ending → Prop
  | refl (ending : Ending) : Agrees ending ending
  | completed (a b : Outputs) (h : (a == b) = true) :
    Agrees (.ok (.completed a)) (.ok (.completed b))

namespace Agrees

variable {a b : Ending}

theorem symm (h : Agrees a b) : Agrees b a := by
  cases h with
  | refl => exact .refl a
  | completed a b h => exact .completed b a (BEq.symm h)

theorem isCompleted (h : Agrees a b) (ha : IsCompleted a) : IsCompleted b := by
  cases h with
  | refl => exact ha
  | completed a b h => exact ⟨b, rfl⟩

theorem completed_right {outputs : Outputs} (h : Agrees a (.ok (.completed outputs))) :
    ∃ own, a = .ok (.completed own) ∧ (outputs == own) = true := by
  cases h with
  | refl => exact ⟨outputs, rfl, BEq.rfl⟩
  | completed a b h => exact ⟨a, rfl, BEq.symm h⟩

end Agrees

end Ending

variable {σ : Type} [NodeState σ]

/-! ## Functional registries -/

/-- Every node type is executed on demand, computes at once, and gives equal results from equal
states and inputs. Results do not change states. A computation that told equal states apart would
break this: an edit from one to the other makes nothing stale. -/
structure Registry.Functional (r : Registry σ) : Prop where
  steady : r.Steady
  reactive : ∀ type d, r.definitions.get? type = some d → d.metadata.mode = .reactive
  total : ∀ d (c : Context σ), r.of? c.state = some d → ∃ result, d.compute c = .done result
  respects : ∀ d (c c' : Context σ) result result', r.of? c.state = some d → c.node = c'.node →
    Alike c.state c'.state → (c.inputs == c'.inputs) = true → d.compute c = .done result →
    d.compute c' = .done result' →
    Ending.Agrees (.ofResult c.node result) (.ofResult c.node result')
  result : ∀ d s outputs, r.of? s = some d → d.applyResult s outputs = s

/-! ## Evaluation -/

/-- What a node gives if these values stand on the sources. A computation that waits for
something comes to nothing. -/
def evaluateWith (r : Registry σ) (state? : NodeId → Option σ) (w : Wiring)
    (value? : PortRef → Option Value) (id : NodeId) : Ending :=
  match state? id with
  | none => .error (.nodeNotFound id)
  | some s =>
    match r.get (NodeState.typeName s) with
    | .error err => .error err
    | .ok d =>
      match w.gather value? id (d.ports s) with
      | none => .ok .blocked
      | some inputs =>
        match d.compute ⟨id, s, inputs⟩ with
        | .done result => .ofResult id result
        | _ => .ok .discarded

/-- What a node gives by plain recursion over everything that feeds it. -/
def evaluate (r : Registry σ) (state? : NodeId → Option σ) (w : Wiring)
    (h : WellFounded w.Feeds) (id : NodeId) : Ending :=
  evaluateWith r state? w (fun source =>
    if _hf : source.node ∈ w.feeders id then
      (evaluate r state? w h source.node).value? source.port
    else none) id
termination_by h.wrap id
decreasing_by exact Wiring.mem_feeders.1 _hf

/-- What a node gives if no more than so many nodes in a row are looked at. -/
def unroll (r : Registry σ) (state? : NodeId → Option σ) (w : Wiring) : Nat → NodeId → Ending
  | 0, _ => .ok .blocked
  | depth + 1, id => evaluateWith r state? w
      (fun source => (unroll r state? w depth source.node).value? source.port) id

section

variable {r : Registry σ} {state? : NodeId → Option σ} {w : Wiring} {h : WellFounded w.Feeds}
  {id : NodeId}

theorem evaluateWith_congr {value? value?' : PortRef → Option Value}
    (heq : ∀ port source, w.producerOf ⟨id, port⟩ = some source →
      value? source = value?' source) :
    evaluateWith r state? w value? id = evaluateWith r state? w value?' id := by
  unfold evaluateWith
  simp only [Wiring.gather_congr heq]

/-- The recursion, with the values of the sources in the place of its calls. -/
theorem evaluate_eq (id : NodeId) : evaluate r state? w h id =
    evaluateWith r state? w
      (fun source => (evaluate r state? w h source.node).value? source.port) id := by
  rw [evaluate]
  apply evaluateWith_congr
  intro port source hs
  have hfeeds : w.Feeds source.node id := ⟨⟨source, ⟨id, port⟩⟩, hs, rfl, rfl⟩
  rw [dif_pos (Wiring.mem_feeders.2 hfeeds)]

/-- A limited depth is enough if every connection leads to a higher rank. -/
theorem evaluate_eq_unroll (rank : NodeId → Nat) (hrank : ∀ u v, w.Feeds u v → rank u < rank v)
    {depth : Nat} (hdepth : rank id < depth) :
    evaluate r state? w h id = unroll r state? w depth id := by
  induction depth generalizing id with
  | zero => omega
  | succ depth ih =>
    rw [evaluate_eq, unroll]
    apply evaluateWith_congr
    intro port source hs
    have hlt := hrank source.node id ⟨⟨source, ⟨id, port⟩⟩, hs, rfl, rfl⟩
    rw [ih (by omega)]

theorem evaluateWith_absent {value? : PortRef → Option Value} (hs : state? id = none) :
    evaluateWith r state? w value? id = .error (.nodeNotFound id) := by
  rw [evaluateWith, hs]

theorem evaluateWith_blocked {value? : PortRef → Option Value} {s : σ} {d : Definition σ}
    (hs : state? id = some s) (hd : r.of? s = some d)
    (hgather : w.gather value? id (d.ports s) = none) :
    evaluateWith r state? w value? id = .ok .blocked := by
  have hget : r.get (NodeState.typeName s) = .ok d := Registry.get_of_of? hd
  rw [evaluateWith, hs]
  simp only [hget, hgather]

theorem evaluateWith_computed {value? : PortRef → Option Value} {s : σ} {d : Definition σ}
    {inputs : Inputs} {result : Except Failure Outputs} (hs : state? id = some s)
    (hd : r.of? s = some d) (hgather : w.gather value? id (d.ports s) = some inputs)
    (hresult : d.compute ⟨id, s, inputs⟩ = .done result) :
    evaluateWith r state? w value? id = .ofResult id result := by
  have hget : r.get (NodeState.typeName s) = .ok d := Registry.get_of_of? hd
  rw [evaluateWith, hs]
  simp only [hget, hgather, hresult]

theorem agrees_evaluateWith (hr : r.Functional) {value? : PortRef → Option Value} {s s' : σ}
    {d : Definition σ} {inputs : Inputs} {result : Except Failure Outputs}
    (hs : state? id = some s) (hd : r.of? s = some d) (halike : Alike s' s)
    (hgather : (w.gather value? id (d.ports s) == some inputs) = true)
    (hresult : d.compute ⟨id, s', inputs⟩ = .done result) :
    Ending.Agrees (evaluateWith r state? w value? id) (.ofResult id result) := by
  cases hown : w.gather value? id (d.ports s) with
  | none =>
    rw [hown] at hgather
    cases hgather
  | some own =>
    rw [hown] at hgather
    obtain ⟨result', hresult'⟩ := hr.total d ⟨id, s, own⟩ hd
    rw [evaluateWith_computed hs hd hown hresult']
    exact hr.respects d ⟨id, s, own⟩ ⟨id, s', inputs⟩ result' result hd rfl halike.symm hgather
      hresult' hresult

end

/-! ## Fresh nodes -/

def Graph.state? (g : Graph σ) (id : NodeId) : Option σ := (g.node? id).map (·.state)

def Graph.evaluate (r : Registry σ) (g : Graph σ) (h : WellFounded g.wiring.Feeds)
    (id : NodeId) : Ending :=
  Patchbay.evaluate r g.state? g.wiring h id

theorem Graph.evaluate_eq {r : Registry σ} {g : Graph σ} {h : WellFounded g.wiring.Feeds}
    (id : NodeId) : g.evaluate r h id = evaluateWith r g.state? g.wiring
      (fun source => (g.evaluate r h source.node).value? source.port) id :=
  Patchbay.evaluate_eq id

namespace Graph

/-- The node, if it is fresh, holds what the recursion gives. -/
def CorrectAt (r : Registry σ) (g : Graph σ) (h : WellFounded g.wiring.Feeds) (id : NodeId) :
    Prop :=
  ∀ n, g.node? id = some n → n.stale = false →
    ∃ outputs, g.evaluate r h id = .ok (.completed outputs) ∧ (n.outputs == outputs) = true

/-- What stands on a fresh source is what the recursion gives there. -/
theorem CorrectAt.beq_freshValue? {r : Registry σ} {g : Graph σ}
    {h : WellFounded g.wiring.Feeds} {source : PortRef} (hcorrect : g.CorrectAt r h source.node)
    (hfresh : g.isFresh source.node = true) :
    ((g.evaluate r h source.node).value? source.port == g.freshValue? source) = true := by
  obtain ⟨n, hn, hs⟩ := isFresh_iff.1 hfresh
  obtain ⟨outputs, heval, hout⟩ := hcorrect n hn hs
  have hvalue : g.freshValue? source = n.outputs.value? source.port := by
    simp [freshValue?, hn, Option.filter, hs]
  rw [heval, hvalue]
  exact beq_value? (BEq.symm hout) source.port

end Graph

/-- In a truthful graph every fresh node holds what the recursion gives. -/
theorem Truthful.correct {r : Registry σ} {e : Engine σ} {frames : List (Frame σ)}
    {answers : List (Answer σ)} (hr : r.Functional) (hsound : Sound r e frames)
    (htruthful : Truthful r e.graph answers) (hhonest : ∀ a ∈ answers, a.Honest)
    (h : WellFounded e.graph.wiring.Feeds) (id : NodeId) : e.graph.CorrectAt r h id := by
  induction id using h.induction with
  | _ id ih =>
    intro n hn hfresh
    obtain ⟨a, ha, hacc⟩ := htruthful id n hn hfresh
    obtain ⟨s, hs, hstate⟩ := hacc.state
    have hds : r.of? s = some a.definition := by
      rw [← hacc.definition]
      exact (Registry.SameShape.of_alike hr.steady hs.symm).of?_eq
    rw [hr.result a.definition s n.outputs hds] at hstate
    have hdn : r.of? n.state = some a.definition := by
      rw [← hds]
      exact (Registry.SameShape.of_alike hr.steady hstate.symm).of?_eq
    -- What the node would be given now equals what its sources evaluate to.
    have hvalues : (e.graph.wiring.gather (fun source =>
          (e.graph.evaluate r h source.node).value? source.port) id
          (a.definition.ports n.state) ==
        e.graph.resolve id (a.definition.ports n.state)) = true := by
      apply Wiring.gather_beq
      intro port source hsource
      have hfeeds : e.graph.wiring.Feeds source.node id :=
        ⟨⟨source, ⟨id, port⟩⟩, hsource, rfl, rfl⟩
      exact (ih source.node hfeeds).beq_freshValue? (hacc.reads.isFresh hfeeds)
    obtain ⟨now, hnow, hinputs⟩ := Graph.resolve_of_reads hsound.whole hn hdn hacc.reads
    rw [hnow] at hvalues
    have hcompute : a.definition.compute ⟨id, a.context.state, a.context.inputs⟩ =
        .done (.ok n.outputs) := by
      rw [← hacc.node, ← hacc.outputs]
      exact hhonest a ha
    have hstates : e.graph.state? id = some n.state := by
      rw [Graph.state?, hn, Option.map_some]
    have hagrees := agrees_evaluateWith hr hstates hdn (hs.symm.trans hstate.symm)
      (beq_some_trans hvalues hinputs) hcompute
    rw [← Graph.evaluate_eq] at hagrees
    exact hagrees.completed_right

end Patchbay
