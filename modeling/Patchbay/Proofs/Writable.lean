import Patchbay.Proofs.Continuity
import Patchbay.Proofs.Intake

/-!
# Values stay writable

The node types of the studio compute outputs in key order from inputs in key order, whatever the
outcomes of jobs are, and they write no doubles into states. So a graph that could be written when
it was read stays one that can be.

What is proved here:
  1. `Computation.Yields`: what a computation can come to, whatever the outcomes of its jobs are.
  2. `Expressed.happens`: the invariant of a graph that can be written.
  3. `Studio.expressive_registry`: the computations of the studio nodes.
-/

namespace Patchbay

open Json Lossless

variable {σ : Type} [NodeState σ]

/-! ## What computations come to -/

/-- Whatever the outcomes of its jobs are, the computation waits for no permit, and if it gives
outputs they are of this kind. -/
inductive Computation.Yields (P : Outputs → Prop) : Computation → Prop
  | failed (cause : Failure) : Yields P (.done (.error cause))
  | gives (outputs : Outputs) (h : P outputs) : Yields P (.done (.ok outputs))
  | asks (request : Generation.Request)
    (next : Except Generation.Error Generation.Output → Computation)
    (h : ∀ outcome, Yields P (next outcome)) : Yields P (.generate request next)

theorem Computation.Yields.follows {P : Outputs → Prop} {c c₀ : Computation} (h : c₀.Yields P)
    (hfollows : c.Follows c₀) : c.Yields P := by
  cases hfollows with
  | outcome request next outcome =>
    cases h with
    | asks _ _ h => exact h outcome

/-- If a computation is going on on this level, this is what it can come to. -/
def Frame.Yields (P : Outputs → Prop) : Frame σ → Prop
  | .run _ (.computing _ _ _ _ c) => c.Yields P
  | _ => True

omit [NodeState σ] in
theorem Frame.yields_of_idle {P : Outputs → Prop} {f : Frame σ} (h : f.run? = none) :
    f.Yields P := by
  cases f with
  | run id phase =>
    cases phase with
    | computing k epoch d context c => cases h
    | _ => trivial
  | _ => trivial

variable {r : Registry σ} {e₀ e e' : Engine σ} {top : Frame σ}
  {rest new post frames frames' : List (Frame σ)} {P : Outputs → Prop}

def Engine.Begins (P : Outputs → Prop) (e : Engine σ) : Prop :=
  ∀ id n d inputs, e.graph.node? id = some n → e.registry.of? n.state = some d →
    e.graph.resolve id (d.ports n.state) = some inputs →
      (d.compute ⟨id, n.state, inputs⟩).Yields P

/-- A step changes no computation, but one may begin. -/
theorem Frame.yields_turn (hturn : Turn e top rest e' new) (hbegins : e.Begins P) :
    ∀ f ∈ new, f.Yields P := by
  cases hturn with
  | begin id run rest n d inputs hn hrun hd hinputs =>
    exact List.forall_mem_singleton.2 (hbegins id n d inputs hn hd hinputs)
  | pull id run p todo rest =>
    exact List.forall_mem_cons.2 ⟨trivial, List.forall_mem_singleton.2 trivial⟩
  | pass top rest e' new hpass =>
    rcases hpass.new_cases with rfl | ⟨f, rfl, hf | ⟨id, run, ending, rfl, -⟩⟩
    · exact List.forall_mem_nil _
    · exact List.forall_mem_singleton.2 (yields_of_idle hf)
    · exact List.forall_mem_singleton.2 trivial
  | _ => exact List.forall_mem_singleton.2 trivial

theorem yields_happens {x y : Engine σ × List (Frame σ)} (hbegins : x.1.Begins P)
    (h : ∀ f ∈ x.2, f.Yields P) (hhappens : Happens x y) : ∀ f ∈ y.2, f.Yields P := by
  intro f hf
  rcases hhappens with ⟨top, rest, post, written, new, hbefore, hturn, -, hafter⟩ |
    ⟨-, id, run, epoch, d, context, c₀, c, post, hfollows, hbefore, hafter⟩
  · rcases List.mem_append.1 (hafter.mem_iff.1 hf) with hf | hf
    · rcases List.mem_append.1 hf with hf | hf
      · exact Frame.yields_turn hturn hbegins f hf
      · exact h f (hbefore.mem_iff.2 (List.mem_cons_of_mem _ hf))
    · exact Frame.yields_of_idle (Engine.idle_errands f hf)
  · rcases List.mem_cons.1 (hafter.mem_iff.1 hf) with rfl | hf
    · exact Computation.Yields.follows (h _ (hbefore.mem_iff.2 List.mem_cons_self)) hfollows
    · exact h f (hbefore.mem_iff.2 (List.mem_cons_of_mem _ hf))

/-! ## Graphs that can be written -/

variable [Lossless σ]

/-- Computations on what can be written come to outputs that can be written, and no result takes
from a state that it can. -/
structure Registry.Expressive (r : Registry σ) : Prop where
  yields : ∀ d (context : Context σ), r.of? context.state = some d → Writable context.state →
    (∀ port v, context.inputs.get? port = some v → v.Sorted) →
      (d.compute context).Yields Writable
  result : ∀ d s t outputs, r.of? t = some d → Writable s → Writable outputs →
    Writable (d.applyResult s outputs)

/-- A traversal leaves nothing else on the outputs but stop signs. -/
theorem Node.robust_expressed : Robust fun n n' : Node σ => n.Expressed → n'.Expressed where
  refl _ h := h
  trans _ _ _ h h' hn := h' (h hn)
  touched _ h := ⟨h.state, h.outputs⟩
  invalidated _ h := ⟨h.state, h.outputs⟩
  stopped n h := ⟨h.state, n.outputs.writable_allStopped⟩

/-- What all nodes hold can be written, and so can what the computations come to. -/
structure Expressed (e : Engine σ) (frames : List (Frame σ)) : Prop where
  expressed : ∀ id n, e.graph.node? id = some n → n.Expressed
  levels : ∀ f ∈ frames, f.Yields Writable

namespace Expressed

theorem begins (h : Expressed e frames) (hx : r.Expressive) (hsound : Sound r e frames) :
    e.Begins Writable := by
  intro id n d inputs hn hd hinputs
  rw [hsound.registry] at hd
  refine hx.yields d ⟨id, n.state, inputs⟩ hd (h.expressed id n hn).state fun port v hv => ?_
  have hread := Graph.get?_of_resolve hsound.whole hn hd hinputs port
  cases hsource : e.graph.wiring.producerOf ⟨id, port⟩ with
  | none =>
    rw [hsource] at hread
    exact absurd (hv.symm.trans hread) (Option.some_ne_none v)
  | some source =>
    rw [hsource] at hread
    obtain ⟨w, hfresh, hw⟩ := hread
    obtain rfl := Option.some.inj (hv.symm.trans hw)
    obtain ⟨n', hn', -, hvalue⟩ := Graph.freshValue?_eq_some.1 hfresh
    exact Outputs.sorted_value? (h.expressed _ n' hn').outputs hvalue

theorem turn (hx : r.Expressive) (hsound : Sound r e (top :: post))
    (h : Expressed e (top :: post)) (hturn : Turn e top rest e' new) {id : NodeId} {n' : Node σ}
    (hn' : e'.graph.node? id = some n') : n'.Expressed := by
  have hrel := Engine.rel_turn_of_writes (m := id) Node.robust_expressed hturn
    fun n n' hn hwrites hbefore => by
      cases hwrites with
      | blocked => exact ⟨hbefore.state, Outputs.writable_stopped _⟩
      | completed _ run epoch d context outputs n hrun =>
        -- What is committed is what the computation on this level has come to.
        have houtputs : Writable outputs := by
          have hyields : (Computation.done (.ok outputs)).Yields Writable :=
            h.levels _ List.mem_cons_self
          cases hyields with
          | gives _ houtputs => exact houtputs
        obtain ⟨-, hd, -⟩ := hsound.begun _ List.mem_cons_self
        exact ⟨hx.result d n.state _ outputs hd hbefore.state houtputs, houtputs⟩
      | released _ run _ n =>
        unfold Node.released
        split
        · exact ⟨hbefore.state, hbefore.outputs⟩
        · exact hbefore
      | _ => exact ⟨hbefore.state, hbefore.outputs⟩
  obtain ⟨n, hn, hkeeps⟩ := Graph.exists_of_rel' hrel hn'
  exact hkeeps (h.expressed id n hn)

theorem happens (hx : r.Expressive) {x y : Engine σ × List (Frame σ)} (h : Expressed x.1 x.2)
    (hsound : Sound r x.1 x.2) (hhappens : Happens x y) : Expressed y.1 y.2 := by
  refine ⟨fun id n hn => ?_, yields_happens (h.begins hx hsound) h.levels hhappens⟩
  rcases hhappens with ⟨top, rest, post, written, new, hbefore, hturn, hengine, -⟩ | hresponds
  · rw [hengine] at hn
    have h : Expressed x.1 (top :: post) :=
      ⟨h.expressed, fun f hf => h.levels f (hbefore.mem_iff.2 hf)⟩
    exact h.turn hx (hsound.perm hbefore) hturn hn
  · rw [hresponds.1] at hn
    exact h.expressed id n hn

theorem restored {s : Snapshot σ} (h : e.restore s = .ok e') (hnodes : ∀ n ∈ s.nodes, n.Expressed)
    (hidle : ∀ f ∈ frames, f.run? = none) : Expressed e' frames := by
  refine ⟨fun id n' hn' => ?_, fun f hf => Frame.yields_of_idle (hidle f hf)⟩
  obtain ⟨g, hg, rfl⟩ := Engine.exists_graph_of_restore h
  have hexpressed := g.each_invalidateAll Node.robust_expressed
    (g.staleNodes.flatMap g.wiring.downstream)
  obtain ⟨n₁, hn₁, hkeeps⟩ := Graph.exists_of_rel' (hexpressed.nodes id) hn'
  obtain ⟨n, hn, -, rfl⟩ := ((Snapshot.graph_eq_ok hg).2.1 id n₁).1 hn₁
  exact hkeeps ⟨(hnodes n hn).state, (hnodes n hn).outputs⟩

/-- A snapshot is read from the document that writes it. -/
theorem decode?_snapshot (h : Expressed e frames) :
    decode? (encode e.snapshot) = some e.snapshot.written := by
  obtain ⟨f, hf, hnodes⟩ := (Snapshot.describes_capture e.graph).exists_nodes
  refine Snapshot.decode?_encode (fun n hn => ?_) fun n hn => ?_
  · obtain ⟨id, n₀, hn₀, rfl⟩ := (hnodes n).1 hn
    rw [(hf n₀).state]
    exact (h.expressed id n₀ hn₀).state
  · obtain ⟨id, n₀, hn₀, rfl⟩ := (hnodes n).1 hn
    rw [(hf n₀).outputs]
    exact (h.expressed id n₀ hn₀).outputs

end Expressed

/-! ## The studio -/

namespace Studio

variable {c : Context StudioNode}

theorem yields_ended {result : Except Failure Outputs} (h : ∀ o, result = .ok o → P o) :
    (ended result).Yields P := by
  cases result with
  | error cause => exact .failed cause
  | ok o => exact .gives o (h o rfl)

theorem yields_submit {request : Except Failure Generation.Request}
    {outputs : Generation.Output → Except Failure Outputs}
    (h : ∀ output o, outputs output = .ok o → P o) : (submit request outputs).Yields P := by
  cases request with
  | error cause => exact .failed cause
  | ok request =>
    refine .asks _ _ fun outcome => ?_
    cases outcome with
    | error err => exact .failed _
    | ok output => exact yields_ended fun o ho => h output o ho

theorem exists_of_bind_eq_ok {ε α β : Type} {x : Except ε α} {f : α → Except ε β} {b : β}
    (h : x >>= f = .ok b) : ∃ a, x = .ok a ∧ f a = .ok b := by
  cases x with
  | error cause => cases h
  | ok a => exact ⟨a, rfl, h⟩

theorem sorted_of_input (hinputs : ∀ port v, c.inputs.get? port = some v → v.Sorted) {port : PortId}
    {v : Value} (h : c.input port = .ok v) : v.Sorted := by
  unfold Context.input at h
  split at h
  · rename_i w hw
    cases h
    exact hinputs port v hw
  · cases h

theorem writable_choose (hinputs : ∀ port v, c.inputs.get? port = some v → v.Sorted) {o : Outputs}
    (h : choose c = .ok o) : Writable o := by
  obtain ⟨condition, -, h⟩ := exists_of_bind_eq_ok h
  obtain ⟨truth, -, h⟩ := exists_of_bind_eq_ok h
  obtain ⟨v, hv, h⟩ := exists_of_bind_eq_ok h
  have hsingle port : Writable (Outputs.single port v) :=
    Outputs.writable_single (sorted_of_input hinputs hv)
  cases h
  cases truth with
  | true => exact Outputs.writable_insert (hsingle "trueOut") trivial
  | false => exact Outputs.writable_insert (hsingle "falseOut") trivial

theorem writable_calculate {o : Outputs} (h : calculate c = .ok o) : Writable o := by
  unfold calculate at h
  split at h
  · obtain ⟨a, -, h⟩ := exists_of_bind_eq_ok h
    obtain ⟨b, -, h⟩ := exists_of_bind_eq_ok h
    obtain ⟨x, -, h⟩ := exists_of_bind_eq_ok h
    cases h
    exact Outputs.writable_single (Value.sorted_ofFloat x)
  · cases h

theorem sorted_prompt (text : String) (images : List String) :
    (Value.ofMembers [("text", .string text), ("images", .strings images)]).Sorted :=
  Value.sorted_ofMembers (List.forall_mem_cons.2 ⟨trivial,
    List.forall_mem_singleton.2 (Value.sorted_strings images)⟩)

theorem sorted_fileValue (f : FileInput) : (fileValue f).Sorted := by
  refine Value.sorted_ofMembers ?_
  simp only [List.forall_mem_cons]
  exact ⟨trivial, trivial, trivial, trivial, List.forall_mem_nil _⟩

/-- The computations of the studio nodes come to outputs in key order. -/
theorem expressive_registry : registry.Expressive where
  yields d context hd _ hinputs := by
    rw [of?_registry] at hd
    cases hd
    obtain ⟨id, state, inputs⟩ := context
    cases state with
    | textInput s =>
      refine yields_ended fun o ho => ?_
      cases ho
      exact Outputs.writable_single (sorted_prompt _ _)
    | fileInput f =>
      refine yields_ended fun o ho => ?_
      dsimp only at ho
      split at ho
      · cases ho
        exact Outputs.writable_single (sorted_fileValue f)
      · cases ho
    | number value =>
      refine yields_ended fun o ho => ?_
      cases ho
      exact Outputs.writable_single (Value.sorted_ofFloat value)
    | arithmetic s => exact yields_ended fun o ho => writable_calculate ho
    | conditional => exact yields_ended fun o ho => writable_choose hinputs ho
    | imageGeneration s =>
      refine yields_submit fun output o ho => ?_
      split at ho
      · cases ho
      · cases ho
        exact Outputs.writable_single (Value.sorted_strings _)
    | videoGeneration s =>
      refine yields_submit fun output o ho => ?_
      split at ho
      · cases ho
      · cases ho
        exact Outputs.writable_single trivial
    | textGeneration s =>
      refine yields_submit fun output o ho => ?_
      split at ho
      · cases ho
        exact Outputs.writable_single trivial
      · cases ho
  result d s t outputs hd hs _ := by
    rw [of?_registry] at hd
    cases hd
    cases t with
    | imageGeneration | videoGeneration =>
      dsimp only [definitionOf, imageGeneration, videoGeneration]
      split
      · trivial
      · exact hs
    | textGeneration =>
      dsimp only [definitionOf, textGeneration]
      split
      · exact hs
      · exact hs
    | _ => exact hs

end Studio

end Patchbay
