import Patchbay.Proofs.Blocking
import Patchbay.Proofs.Footprint
import Patchbay.Proofs.Requests

/-!
# Where values come from

Whatever stands on the outputs of a node was put there by the end of a computation of the node, of
whatever became of the node since. And every computation began somewhere: there was a world in
which the node had the state and could read the inputs that the computation was given, and as long
as computations go on as they say, what it has come to is what it can come to.

What is proved here:
  1. `Computation.ComesTo`: what a computation can come to.
  2. `World.traced_after`: every computation that is going on, and every one that is over, began in
     an earlier world.
  3. `World.recorded_after`: every value on an output was the answer of a computation.
-/

namespace Patchbay

variable {σ : Type}

/-- The computation can come to this result, if it goes on as it says. -/
inductive Computation.ComesTo (result : Except Failure Outputs) : Computation → Prop
  | done : ComesTo result (.done result)
  | goes (c c' : Computation) (h : c.Goes c') (hc : ComesTo result c') : ComesTo result c

theorem Computation.comesTo_done {result result' : Except Failure Outputs}
    (h : ComesTo result (.done result')) : result = result' := by
  cases h with
  | done => rfl
  | goes _ c' hgoes hc => cases hgoes

variable [NodeState σ]

/-! ## Where computations begin -/

namespace World

/-- In this world the node has this state and can read these inputs. -/
structure Begins (w : World σ) (d : Definition σ) (context : Context σ) : Prop where
  node : ∃ n, w.engine.graph.node? context.node = some n ∧ n.state = context.state
  definition : w.engine.registry.of? context.state = some d
  inputs : w.engine.graph.resolve context.node (d.ports context.state) = some context.inputs

/-- In some world on the way the node had this state and could read these inputs. -/
def HasBegun (r : Registry σ) (p : Policy) (moves : List (Move σ)) (d : Definition σ)
    (context : Context σ) : Prop :=
  ∃ earlier, earlier <+: moves ∧ (after r p earlier).Begins d context

variable {r : Registry σ} {p : Policy} {w : World σ} {moves : List (Move σ)} {m : Move σ}

theorem HasBegun.concat {d : Definition σ} {context : Context σ} (h : HasBegun r p moves d context)
    (m : Move σ) : HasBegun r p (moves ++ [m]) d context := by
  obtain ⟨earlier, hearlier, hbegins⟩ := h
  exact ⟨earlier, hearlier.trans (List.prefix_append _ _), hbegins⟩

/-- The only computation that a step brings about is one that begins. -/
theorem begins_of_turn {e : Engine σ} {top : Frame σ} {rest new : List (Frame σ)}
    (hturn : Turn w.engine top rest e new) {id : NodeId} {run epoch : Nat} {d : Definition σ}
    {context : Context σ} {c : Computation}
    (hmem : Frame.run id (.computing run epoch d context c) ∈ new) :
    w.Begins d context ∧ c = d.compute context := by
  cases hturn with
  | begin id run rest n d inputs hn hrun hd hinputs =>
    cases List.mem_singleton.1 hmem
    exact ⟨⟨⟨n, hn, rfl⟩, hd, hinputs⟩, rfl⟩
  | pull id run p todo rest =>
    rcases List.mem_cons.1 hmem with heq | hmem
    · cases heq
    · cases List.mem_singleton.1 hmem
  | pass top rest e' new hpass =>
    rcases hpass.new_cases with rfl | ⟨f, rfl, hf | ⟨id, run, ending, rfl, -⟩⟩
    · cases hmem
    · rw [← List.mem_singleton.1 hmem] at hf
      cases hf
    · cases List.mem_singleton.1 hmem
  | _ => cases List.mem_singleton.1 hmem

/-- A computation that is going on after a move was going on before it, or went on with it, or began
with it. -/
theorem computing_next {id : NodeId} {run epoch : Nat} {d : Definition σ} {context : Context σ}
    {c : Computation} (hprescribed : w.Prescribed m)
    (hmem : Frame.run id (.computing run epoch d context c) ∈ (w.next m).frames) :
    (∃ c₀, Frame.run id (.computing run epoch d context c₀) ∈ w.frames ∧ (c = c₀ ∨ c₀.Goes c)) ∨
      (w.Begins d context ∧ c = d.compute context) := by
  have hidle : ∀ {idle : List (Frame σ)}, (∀ f ∈ idle, f.run? = none) →
      Frame.run id (.computing run epoch d context c) ∉ idle := fun hidle hmem => by
    cases hidle _ hmem
  rcases w.move_cases m with hperforms | ⟨task, top, rest, e, new, -, htakes⟩ | ⟨task, c', rfl⟩
  · obtain ⟨idle, hnone, hframes⟩ := hperforms.frames
    rw [hframes] at hmem
    exact .inl ⟨c, (List.mem_append.1 hmem).resolve_right (hidle hnone), .inl rfl⟩
  · obtain ⟨pre, post, hsteps⟩ := htakes.steps
    obtain ⟨idle, hnone, hframes⟩ := hsteps.after
    rw [hframes] at hmem
    replace hmem := (List.mem_append.1 hmem).resolve_right (hidle hnone)
    rw [hsteps.before]
    rcases List.mem_append.1 hmem with hmem | hmem
    · rcases List.mem_append.1 hmem with hmem | hmem
      · exact .inl ⟨c, List.mem_append_left _ hmem, .inl rfl⟩
      · exact .inr (begins_of_turn htakes.turn hmem)
    · exact .inl ⟨c, List.mem_append_right _ (List.mem_cons_of_mem _ hmem), .inl rfl⟩
  · obtain ⟨s', hs', hmem⟩ := List.mem_flatten.1 hmem
    rcases mem_of_mem_modify hs' with hs | ⟨s, hs, rfl⟩
    · exact .inl ⟨c, List.mem_flatten.2 ⟨_, hs, hmem⟩, .inl rfl⟩
    unfold Stack.proceed at hmem
    split at hmem
    · rename_i c₀ rest
      rcases List.mem_cons.1 hmem with heq | hmem
      · cases heq
        exact .inl ⟨c₀, mem_frames hs List.mem_cons_self, .inr (hprescribed c₀ (by rw [hs]; rfl))⟩
      · exact .inl ⟨c, mem_frames hs (List.mem_cons_of_mem _ hmem), .inl rfl⟩
    · exact .inl ⟨c, mem_frames hs hmem, .inl rfl⟩

/-- An answer that a move adds is the result of a computation that was going on. -/
theorem answers_next {a : Answer σ} (ha : a ∈ (w.next m).answers) : a ∈ w.answers ∨
    ∃ id run epoch, Frame.run id (.computing run epoch a.definition a.context (.done a.result)) ∈
      w.frames := by
  rcases w.move_cases m with hperforms | ⟨task, top, rest, e, new, -, htakes⟩ | ⟨task, c', rfl⟩
  · exact .inl (hperforms.answers ▸ ha)
  · rw [htakes.answers] at ha
    refine (List.mem_append.1 ha).imp_right fun ha => ?_
    have hmem : top ∈ w.frames := mem_frames htakes.before List.mem_cons_self
    rw [Option.mem_toList] at ha
    unfold Frame.answer? at ha
    split at ha
    · cases ha
      exact ⟨_, _, _, hmem⟩
    · cases ha
  · exact .inl ha

/-- Every computation began in an earlier world, and what it can still come to, or has come to, is
what it could come to then. -/
structure Traced (r : Registry σ) (p : Policy) (moves : List (Move σ)) : Prop where
  levels : ∀ id run epoch d context c,
    Frame.run id (.computing run epoch d context c) ∈ (after r p moves).frames →
      HasBegun r p moves d context ∧ ∀ result, c.ComesTo result → (d.compute context).ComesTo result
  answers : ∀ a ∈ (after r p moves).answers,
    HasBegun r p moves a.definition a.context ∧ (a.definition.compute a.context).ComesTo a.result

theorem Traced.concat (h : Traced r p moves) (hprescribed : (after r p moves).Prescribed m) :
    Traced r p (moves ++ [m]) where
  levels id run epoch d context c hmem := by
    rw [after_concat] at hmem
    rcases computing_next hprescribed hmem with ⟨c₀, hold, hc⟩ | ⟨hbegins, rfl⟩
    · obtain ⟨hbegun, hcomes⟩ := h.levels id run epoch d context c₀ hold
      refine ⟨hbegun.concat m, fun result hresult => hcomes result ?_⟩
      rcases hc with rfl | hgoes
      · exact hresult
      · exact .goes c₀ c hgoes hresult
    · exact ⟨⟨moves, List.prefix_append _ _, hbegins⟩, fun result hresult => hresult⟩
  answers a ha := by
    rw [after_concat] at ha
    rcases answers_next ha with hold | ⟨id, run, epoch, hmem⟩
    · obtain ⟨hbegun, hcomes⟩ := h.answers a hold
      exact ⟨hbegun.concat m, hcomes⟩
    · obtain ⟨hbegun, hcomes⟩ := h.levels id run epoch _ _ _ hmem
      exact ⟨hbegun.concat m, hcomes _ .done⟩

theorem traced_after (h : (new r p).Honest moves) : Traced r p moves := by
  induction moves using List.reverseRecOn with
  | nil => exact ⟨fun _ _ _ _ _ _ hmem => (nomatch hmem), fun _ ha => (nomatch ha)⟩
  | append_singleton moves m ih =>
    -- A delivery is prescribed in the world that it comes to, so honesty is needed step by step.
    obtain ⟨hbefore, hprescribed⟩ := honest_earlier h
    exact (ih hbefore).concat hprescribed

end World

/-! ## What stands on outputs -/

/-- Every value on the outputs of the node is from the answer of a computation of a node of this
identity and this type. -/
def Node.Recorded (answers : List (Answer σ)) (id : NodeId) (n : Node σ) : Prop :=
  ∀ port v, n.outputs.value? port = some v → ∃ a ∈ answers, a.context.node = id ∧
    NodeState.typeName a.context.state = n.typeName ∧
    ∃ outputs, a.result = .ok outputs ∧ outputs.value? port = some v

namespace Node

variable {answers answers' : List (Answer σ)} {id : NodeId} {n n' : Node σ} {r : Registry σ}

theorem Recorded.mono (h : n.Recorded answers id) (hmore : ∀ a ∈ answers, a ∈ answers') :
    n.Recorded answers' id := fun port v hv => by
  obtain ⟨a, ha, hfrom⟩ := h port v hv
  exact ⟨a, hmore a ha, hfrom⟩

theorem Recorded.of_le (h : n.Recorded answers id) (htype : n'.typeName = n.typeName)
    (hvalues : ∀ port v, n'.outputs.value? port = some v → n.outputs.value? port = some v) :
    n'.Recorded answers id := fun port v hv => by
  obtain ⟨a, ha, hnode, hsame, hfrom⟩ := h port v (hvalues port v hv)
  exact ⟨a, ha, hnode, hsame.trans htype.symm, hfrom⟩

theorem robust_recorded (answers : List (Answer σ)) (id : NodeId) :
    Robust fun n n' : Node σ => n.Recorded answers id → n'.Recorded answers id where
  refl _ h := h
  trans _ _ _ h h' hn := h' (h hn)
  touched _ h := h
  invalidated _ h := h
  stopped n h := h.of_le rfl fun port v hv => by
    -- No stop sign is a value.
    have hget : n.stopped.outputs.get? port = (n.outputs.get? port).map fun _ => .stop :=
      Outputs.get?_allStopped n.outputs port
    rw [Outputs.value?, hget] at hv
    cases hport : n.outputs.get? port <;> rw [hport] at hv <;> cases hv

theorem editable_recorded (hr : r.Steady) (answers : List (Answer σ)) (id : NodeId) :
    Editable r fun n n' => n.Recorded answers id → n'.Recorded answers id where
  toRobust := robust_recorded answers id
  hook n d connected port hd h :=
    h.of_le (hr.hook d n.state connected port hd).type fun _ _ hv => hv
  edit n state status hcase h := by
    refine h.of_le ?_ fun _ _ hv => hv
    exact hcase.elim (fun hequal => (hr.equal state n.state hequal).type.symm) fun h => h

end Node

namespace World

variable {r : Registry σ} {p : Policy} {w : World σ} {m : Move σ} {moves : List (Move σ)}

/-- All values that stand on outputs are answers of computations. -/
def Recorded (w : World σ) : Prop :=
  ∀ id n, w.engine.graph.node? id = some n → n.Recorded w.answers id

theorem recorded_of_completes {e e' : Engine σ} {frames : List (Frame σ)} {top : Frame σ}
    {rest new : List (Frame σ)} {id : NodeId} (hr : r.Steady) (h : Sound r e frames)
    (hmem : top ∈ frames) (hcompletes : top.Completes e.graph id) (hturn : Turn e top rest e' new)
    {answers : List (Answer σ)} (hanswers : ∀ a ∈ top.answer?, a ∈ answers) {n' : Node σ}
    (hn' : e'.graph.node? id = some n') : n'.Recorded answers id := by
  obtain ⟨run, epoch, d, context, outputs, n, rfl, hn, hrun, hclaimed, rfl, -⟩ :=
    hcompletes.turn (h.registry ▸ h.whole) hturn
  obtain ⟨hvalid, hd⟩ := h.valid hmem hn hrun hclaimed
  obtain ⟨hnode, -, -⟩ := h.begun _ hmem
  rw [(Engine.commitOutputs_spec e id n epoch d outputs).2.2.1,
    Graph.node?_complete h.whole.wiring hn] at hn'
  cases hn'
  intro port v hv
  refine ⟨⟨d, context, .ok outputs⟩, hanswers _ rfl, hnode, ?_, outputs, rfl, hv⟩
  exact hvalid.type.symm.trans (hr.result d n.state outputs hd).type.symm

theorem recorded_next (hr : r.Steady) (hsound : Sound r w.engine w.frames)
    (hm : m.isRestore = false) (h : w.Recorded) : (w.next m).Recorded := by
  intro id n' hn'
  rcases w.move_cases m with hperforms | ⟨task, top, rest, e, new, -, htakes⟩ | ⟨task, c, rfl⟩
  · obtain ⟨e, hperformed, hsame⟩ := hperforms.engine
    rw [hperforms.answers]
    rw [hsame.graph] at hn'
    have heditable := Node.editable_recorded (hsound.registry.symm ▸ hr) w.answers id
    rcases hperformed.rel heditable id with hrel | ⟨-, hnone⟩ | ⟨state, hcreate⟩ | ⟨s, rfl, -⟩
    · obtain ⟨n, hn, hkeeps⟩ := Graph.exists_of_rel' hrel hn'
      exact hkeeps (h id n hn)
    · rw [hnone] at hn'
      cases hn'
    · obtain ⟨-, -, rfl⟩ := Engine.createWith_eq_ok hcreate
      rcases Graph.node?_of_inserted hn' with ⟨-, rfl⟩ | hn
      · exact fun port v hv => nomatch hv
      · exact h id n' hn
    · cases hm
  · rw [htakes.engine.graph] at hn'
    rw [htakes.answers]
    by_cases hcompletes : top.Completes w.engine.graph id
    · refine recorded_of_completes hr hsound (mem_frames htakes.before List.mem_cons_self)
        hcompletes htakes.turn (fun a ha => ?_) hn'
      exact List.mem_append_right _ (Option.mem_toList.2 ha)
    · have hrel := Engine.rel_turn_of_not_completes (m := id)
        (Node.robust_recorded w.answers id) htakes.turn hcompletes
        fun n n' hn hwrites hdone hbefore => by
          cases hwrites with
          | blocked =>
            refine hbefore.of_le rfl fun port v hv => ?_
            rw [Node.blocked, Outputs.value?, Outputs.get?_stopped] at hv
            split at hv <;> cases hv
          | completed => exact absurd rfl (hdone _ _ _ _ _)
          | released _ run _ n =>
            unfold Node.released
            split <;> exact hbefore
          | _ => exact hbefore
      obtain ⟨n, hn, hkeeps⟩ := Graph.exists_of_rel' hrel hn'
      exact (hkeeps (h id n hn)).mono fun a ha => List.mem_append_left _ ha
  · exact h id n' hn'

theorem recorded_after (hr : r.Steady) (hmoves : ∀ m ∈ moves, m.isRestore = false) :
    (after r p moves).Recorded := by
  induction moves using List.reverseRecOn with
  | nil => exact fun id n hn => nomatch hn
  | append_singleton moves m ih =>
    rw [after_concat]
    obtain ⟨hmoves, hm⟩ := List.forall_mem_append.1 hmoves
    exact recorded_next hr (sound_after hr p moves) (hm m List.mem_cons_self) (ih hmoves)

end World

end Patchbay
