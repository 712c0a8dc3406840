import Patchbay.Engine.InPlace
import Patchbay.Proofs.Succession

/-!
# Edits are atomic

The edits in place come to what the edits in one step come to: when one fails, what it wrote has
been taken back or it wrote nothing at all. For that the errors that could come late must not come
at all: a connection at a lost port is there when it is taken away, and the graph of a snapshot
without defects can be built.

What is proved here:
  1. `Graph.exists_dropEdges`: the connections at lost ports can all be taken away.
  2. `InPlace.run_update`, `InPlace.run_restore` and the like: each edit in place.
  3. `World.failed_edit_changes_nothing`: in every world that can be reached, an edit that fails
     leaves the engine as it was, and fails for one of the reasons that belong to it.
-/

namespace Patchbay

variable {σ α : Type}

/-! ## Connections at lost ports -/

namespace Graph

variable [NodeState σ] {r : Registry σ} {g : Graph σ}

/-- Connections that are there, each listed once, can all be taken away: none of the reactions in
between takes another one away. -/
theorem exists_dropEdges {node : NodeId} {cs : List Connection} (hnodup : cs.Nodup)
    (hcs : ∀ c ∈ cs, g.wiring.producerOf c.sink = some c.source) (changed : List NodeId) :
    ∃ x, g.dropEdges r node changed cs = .ok x := by
  induction cs generalizing g changed with
  | nil => exact ⟨_, rfl⟩
  | cons c rest ih =>
    obtain ⟨hc, hrest⟩ := List.forall_mem_cons.1 hcs
    obtain ⟨hnew, hnodup⟩ := List.nodup_cons.1 hnodup
    have hremove : g.wiring.remove c = .ok (g.wiring.cut c) := by
      rw [Wiring.remove, if_pos (Wiring.contains_iff.2 hc)]
    have hedge := keeps_afterEdge r false { g with wiring := g.wiring.cut c } c
    -- The reactions keep the wiring, so the cut is all that the rest has to survive.
    have hlater : ∀ c' ∈ rest,
        (afterEdge r false { g with wiring := g.wiring.cut c } c).1.wiring.producerOf c'.sink =
          some c'.source := by
      intro c' hc'
      rw [hedge.wiring]
      exact (Wiring.producerOf_cut_iff hc).2 ⟨hrest c' hc', fun he => hnew (he ▸ hc')⟩
    rw [dropEdges, hremove]
    dsimp only
    obtain ⟨x, hx⟩ := ih hnodup hlater _
    rw [hx]
    exact ⟨_, rfl⟩

end Graph

namespace Engine

open Patchbay.Graph

variable [NodeState σ] {e : Engine σ}

/-- The connections at ports that a new state does not have can all be taken away. -/
theorem exists_dropLost (hw : e.graph.wiring.Sound) (id : NodeId) (n : Node σ)
    (d : Definition σ) (state : σ) :
    ∃ x, ((e.graph.setState id state).invalidate id).1.dropEdges e.registry id []
      (((e.graph.setState id state).invalidate id).1.lostEdges d id n.state state) = .ok x := by
  have htold := (keeps_setState e.graph id state).trans (keeps_invalidate _ id)
  have hsound : ((e.graph.setState id state).invalidate id).1.wiring.Sound :=
    htold.wiring.symm ▸ hw
  refine exists_dropEdges ((hsound.nodup_around id).filter _) (fun c hc => ?_) []
  rcases List.mem_append.1 (List.mem_of_mem_filter hc) with hin | hout
  · exact (Wiring.mem_incoming.1 hin).1
  · exact (hsound.mirrored _ _).1 (Wiring.mem_outgoing.1 hout).1

theorem exists_replaceState (hw : e.graph.wiring.Sound) (id : NodeId) (n : Node σ)
    (d : Definition σ) (state : σ) :
    ∃ e' ids, e.replaceState id n d state = .ok (e', ids) := by
  obtain ⟨x, hdrop⟩ := exists_dropLost hw id n d state
  unfold replaceState
  simp only [hdrop, bind, Except.bind]
  exact ⟨_, _, rfl⟩

end Engine

/-! ## Each edit in place -/

namespace InPlace

open Patchbay.Graph

/-- What an edit in one step comes to in place: an error leaves the engine as it was. -/
def settle (e : Engine σ) : Except Error (Engine σ × α) → EStateM.Result Error (Engine σ) α
  | .ok (e', a) => .ok a e'
  | .error err => .error err e

variable {β : Type} {e : Engine σ}

theorem run_get_bind (f : Engine σ → InPlace σ α) : (get >>= f).run e = (f e).run e := rfl

theorem run_write_bind (f : Graph σ → Graph σ) (k : Unit → InPlace σ α) :
    (write f >>= k).run e = (k ()).run (e.withGraph (f e.graph)) := rfl

theorem run_change_bind (f : Graph σ → Graph σ × β) (k : β → InPlace σ α) :
    (change f >>= k).run e = (k (f e.graph).2).run (e.withGraph (f e.graph).1) := rfl

theorem run_ok_bind {x : InPlace σ β} {b : β} {e' : Engine σ} (h : x.run e = .ok b e')
    (k : β → InPlace σ α) : (x >>= k).run e = (k b).run e' := by
  rw [EStateM.run_bind, h]

theorem run_check_ok_bind (b : β) (k : β → InPlace σ α) :
    (check (.ok b) >>= k).run e = (k b).run e := rfl

theorem run_check_bind {x : Except Error β} {f : β → InPlace σ α}
    {g : β → Except Error (Engine σ × α)}
    (h : ∀ b, x = .ok b → (f b).run e = settle e (g b)) :
    (check x >>= f).run e = settle e (x >>= g) := by
  cases x with
  | error err => rfl
  | ok b => exact h b rfl

/-- What is given in the end may be another form of the result. -/
theorem run_bind_pure {x : InPlace σ β} {r : Except Error (Engine σ × β)} {f : β → α}
    {g : Engine σ × β → Engine σ × α} (h : x.run e = settle e r)
    (hfg : ∀ e' b, g (e', b) = (e', f b)) :
    (x >>= fun b => pure (f b)).run e = settle e (r.map g) := by
  rw [EStateM.run_bind, h]
  cases r with
  | error err => rfl
  | ok y =>
    rw [Except.map, hfg y.1 y.2]
    rfl

/-- An edit that gives nothing is followed by what is given in its place. -/
theorem run_bind_done {x : InPlace σ Unit} {r : Except Error (Engine σ)}
    (h : x.run e = settle e (r.map (·, ()))) (a : α) :
    (x >>= fun _ => pure a).run e = settle e (r.map (·, a)) := by
  rw [EStateM.run_bind, h]
  cases r with
  | error err => rfl
  | ok e' => rfl

variable [NodeState σ]

theorem run_createWith (e : Engine σ) (id : NodeId) (state : σ) :
    (createWith id state).run e = settle e ((e.createWith id state).map (·, ())) := by
  unfold createWith Engine.createWith
  rw [run_get_bind]
  by_cases hhas : e.registry.has (NodeState.typeName state) = true
  · rw [if_pos hhas, run_get_bind]
    simp only [hhas, if_true]
    cases e.graph.insertNode (Node.new id state) with
    | error err => rfl
    | ok g => rfl
  · simp only [hhas, Bool.false_eq_true, if_false]
    rfl

theorem run_create (e : Engine σ) (id : NodeId) (type : String) :
    (create id type).run e = settle e ((e.create id type).map (·, ())) := by
  unfold create Engine.create
  rw [run_get_bind]
  cases e.registry.defaultState type with
  | error err => rfl
  | ok state => exact run_createWith e id state

theorem run_remove (e : Engine σ) (id : NodeId) :
    (remove id).run e = settle e (e.remove id) := by
  unfold remove Engine.remove
  rw [run_get_bind]
  exact run_check_bind fun _ _ => rfl

omit [NodeState σ] in
theorem run_markStale (e : Engine σ) (id : NodeId) :
    (markStale id).run e = settle e (e.markStale id) := by
  unfold markStale Engine.markStale
  rw [run_get_bind]
  exact run_check_bind fun _ _ => rfl

theorem run_rewire_bind (connected : Bool) (wiring : Wiring) (c : Connection)
    (k : Unit → InPlace σ α) :
    (rewire connected wiring c >>= k).run e = (k ()).run (e.rewire connected wiring c) := rfl

theorem run_connect (e : Engine σ) (source sink : PortRef) :
    (connect source sink).run e = settle e (e.connect source sink) := by
  unfold connect Engine.connect
  rw [run_get_bind]
  refine run_check_bind fun start _ => run_check_bind fun stop _ => ?_
  by_cases hfits : start.kind.fits stop.kind = true
  · rw [if_pos hfits, if_pos hfits]
    refine run_check_bind fun wiring _ => ?_
    have hpolicy : (e.rewire true wiring ⟨source, sink⟩).policy = e.policy := rfl
    rw [run_rewire_bind]
    by_cases hauto : e.policy.autoRunOnConnect = true
    · simp only [hpolicy, hauto, if_true]
      rfl
    · simp only [hpolicy, hauto, Bool.false_eq_true, if_false]
      rfl
  · rw [if_neg hfits, if_neg hfits]
    rfl

theorem run_disconnect (e : Engine σ) (source sink : PortRef) :
    (disconnect source sink).run e = settle e (e.disconnect source sink) := by
  unfold disconnect Engine.disconnect
  rw [run_get_bind]
  exact run_check_bind fun _ _ => rfl

/-- If all connections of a list can be taken away, taking them away in place does the same. An
error halfway would come with some of them gone. -/
theorem run_dropEdges {r : Registry σ} {node : NodeId} {changed : List NodeId}
    {cs : List Connection} {g' : Graph σ} {lists : List NodeId × List NodeId}
    (h : e.graph.dropEdges r node changed cs = .ok (g', lists)) :
    (dropEdges r node changed cs).run e = .ok lists (e.withGraph g') := by
  induction cs generalizing e changed g' lists with
  | nil =>
    cases h
    rfl
  | cons c rest ih =>
    rw [Graph.dropEdges] at h
    split at h
    · cases h
    · rename_i wiring hremove
      simp only at h
      split at h
      · cases h
      · rename_i g₂ changed₂ others hrest
        cases h
        have hlater := ih (e := e.withGraph
          (Graph.afterEdge r false { e.graph with wiring := wiring } c).1) hrest
        rw [dropEdges, run_get_bind, hremove, run_check_ok_bind, run_write_bind, run_change_bind]
        exact run_ok_bind hlater _

omit [NodeState σ] in
/-- A state that is tried out on the node and taken back leaves nothing behind. -/
theorem modify_back {g : Graph σ} {id : NodeId} {n : Node σ} (hn : g.node? id = some n)
    (state : σ) :
    (g.modify id ({ · with state := state })).modify id ({ · with state := n.state }) = g := by
  rw [Graph.modify_modify]
  refine Graph.modify_eq_self fun n' hn' => ?_
  cases hn.symm.trans hn'
  rfl

/-- A state that is kept: the connections that it has no ports for are taken away in place. -/
theorem run_keepState (hw : e.graph.wiring.Sound) (id : NodeId) (n : Node σ) (d : Definition σ)
    (state : σ) : (keepState id n d state).run
      (e.withGraph (e.graph.modify id ({ · with state := state }))) =
        settle e (e.replaceState id n d state) := by
  obtain ⟨⟨g, changed, others⟩, hdrop⟩ := Engine.exists_dropLost hw id n d state
  have hwritten : (e.graph.modify id ({ · with state := state })).modify id
      (fun n => { n with status := if n.claimed then n.status else .idle }) =
        e.graph.setState id state := modify_modify ..
  unfold keepState Engine.replaceState
  rw [run_write_bind, run_change_bind, run_get_bind]
  simp only [Engine.graph_withGraph, Engine.registry_withGraph, Engine.withGraph_withGraph,
    hwritten, hdrop]
  exact run_ok_bind (run_dropEdges hdrop) _

theorem run_update (hw : e.graph.wiring.Sound) (id : NodeId) (edit : σ → σ) :
    (update id edit).run e = settle e (e.update id edit) := by
  unfold update Engine.update
  rw [run_get_bind]
  refine run_check_bind fun n hn => run_check_bind fun d _ => ?_
  dsimp only
  -- From here on the edited state stands on the node.
  rw [run_write_bind]
  by_cases hsame : (edit n.state == n.state) = true
  · rw [if_pos hsame, if_pos hsame]
    rfl
  by_cases htype : (NodeState.typeName (edit n.state) == n.typeName) = true
  · rw [if_neg hsame, if_pos htype, if_neg hsame, if_pos htype]
    exact run_keepState hw id n d (edit n.state)
  · rw [if_neg hsame, if_neg htype, if_neg hsame, if_neg htype, run_write_bind]
    have hback := modify_back (Engine.node_eq_ok hn) (edit n.state)
    rw [Engine.graph_withGraph, Engine.withGraph_withGraph, hback]
    rfl

theorem run_restore (e : Engine σ) (s : Snapshot σ) :
    (restore s).run e = settle e ((e.restore s).map (·, ())) := by
  unfold restore Engine.restore
  rw [run_get_bind]
  cases s.defects e.registry with
  | nil =>
    cases s.graph with
    | error err => rfl
    | ok g => rfl
  | cons d ds => rfl

end InPlace

/-! ## Reasons to fail -/

def FailsOnly (P : Error → Prop) (x : Except Error α) : Prop := ∀ err, x = .error err → P err

namespace FailsOnly

variable {β : Type} {P Q : Error → Prop}

theorem ok (a : α) : FailsOnly P (.ok a) := fun _ h => by cases h

theorem error {err : Error} (h : P err) : FailsOnly P (.error err : Except Error α) := by
  intro err' he
  cases he
  exact h

theorem mono {x : Except Error α} (h : FailsOnly P x) (hPQ : ∀ err, P err → Q err) :
    FailsOnly Q x := fun err he => hPQ err (h err he)

theorem bind {x : Except Error β} {f : β → Except Error α} (hx : FailsOnly P x)
    (hf : ∀ b, FailsOnly P (f b)) : FailsOnly P (x >>= f) := by
  cases x with
  | error err => exact .error (hx err rfl)
  | ok b => exact hf b

theorem map {x : Except Error β} (hx : FailsOnly P x) (f : β → α) : FailsOnly P (x.map f) := by
  cases x with
  | error err => exact .error (hx err rfl)
  | ok b => exact .ok (f b)

theorem ite {c : Prop} [Decidable c] {x y : Except Error α} (hx : FailsOnly P x)
    (hy : FailsOnly P y) : FailsOnly P (if c then x else y) := by
  split
  · exact hx
  · exact hy

end FailsOnly

abbrev Structural (x : Except Error α) : Prop := FailsOnly (·.isStructural = true) x

theorem failsOnly_node (g : Graph σ) (id : NodeId) :
    FailsOnly (· = .nodeNotFound id) (g.node id) := by
  unfold Graph.node
  split
  · exact .ok _
  · exact .error rfl

theorem failsOnly_get (r : Registry σ) (type : String) :
    FailsOnly (· = .nodeTypeNotFound type) (r.get type) := by
  unfold Registry.get
  split
  · exact .ok _
  · exact .error rfl

theorem structural_node (g : Graph σ) (id : NodeId) : Structural (g.node id) :=
  (failsOnly_node g id).mono fun _ he => he ▸ rfl

theorem structural_get (r : Registry σ) (type : String) : Structural (r.get type) :=
  (failsOnly_get r type).mono fun _ he => he ▸ rfl

/-- The errors that belong to an edit. -/
def Edit.FailsBy [NodeState σ] (r : Registry σ) : Edit σ → Error → Prop
  | .update id _, err => err = .nodeNotFound id ∨ (∃ type, err = .nodeTypeNotFound type) ∨
    ∃ old new, err = .typeChanged id old new
  | .restore s, err => s.defects r ≠ [] ∧ err = .invalidSnapshot (s.defects r)
  | _, err => err.isStructural = true

namespace Engine

variable [NodeState σ]

theorem structural_portOn (r : Registry σ) (g : Graph σ) (port : PortRef)
    (expected : Direction) : Structural (g.portOn r port expected) := by
  refine (structural_node g _).bind fun n => (structural_get r _).bind fun d => ?_
  split
  · exact .error rfl
  · exact .ite (.ok _) (.error rfl)

theorem structural_createWith (e : Engine σ) (id : NodeId) (state : σ) :
    Structural (e.createWith id state) := by
  have hinsert : Structural (e.graph.insertNode (Node.new id state)) := .ite (.error rfl) (.ok _)
  exact .ite (hinsert.bind fun _ => .ok _) (.error rfl)

theorem structural_create (e : Engine σ) (id : NodeId) (type : String) :
    Structural (e.create id type) :=
  ((structural_get e.registry type).map _).bind fun state => structural_createWith e id state

theorem structural_remove (e : Engine σ) (id : NodeId) : Structural (e.remove id) :=
  (structural_node e.graph id).bind fun _ => .ok _

omit [NodeState σ] in
theorem structural_markStale (e : Engine σ) (id : NodeId) : Structural (e.markStale id) :=
  (structural_node e.graph id).bind fun _ => .ok _

theorem structural_connect (e : Engine σ) (source sink : PortRef) :
    Structural (e.connect source sink) := by
  have hinsert : Structural (e.graph.wiring.insert ⟨source, sink⟩) :=
    .ite (.error rfl) (.ite (.error rfl) (.ok _))
  refine (structural_portOn _ _ _ _).bind fun start =>
    (structural_portOn _ _ _ _).bind fun stop => ?_
  exact .ite (hinsert.bind fun _ => .ok _) (.error rfl)

theorem structural_disconnect (e : Engine σ) (source sink : PortRef) :
    Structural (e.disconnect source sink) := by
  have hremove : Structural (e.graph.wiring.remove ⟨source, sink⟩) := .ite (.ok _) (.error rfl)
  exact hremove.bind fun _ => .ok _

/-- The connections at lost ports are no reason for an edit of a state to fail. -/
theorem failsOnly_update {e : Engine σ} (hw : e.graph.wiring.Sound) (id : NodeId)
    (edit : σ → σ) : FailsOnly ((Edit.update id edit).FailsBy e.registry) (e.update id edit) := by
  unfold update
  have hnode := (failsOnly_node e.graph id).mono (Q := (Edit.update id edit).FailsBy e.registry)
    fun _ he => Or.inl he
  refine hnode.bind fun n => ?_
  have hget := (failsOnly_get e.registry n.typeName).mono
    (Q := (Edit.update id edit).FailsBy e.registry) fun _ he => Or.inr (.inl ⟨_, he⟩)
  refine hget.bind fun d => .ite (.ok _) (.ite ?_ (.error (Or.inr (.inr ⟨_, _, rfl⟩))))
  obtain ⟨e', ids, hreplace⟩ := exists_replaceState hw id n d (edit n.state)
  rw [hreplace]
  exact .ok _

theorem failsOnly_restore (e : Engine σ) (s : Snapshot σ) :
    FailsOnly ((Edit.restore s).FailsBy e.registry) (e.restore s) := by
  unfold restore
  split
  · rename_i hd
    obtain ⟨g, hg⟩ := Snapshot.exists_graph hd
    rw [hg]
    exact .ok _
  · rename_i hd
    exact .error ⟨hd, rfl⟩

end Engine

/-! ## Calls -/

namespace Edit

variable [NodeState σ]

theorem run_act {e : Engine σ} (hw : e.graph.wiring.Sound) (call : Edit σ) :
    call.act.run e = InPlace.settle e (call.apply e) := by
  cases call with
  | create id type => exact InPlace.run_bind_done (InPlace.run_create e id type) Reply.done
  | createWith id state =>
    exact InPlace.run_bind_done (InPlace.run_createWith e id state) Reply.done
  | remove id => exact InPlace.run_bind_pure (InPlace.run_remove e id) fun _ _ => rfl
  | update id edit => exact InPlace.run_bind_pure (InPlace.run_update hw id edit) fun _ _ => rfl
  | markStale id => exact InPlace.run_bind_pure (InPlace.run_markStale e id) fun _ _ => rfl
  | connect source sink =>
    exact InPlace.run_bind_pure (InPlace.run_connect e source sink) fun _ _ => rfl
  | disconnect source sink =>
    exact InPlace.run_bind_pure (InPlace.run_disconnect e source sink) fun _ _ => rfl
  | restore s => exact InPlace.run_bind_done (InPlace.run_restore e s) Reply.done

theorem failsOnly_apply {e : Engine σ} (hw : e.graph.wiring.Sound) (call : Edit σ) :
    FailsOnly (call.FailsBy e.registry) (call.apply e) := by
  cases call with
  | create id type => exact (e.structural_create id type).map _
  | createWith id state => exact (e.structural_createWith id state).map _
  | remove id => exact (e.structural_remove id).map _
  | update id edit => exact (Engine.failsOnly_update hw id edit).map _
  | markStale id => exact (e.structural_markStale id).map _
  | connect source sink => exact (e.structural_connect source sink).map _
  | disconnect source sink => exact (e.structural_disconnect source sink).map _
  | restore s => exact (e.failsOnly_restore s).map _

/-- An edit that fails in place leaves the engine as it was, and fails in one step too. -/
theorem kept_of_run_error {e e' : Engine σ} (hw : e.graph.wiring.Sound) {call : Edit σ}
    {err : Error} (h : call.act.run e = .error err e') :
    e' = e ∧ call.apply e = .error err := by
  rw [run_act hw] at h
  cases happly : call.apply e with
  | ok x =>
    rw [happly] at h
    cases h
  | error err' =>
    rw [happly] at h
    cases h
    exact ⟨rfl, rfl⟩

end Edit

/-- In every world that can be reached, an edit that fails has changed nothing: every node, every
connection and the log are what they were. It fails where the edit in one step fails, and with an
error that belongs to it: a restoration reports the defects of its snapshot, and an edit of a state
does not fail for the connections that it takes away. -/
theorem World.failed_edit_changes_nothing [NodeState σ] (r : Registry σ) (p : Policy)
    (moves : List (Move σ)) (call : Edit σ) {err : Error} {e : Engine σ}
    (h : call.act.run (after r p moves).engine = .error err e) :
    e = (after r p moves).engine ∧ call.apply (after r p moves).engine = .error err ∧
      call.FailsBy (after r p moves).engine.registry err := by
  have hw := sound_wiring_after r p moves
  obtain ⟨rfl, happly⟩ := Edit.kept_of_run_error hw h
  exact ⟨rfl, happly, Edit.failsOnly_apply hw call err happly⟩

namespace Bench

/-- A collector with a connection at each of its two sinks. -/
def wired : List (Move BenchNode) :=
  [.create "m" "merge", .create "a" "gated", .create "b" "gated",
    .connect ⟨"a", "output"⟩ ⟨"m", "in0"⟩, .connect ⟨"b", "output"⟩ ⟨"m", "in1"⟩]

/-- The state of another type is written to the collector, and is taken back. -/
theorem failed_edit_changes_nothing_retyping :
    let e := (World.after (registry {}) {} wired).engine
    (Edit.update "m" fun _ => .gated).act.run e =
      .error (.typeChanged "m" "merge" "gated") e := by
  intro e
  have hfails : (match (Edit.update "m" fun _ => .gated).act.run e with
      | .error (.typeChanged "m" "merge" "gated") _ => true
      | _ => false) = true := by
    decide +kernel
  split at hfails
  · rename_i e' hrun
    obtain ⟨hkept, -⟩ := World.failed_edit_changes_nothing _ _ wired _ hrun
    rw [hrun, hkept]
  · cases hfails

end Bench

end Patchbay
