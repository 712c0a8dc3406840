import Patchbay.Proofs.Atomicity
import Patchbay.Proofs.Hooks

/-!
# The mode of a video node

A video node makes a video from a text or from an image, and its mode says which of the two. Nobody
computes the mode from the connections: the node type is called when an image is connected and when
the connection goes, and sets the mode then. Since a sink has at most one connection and calls
mirror the connections, the mode is right at all times, as long as nobody writes to it.

What is proved here:
  1. `Studio.videoMode?_calls`: what calls make of the mode.
  2. `Studio.modal_next`: every move keeps the modes right.
  3. `World.calls_mirror_edges`: calls mirror the connections, and so do the modes.
-/

namespace Patchbay

open Engine Studio

def StudioNode.videoMode? : StudioNode → Option VideoMode
  | .videoGeneration s => some s.mode
  | _ => none

/-- The move leaves the modes of video nodes to the engine: a video node is created in the mode for
texts, and no edit changes its mode. -/
def Move.SparesModes : Move StudioNode → Prop
  | .createWith _ (.videoGeneration s) => s.mode = .textToVideo
  | .update _ edit => ∀ s t, edit (.videoGeneration s) = .videoGeneration t → t.mode = s.mode
  | _ => True

namespace Studio

/-- The mode that a video node is in with an image, or without one. -/
def modeWith (image : Bool) : VideoMode := if image then .imageToVideo else .textToVideo

/-- The mode of each video node says whether its image sink is connected. -/
def Modal (g : Graph StudioNode) : Prop :=
  ∀ id n mode, g.node? id = some n → n.state.videoMode? = some mode →
    mode = modeWith (g.wiring.producerOf ⟨id, "image"⟩).isSome

theorem videoMode?_isSome (s : StudioNode) :
    s.videoMode?.isSome = true ↔ s.typeName = "videoGeneration" := by
  cases s <;> simp [StudioNode.videoMode?, StudioNode.typeName]

theorem videoMode?_call (connected : Bool) (port : PortId) (s : StudioNode) :
    (registry.call connected port s).videoMode? =
      s.videoMode?.map fun mode => if port = "image" then modeWith connected else mode := by
  rw [Registry.call, of?_registry, Option.elim_some]
  cases s with
  | videoGeneration s =>
    by_cases hport : port = "image" <;> cases connected <;>
      simp [Definition.onEdge, definitionOf, videoGeneration, hport, withMode, modeWith,
        StudioNode.videoMode?]
  | imageGeneration s =>
    cases connected with
    | true => rfl
    | false =>
      simp only [Definition.onEdge, Bool.false_eq_true, if_false, definitionOf, imageGeneration]
      split
      · rename_i heq _
        cases heq
        rfl
      · rfl
  | _ => cases connected <;> rfl

theorem videoMode?_calls {connected : Bool} {calls : List Call}
    (h : ∀ call ∈ calls, call.connected = connected) (id : NodeId) (s : StudioNode) :
    (registry.calls id s calls).videoMode? = s.videoMode?.map fun mode =>
      if ⟨connected, ⟨id, "image"⟩⟩ ∈ calls then modeWith connected else mode := by
  induction calls generalizing s with
  | nil => simp [Registry.calls]
  | cons call rest ih =>
    obtain ⟨rfl, hrest⟩ := List.forall_mem_cons.1 h
    rw [Registry.calls_cons, ih hrest]
    by_cases hcall : call = ⟨call.connected, ⟨id, "image"⟩⟩
    · have hnode : call.port.node = id := by rw [hcall]
      have hport : call.port.port = "image" := by rw [hcall]
      rw [if_pos hnode, videoMode?_call, Option.map_map, hport, ← hcall]
      exact congrArg (s.videoMode?.map ·) (funext fun mode => by simp)
    · have hmode : (if call.port.node = id then registry.call call.connected call.port.port s
          else s).videoMode? = s.videoMode? := by
        split
        · rename_i hnode
          have hport : call.port.port ≠ "image" := fun hport => hcall (by rw [← hnode, ← hport])
          rw [videoMode?_call]
          simp [hport]
        · rfl
      rw [hmode]
      simp [Ne.symm hcall]

theorem videoMode?_applyResult (s : StudioNode) (outputs : Outputs) :
    ((definitionOf s).applyResult s outputs).videoMode? = s.videoMode? := by
  cases s with
  | imageGeneration s | videoGeneration s | textGeneration s =>
    simp only [definitionOf, imageGeneration, videoGeneration, textGeneration]
    split
    · rename_i heq _
      cases heq
      rfl
    · rfl
  | _ => rfl

/-- An edit that leaves the type and the modes as they are is no concern of the mode. -/
theorem videoMode?_edit {id : NodeId} {edit : StudioNode → StudioNode}
    (hm : (Move.update id edit).SparesModes) {s : StudioNode}
    (htype : (edit s).typeName = s.typeName) : (edit s).videoMode? = s.videoMode? := by
  cases s with
  | videoGeneration s =>
    obtain ⟨mode, hmode⟩ := Option.isSome_iff_exists.1 ((videoMode?_isSome _).2 htype)
    cases ht : edit (.videoGeneration s) with
    | videoGeneration t => exact congrArg some (hm s t ht)
    | _ =>
      rw [ht] at hmode
      cases hmode
  | _ =>
    refine Option.eq_none_iff_forall_ne_some.2 fun mode hmode => ?_
    have h := (videoMode?_isSome _).1 (Option.isSome_of_eq_some hmode)
    rw [htype] at h
    simp [StudioNode.typeName] at h

theorem exists_of_defaultState {type : String} {s : StudioNode}
    (h : registry.defaultState type = .ok s) : ∃ d ∈ definitions, d.defaultState = s := by
  rw [Registry.defaultState, Registry.get] at h
  split at h
  · rename_i d hd
    cases h
    obtain ⟨d', hd', heq⟩ := List.mem_map.1 (Dict.mem_of_ofList hd)
    cases heq
    exact ⟨_, hd', rfl⟩
  · cases h

theorem default_videoMode? {type : String} {s : StudioNode}
    (h : registry.defaultState type = .ok s) {mode : VideoMode} (hmode : s.videoMode? = some mode) :
    mode = .textToVideo := by
  obtain ⟨d, hd, rfl⟩ := exists_of_defaultState h
  have hall : ∀ d ∈ definitions, d.defaultState.videoMode?.all (· = .textToVideo) = true := by
    decide
  have htext := hall d hd
  rw [hmode] at htext
  exact of_decide_eq_true htext

variable {w : World StudioNode}

theorem videoMode?_write (h : Sound registry w.engine w.frames) {m : Move StudioNode}
    (hm : m.SparesModes) {id : NodeId} {n : Node StudioNode}
    (hn : w.engine.graph.node? id = some n) :
    (w.write m id n.state).videoMode? = n.state.videoMode? := by
  rcases World.write_cases steady_registry h m hn with hsame | ⟨edit, rfl, htype, hedit⟩ |
    ⟨d, outputs, hd, hresult⟩
  · rw [hsame]
  · rw [hedit]
    exact videoMode?_edit hm htype
  · rw [of?_registry] at hd
    cases hd
    rw [hresult, videoMode?_applyResult]

/-- A connection at the image sink of a video node ends there. -/
theorem touches_image {g : Graph StudioNode} (hg : g.Whole registry) {id : NodeId}
    {n : Node StudioNode} (hn : g.node? id = some n) (hvideo : n.state.videoMode?.isSome = true)
    {c : Connection} (hc : c ∈ g.wiring.edges) (htouches : c.Touches ⟨id, "image"⟩) :
    c.sink = ⟨id, "image"⟩ := by
  refine htouches.resolve_left fun hsource => ?_
  obtain ⟨p, q, ⟨n₁, d, hn₁, hd, hp⟩, -, hdirection, -⟩ := hg.joined c (Wiring.mem_edges.1 hc)
  rw [hsource] at hn₁ hp
  rw [hn] at hn₁
  cases hn₁
  rw [of?_registry] at hd
  cases hd
  -- The port of this name is a sink.
  cases hstate : n.state with
  | videoGeneration s =>
    rw [hstate] at hp
    cases hp
    cases hdirection
  | _ =>
    rw [hstate] at hvideo
    cases hvideo

/-- Just one connection can be at the image sink of a video node. -/
theorem producerOf_image {g : Graph StudioNode} (hg : g.Whole registry) {id : NodeId}
    {n : Node StudioNode} (hn : g.node? id = some n) (hvideo : n.state.videoMode?.isSome = true) :
    (g.wiring.producerOf ⟨id, "image"⟩).isSome = true ↔
      ∃ c ∈ g.wiring.edges, c.Touches ⟨id, "image"⟩ := by
  refine Option.isSome_iff_exists.trans ⟨fun ⟨source, h⟩ => ?_, fun ⟨c, hc, htouches⟩ => ?_⟩
  · exact ⟨⟨source, ⟨id, "image"⟩⟩, Wiring.mem_edges.2 h, .inr rfl⟩
  · rw [← touches_image hg hn hvideo hc htouches]
    exact ⟨c.source, Wiring.mem_edges.1 hc⟩

/-- A sink has one connection, so what comes there comes to a free sink. -/
theorem edge_unique {g : Graph StudioNode} (hg : g.Whole registry) {id : NodeId}
    {n : Node StudioNode} (hn : g.node? id = some n) (hvideo : n.state.videoMode?.isSome = true)
    {c c' : Connection} (hc : c ∈ g.wiring.edges) (hc' : c' ∈ g.wiring.edges)
    (ht : c.Touches ⟨id, "image"⟩) (ht' : c'.Touches ⟨id, "image"⟩) : c = c' := by
  have hsink := touches_image hg hn hvideo hc ht
  have hsink' := touches_image hg hn hvideo hc' ht'
  rw [Wiring.mem_edges, hsink] at hc
  rw [Wiring.mem_edges, hsink', hc] at hc'
  exact Connection.ext (Option.some.inj hc') (hsink.trans hsink'.symm)

section

variable {e e' : Engine StudioNode} {write : NodeId → StudioNode → StudioNode} {calls : List Call}
  {connected : Bool} {id : NodeId} {n n' : Node StudioNode}

/-- The call at the image sink tells whether there is an image now. -/
theorem image_of_called (hg : e.graph.Whole registry) (hg' : e'.graph.Whole registry)
    (hn : e.graph.node? id = some n) (hvideo : n.state.videoMode?.isSome = true)
    (hn' : e'.graph.node? id = some n') (hvideo' : n'.state.videoMode?.isSome = true)
    (h : e.Mirrors write calls e') (halike : ∀ call ∈ calls, call.connected = connected)
    (hcall : ⟨connected, ⟨id, "image"⟩⟩ ∈ calls) :
    (e'.graph.wiring.producerOf ⟨id, "image"⟩).isSome = connected := by
  have hafter := producerOf_image hg' hn' hvideo'
  cases connected with
  | true =>
    -- An image came.
    obtain ⟨c, hc, -, htouches⟩ := (h.mem_connects _).1 hcall
    exact hafter.2 ⟨c, hc, htouches⟩
  | false =>
    -- The image went. Another one would have been there beside it.
    obtain ⟨c, hc, hgone, htouches⟩ := (h.mem_disconnects hn').1 hcall
    refine Bool.eq_false_iff.2 fun hthere => ?_
    obtain ⟨c', hc', htouches'⟩ := hafter.1 hthere
    have hold : c' ∈ e.graph.wiring.edges := by
      by_contra hnew
      have hcall' := (h.mem_connects _).2 ⟨c', hc', hnew, htouches'⟩
      cases halike _ hcall'
    rw [edge_unique hg hn hvideo hc hold htouches htouches'] at hgone
    exact hgone hc'

/-- Without a call at the image sink there is an image just if there was one. -/
theorem image_of_uncalled (hg : e.graph.Whole registry) (hg' : e'.graph.Whole registry)
    (hn : e.graph.node? id = some n) (hvideo : n.state.videoMode?.isSome = true)
    (hn' : e'.graph.node? id = some n') (hvideo' : n'.state.videoMode?.isSome = true)
    (h : e.Mirrors write calls e') (hnone : ∀ connected, ⟨connected, ⟨id, "image"⟩⟩ ∉ calls) :
    (e'.graph.wiring.producerOf ⟨id, "image"⟩).isSome =
      (e.graph.wiring.producerOf ⟨id, "image"⟩).isSome := by
  rw [Bool.eq_iff_iff, producerOf_image hg hn hvideo, producerOf_image hg' hn' hvideo']
  exact exists_congr fun c => and_congr_left fun htouches => h.mem_edges_iff hn' hnone htouches

end

/-- A video node comes in the mode for texts, and without an image. -/
theorem modal_new (h : Sound registry w.engine w.frames) {m : Move StudioNode}
    (hrestore : m.isRestore = false) (hm : m.SparesModes) {id : NodeId} {n' : Node StudioNode}
    {mode : VideoMode} (hn : w.engine.graph.node? id = none)
    (hn' : (w.next m).engine.graph.node? id = some n') (hmode : n'.state.videoMode? = some mode) :
    mode = modeWith ((w.next m).engine.graph.wiring.producerOf ⟨id, "image"⟩).isSome := by
  obtain ⟨hwiring, hcreated⟩ := World.new_next hrestore hn hn'
  have hfree : w.engine.graph.wiring.producerOf ⟨id, "image"⟩ = none := by
    refine Option.eq_none_iff_forall_ne_some.2 fun source hsource => ?_
    obtain ⟨n, hthere⟩ := exists_node_of_joined (h.whole.joined ⟨source, ⟨id, "image"⟩⟩ hsource)
      (.inr rfl)
    rw [hn] at hthere
    cases hthere
  rw [hwiring, hfree]
  rcases hcreated with ⟨type, rfl, hdefault⟩ | rfl
  · rw [h.registry] at hdefault
    exact default_videoMode? hdefault hmode
  · cases hstate : n'.state with
    | videoGeneration s =>
      rw [hstate] at hm hmode
      cases hmode
      exact hm
    | _ =>
      rw [hstate] at hmode
      cases hmode

theorem modal_next (h : Sound registry w.engine w.frames) {m : Move StudioNode}
    (hrestore : m.isRestore = false) (hm : m.SparesModes) (hmodal : Modal w.engine.graph) :
    Modal (w.next m).engine.graph := by
  intro id n' mode hn' hmode
  have h' := World.sound_next steady_registry h m
  cases hn : w.engine.graph.node? id with
  | none => exact modal_new h hrestore hm hn hn' hmode
  | some n =>
    obtain ⟨calls, hmirrors⟩ := World.mirrors_next h.whole.wiring h.whole.anchored hrestore
    obtain ⟨connected, halike⟩ := hmirrors.alike
    have hvideo' := Option.isSome_of_eq_some hmode
    rw [hmirrors.states id n n' hn hn', h.registry, videoMode?_calls halike,
      videoMode?_write h hm hn] at hmode
    obtain ⟨mode', hmode', rfl⟩ := Option.map_eq_some_iff.1 hmode
    have hvideo := Option.isSome_of_eq_some hmode'
    split
    · rename_i hcall
      rw [image_of_called h.whole h'.whole hn hvideo hn' hvideo' hmirrors halike hcall]
    · rename_i hcall
      have hnone : ∀ connected, (⟨connected, ⟨id, "image"⟩⟩ : Call) ∉ calls := fun connected' hmem =>
        hcall (halike _ hmem ▸ hmem)
      rw [hmodal id n mode' hn hmode',
        image_of_uncalled h.whole h'.whole hn hvideo hn' hvideo' hmirrors hnone]

theorem modal_after (p : Policy) {moves : List (Move StudioNode)}
    (hmoves : ∀ m ∈ moves, m.isRestore = false ∧ m.SparesModes) :
    Modal (World.after registry p moves).engine.graph := by
  induction moves using List.reverseRecOn with
  | nil => exact fun id n mode hn => nomatch hn
  | append_singleton moves m ih =>
    rw [World.after_concat]
    obtain ⟨hmoves, hm⟩ := List.forall_mem_append.1 hmoves
    obtain ⟨hrestore, hspares⟩ := hm m List.mem_cons_self
    exact modal_next (World.sound_after steady_registry p moves) hrestore hspares (ih hmoves)

end Studio

/-- Calls mirror the connections. Whatever the move is, between the worlds before and after it
there are calls that are all that was done to the states besides what the move writes, one call at
a port for each connection that came there and one for each that went, in whatever way; a step of a
run makes none. An operation that is refused, as it acts in place, makes none either. So a
video node whose mode nobody else writes is in the mode for images just when it has an image. -/
theorem World.calls_mirror_edges :
    (∀ (σ : Type) [NodeState σ] (r : Registry σ) (p : Policy) (moves : List (Move σ)) (m : Move σ),
      m.isRestore = false →
      ∃ calls, (after r p moves).engine.Mirrors ((after r p moves).write m) calls
          (after r p (moves ++ [m])).engine ∧
        ∀ task, m = .step task → calls = []) ∧
    (∀ (σ : Type) [NodeState σ] (r : Registry σ) (p : Policy) (moves : List (Move σ))
      (call : Edit σ) (err : Error) (e' : Engine σ),
      call.act.run (after r p moves).engine = .error err e' →
      (after r p moves).engine.Mirrors (fun _ s => s) [] e') ∧
    ∀ (p : Policy) (moves : List (Move StudioNode)),
      (∀ m ∈ moves, m.isRestore = false ∧ m.SparesModes) →
      ∀ id n s, (after Studio.registry p moves).engine.graph.node? id = some n →
        n.state = .videoGeneration s →
        (s.mode = .imageToVideo ↔ ∃ source,
          (after Studio.registry p moves).engine.graph.wiring.producerOf ⟨id, "image"⟩ =
            some source) := by
  refine ⟨fun σ _ r p moves m hm => ?_, fun σ _ r p moves call err e' h => ?_,
    fun p moves hmoves id n s hn hs => ?_⟩
  · have hw : (after r p moves).engine.graph.wiring.Sound := sound_wiring_after r p moves
    rw [after_concat]
    obtain ⟨calls, hmirrors⟩ := mirrors_next hw (anchored_after r p moves) hm
    refine ⟨calls, hmirrors, ?_⟩
    rintro task rfl
    exact hmirrors.unique (mirrors_step hw task)
  · obtain ⟨rfl, -⟩ := Edit.kept_of_run_error (sound_wiring_after r p moves) h
    exact mirrors_of_same rfl rfl fun _ _ => rfl
  · have hmode := Studio.modal_after p hmoves id n s.mode hn (by rw [hs]; rfl)
    rw [← Option.isSome_iff_exists, hmode, Studio.modeWith]
    split <;> simp_all

namespace Studio

def filmed : List (Move StudioNode) :=
  [.create "i" "imageGeneration", .create "v" "videoGeneration",
    .connect ⟨"i", "output"⟩ ⟨"v", "image"⟩]

/-- The image node goes, which takes the connection away; a second connection of the kind would have
been refused. -/
theorem calls_mirror_edges_filmed :
    let w := World.after registry {} filmed
    (∃ calls, w.engine.Mirrors (w.write (.remove "i")) calls
      (World.after registry {} (filmed ++ [.remove "i"])).engine) ∧
    (∃ err e', (Edit.connect ⟨"i", "output"⟩ ⟨"v", "image"⟩).act.run w.engine = .error err e' ∧
      w.engine.Mirrors (fun _ s => s) [] e') ∧
    ∃ n s, w.engine.graph.node? "v" = some n ∧ n.state = .videoGeneration s ∧
      s.mode = .imageToVideo := by
  intro w
  obtain ⟨hcalls, hrefused, hmodes⟩ := World.calls_mirror_edges
  refine ⟨?_, ?_, ?_⟩
  · obtain ⟨calls, hmirrors, -⟩ :=
      hcalls StudioNode registry {} filmed (.remove "i") rfl
    exact ⟨calls, hmirrors⟩
  · have hfails : (match (Edit.connect ⟨"i", "output"⟩ ⟨"v", "image"⟩).act.run w.engine with
        | .error _ _ => true
        | .ok _ _ => false) = true := by
      decide +kernel
    split at hfails
    · rename_i err e' hrun
      exact ⟨err, e', hrun, hrefused _ registry {} filmed _ err e' hrun⟩
    · cases hfails
  · have hthere : (w.engine.graph.node? "v").any (·.state.videoMode?.isSome) = true := by
      decide +kernel
    obtain ⟨n, hn, hvideo⟩ := (Option.any_eq_true _ _).1 hthere
    cases hs : n.state with
    | videoGeneration s =>
      have hspares : ∀ m ∈ filmed, m.isRestore = false ∧ m.SparesModes := by
        simp [filmed, Move.isRestore, Move.SparesModes]
      have hproducer : w.engine.graph.wiring.producerOf ⟨"v", "image"⟩ =
          some ⟨"i", "output"⟩ := by
        decide +kernel
      exact ⟨n, s, hn, hs, (hmodes {} filmed hspares "v" n s hn hs).2 ⟨_, hproducer⟩⟩
    | _ =>
      rw [hs] at hvideo
      cases hvideo

end Studio

end Patchbay
