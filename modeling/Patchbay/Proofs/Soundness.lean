import Patchbay.Proofs.Numbering

/-!
# Sound worlds

The invariant of all interleavings. The graph is whole and staleness is closed downstream. Every
run number belongs to one level of one task, so a run that finds its number on a claimed node has
not been overtaken. A computation that is going on knows what it is computing from: as long as
its node has the epoch under which it began, the inputs that it was given are what the node
reads.

What is proved here:
  1. `Sound.turn`: every step of every task keeps the invariant.
  2. `World.sound_after`: it holds in every world that can be reached.
-/

namespace Patchbay

variable {σ : Type} [NodeState σ]

/-- What a computation was given, seen from its node: the node is of the same type, and until it
is invalidated its state and what it reads are what they were. -/
structure Valid (g : Graph σ) (id : NodeId) (began : Nat) (context : Context σ) (n : Node σ) :
    Prop where
  type : n.typeName = NodeState.typeName context.state
  epoch : began ≤ n.epoch
  current : n.epoch = began → Alike n.state context.state ∧ g.Reads id context.inputs
  outdated : began < n.epoch → n.stale = true

/-- A computation on this level began on a node of a registered type, and what it was given is
valid for as long as its run has the node. -/
def Frame.Begun (r : Registry σ) (g : Graph σ) : Frame σ → Prop
  | .run id (.computing k epoch d context _) =>
    context.node = id ∧ r.of? context.state = some d ∧
      ∀ n, g.node? id = some n → n.claimed = true → n.run = k → Valid g id epoch context n
  | _ => True

/-- The invariant of an engine with the levels of all tasks on it. -/
structure Sound (r : Registry σ) (e : Engine σ) (frames : List (Frame σ)) : Prop where
  registry : e.registry = r
  whole : e.graph.Whole r
  closed : e.graph.Closed
  distinct : (frames.filterMap Frame.run?).Nodup
  below : ∀ run ∈ frames.filterMap Frame.run?, run < e.nextRun
  begun : ∀ f ∈ frames, f.Begun r e.graph

variable {r : Registry σ} {g g' : Graph σ} {P : Set NodeId} {e e' : Engine σ}
  {frames : List (Frame σ)}

/-! ## Changes of the graph -/

theorem Graph.Closed.spares (h : g.Closed) (hs : g.Spares P g')
    (hP : ∀ v ∈ P, g'.isFresh v = true → ∀ u, g'.wiring.Feeds u v → g'.isFresh u = true) :
    g'.Closed := by
  intro u v huv hfresh
  by_cases hv : v ∈ P
  · exact hP v hv hfresh u huv
  · obtain ⟨n', hn', hfresh'⟩ := Graph.isFresh_iff.1 hfresh
    obtain ⟨n, hn, hs', -, hund⟩ := hs.fresh hv hn' hfresh'
    obtain ⟨huv', hup⟩ := hund.feeds huv
    exact hup (h u v huv' (Graph.isFresh_iff.2 ⟨n, hn, hs'⟩))

theorem Valid.spares {id : NodeId} {began : Nat} {context : Context σ} {n n' : Node σ}
    (h : Valid g id began context n) (hkin : n.Kin n')
    (hcase : n.Outdated n' ∨ n.Calm n' ∧ Graph.Undisturbed g g' id) :
    Valid g' id began context n' := by
  refine ⟨hkin.type.trans h.type, Nat.le_trans h.epoch hkin.epoch, fun he => ?_, fun he => ?_⟩
  · rcases hcase with hout | ⟨hcalm, hund⟩
    · have hle := h.epoch
      have hlt := hout.epoch
      omega
    · obtain ⟨hstate, hreads⟩ := h.current (by rw [← hcalm.epoch, he])
      exact ⟨hcalm.state.symm.trans hstate, hreads.undisturbed hund⟩
  · rcases hcase with hout | ⟨hcalm, -⟩
    · exact hout.stale
    · rw [hcalm.stale]
      exact h.outdated (by rw [← hcalm.epoch]; exact he)

/-- A computation that is going on stays valid, if it lost its node in case the node was not
spared. -/
theorem Frame.Begun.spares {f : Frame σ} (h : f.Begun r g) (hs : g.Spares P g')
    (hP : ∀ m ∈ P, ∀ n', g'.node? m = some n' → n'.claimed = true → f.run? ≠ some n'.run) :
    f.Begun r g' := by
  cases f with
  | wait target watch => trivial
  | errand left => trivial
  | run id phase =>
    cases phase with
    | computing run epoch d context c =>
      obtain ⟨hnode, hd, hvalid⟩ := h
      refine ⟨hnode, hd, fun n' hn' hclaimed hrun => ?_⟩
      by_cases hm : id ∈ P
      · exact absurd (by rw [hrun]; rfl) (hP id hm n' hn' hclaimed)
      · obtain ⟨n, hn, hkin, hcase⟩ := hs id hm n' hn'
        obtain ⟨hclaimed', hrun'⟩ := hkin.claim hclaimed
        exact (hvalid n hn hclaimed' (by rw [← hrun', hrun])).spares hkin hcase
    | _ => trivial

theorem Frame.begun_of_idle {f : Frame σ} (h : f.run? = none) : f.Begun r g := by
  cases f with
  | wait target watch => trivial
  | errand left => trivial
  | run id phase =>
    cases phase with
    | computing run epoch d context c => cases h
    | _ => trivial

namespace Sound

theorem edited (h : Sound r e frames) (hedit : e.Edited e') : Sound r e' frames where
  registry := hedit.registry.trans h.registry
  whole := by
    rw [← h.registry]
    exact hedit.whole
  closed := h.closed.spares hedit.drift.spares fun v hv => absurd hv (Set.notMem_empty v)
  distinct := h.distinct
  below := by
    rw [hedit.nextRun]
    exact h.below
  begun f hf := (h.begun f hf).spares hedit.drift.spares fun m hm => absurd hm (Set.notMem_empty m)

theorem same (h : Sound r e frames) (hsame : e.Same e') : Sound r e' frames := by
  obtain ⟨hr, -, hg, hn⟩ := hsame
  exact ⟨hr.trans h.registry, hg ▸ h.whole, hg ▸ h.closed, h.distinct, hn ▸ h.below,
    hg ▸ h.begun⟩

theorem append_idle (h : Sound r e frames) {idle : List (Frame σ)}
    (hidle : ∀ f ∈ idle, f.run? = none) : Sound r e (frames ++ idle) := by
  have hruns := runs_idle frames hidle
  refine ⟨h.registry, h.whole, h.closed, by rw [hruns]; exact h.distinct,
    by rw [hruns]; exact h.below, fun f hf => ?_⟩
  rcases List.mem_append.1 hf with hf | hf
  · exact h.begun f hf
  · exact Frame.begun_of_idle (hidle f hf)

/-! ## Steps of a task -/

theorem run?_ne {top f : Frame σ} {pre post : List (Frame σ)} {run : Nat}
    (h : Sound r e (pre ++ top :: post)) (htop : top.run? = some run) (hf : f ∈ pre ++ post) :
    f.run? ≠ some run := by
  intro hrun
  have hdistinct := h.distinct
  rw [List.filterMap_append, List.filterMap_cons, htop] at hdistinct
  have hperm := hdistinct.perm List.perm_middle
  rw [List.nodup_cons, ← List.filterMap_append] at hperm
  exact hperm.1 (List.mem_filterMap.2 ⟨f, hf, hrun⟩)

/-- A step whose effect spares all but one node keeps the invariant, if it takes the node from
every other run, and begins no computation but on what the node reads. -/
theorem turn_of_spares {top : Frame σ} {rest new pre post : List (Frame σ)}
    (h : Sound r e (pre ++ top :: post)) (hturn : Turn e top rest e' new)
    (hwhole : e'.graph.Whole r) (hclosed : e'.graph.Closed)
    (hold : ∀ f ∈ pre ++ post, f.Begun r e'.graph) (hnew : ∀ f ∈ new, f.Begun r e'.graph) :
    Sound r e' (pre ++ new ++ post) := by
  obtain ⟨hdistinct, hbelow⟩ := distinct_turn h.distinct h.below hturn
  refine ⟨(Engine.registry_turn hturn).1.trans h.registry, hwhole, hclosed, hdistinct, hbelow,
    fun f hf => ?_⟩
  rw [List.append_assoc, List.mem_append, List.mem_append] at hf
  rcases hf with hf | hf | hf
  · exact hold f (List.mem_append_left _ hf)
  · exact hnew f hf
  · exact hold f (List.mem_append_right _ hf)

theorem old {top : Frame σ} {pre post : List (Frame σ)} (h : Sound r e (pre ++ top :: post)) :
    ∀ f ∈ pre ++ post, f.Begun r e.graph := by
  intro f hf
  apply h.begun f
  simp only [List.mem_append, List.mem_cons] at hf ⊢
  tauto

theorem old_of_edited {top : Frame σ} {pre post : List (Frame σ)}
    (h : Sound r e (pre ++ top :: post)) (hedit : e.Edited e') :
    ∀ f ∈ pre ++ post, f.Begun r e'.graph :=
  (h.edited hedit).old

theorem turn_of_edited {top : Frame σ} {rest new pre post : List (Frame σ)}
    (h : Sound r e (pre ++ top :: post)) (hturn : Turn e top rest e' new) (hedit : e.Edited e')
    (hnew : ∀ f ∈ new, f.Begun r e'.graph) : Sound r e' (pre ++ new ++ post) :=
  turn_of_spares h hturn
    (h.edited hedit).whole (h.edited hedit).closed (h.old_of_edited hedit) hnew

/-- A computation that begins is valid: its inputs have just been read. -/
theorem begun_begin (h : Sound r e frames) {id : NodeId} {run : Nat} {n : Node σ}
    {d : Definition σ} {inputs : Inputs} (hn : e.graph.node? id = some n)
    (hd : r.of? n.state = some d)
    (hinputs : e.graph.resolve id (d.ports n.state) = some inputs) (c : Computation) :
    (Frame.run id (.computing run n.epoch d ⟨id, n.state, inputs⟩ c)).Begun r e.graph := by
  refine ⟨rfl, hd, fun n' hn' _ _ => ?_⟩
  rw [hn] at hn'
  cases hn'
  refine ⟨rfl, Nat.le_refl _, fun _ => ⟨.refl _, ?_⟩, fun hlt => absurd hlt (Nat.lt_irrefl _)⟩
  exact Graph.reads_of_resolve h.whole hn hd hinputs

/-- The node of a run that has it, with the computation that the run has begun. -/
theorem valid {id : NodeId} {run epoch : Nat} {d : Definition σ}
    {context : Context σ} {c : Computation} {n : Node σ} (h : Sound r e frames)
    (hmem : Frame.run id (.computing run epoch d context c) ∈ frames)
    (hn : e.graph.node? id = some n) (hrun : n.run = run) (hclaimed : n.claimed = true) :
    Valid e.graph id epoch context n ∧ r.of? n.state = some d := by
  obtain ⟨-, hd, hvalid⟩ := h.begun _ hmem
  have hv := hvalid n hn hclaimed hrun
  exact ⟨hv, by rw [← hd]; exact congrArg r.definitions.get? hv.type⟩

/-- A step that leaves the graph alone keeps the invariant. -/
theorem turn_of_graph {top : Frame σ} {rest new pre post : List (Frame σ)}
    (h : Sound r e (pre ++ top :: post)) (hturn : Turn e top rest e' new)
    (hgraph : e'.graph = e.graph) (hnew : ∀ f ∈ new, f.Begun r e.graph) :
    Sound r e' (pre ++ new ++ post) := by
  exact turn_of_spares h hturn (hgraph ▸ h.whole) (hgraph ▸ h.closed)
    (hgraph ▸ h.old) (hgraph ▸ hnew)

theorem turn_claim {id : NodeId} {run : Nat} {n : Node σ} {pre post : List (Frame σ)}
    (h : Sound r e (pre ++ .run id (.claiming run) :: post)) (hr : r.Steady)
    (hn : e.graph.node? id = some n) (hfree : n.claimed = false) :
    Sound r (e.withGraph (e.graph.modify id (·.taken run)))
      (pre ++ [.run id (.listing run)] ++ post) := by
  refine turn_of_spares h (.claim id run [] n hn hfree)
    (Graph.whole_taken hr h.whole id run) (fun u v huv hv => ?_) (fun f hf => ?_)
    (List.forall_mem_singleton.2 trivial)
  · exact (Graph.isFresh_taken _ _ _ u).trans
      (h.closed u v huv ((Graph.isFresh_taken _ _ _ v).symm.trans hv))
  · apply (h.old f hf).spares (Graph.spares_taken e.graph id run)
    intro m heq n' hn' _
    subst heq
    have htaken := hn'.symm.trans (Graph.node?_modify_self e.graph m (·.taken run))
    rw [hn] at htaken
    cases htaken
    exact h.run?_ne rfl hf

theorem turn_finish {id : NodeId} {run epoch : Nat} {n : Node σ} {d : Definition σ}
    {context : Context σ} {outputs : Outputs} {pre post : List (Frame σ)}
    (h : Sound r e
      (pre ++ .run id (.computing run epoch d context (.done (.ok outputs))) :: post))
    (hr : r.Steady) (hn : e.graph.node? id = some n) (hrun : n.run = run)
    (hclaimed : n.claimed = true) :
    Sound r (e.commitOutputs id n epoch d outputs)
      (pre ++ [.run id (.releasing run (.ok (.completed outputs)))] ++ post) := by
  obtain ⟨hvalid, hd⟩ := h.valid (List.mem_append_right _ List.mem_cons_self) hn hrun hclaimed
  have hfin := Graph.finished_complete hr h.whole hn (hr.result d n.state outputs hd) e.policy
    outputs (n.epoch == epoch)
  obtain ⟨-, -, hgraph, -⟩ := Engine.commitOutputs_spec e id n epoch d outputs
  rw [← hgraph] at hfin
  obtain ⟨n', hn', hkin, hcase⟩ := hfin.self
  refine turn_of_spares h (.finish id run epoch [] n d context outputs hn hrun hclaimed)
    hfin.whole ?_ (fun f hf => ?_) (List.forall_mem_singleton.2 trivial)
  · apply h.closed.spares hfin.drift.spares
    intro v heq hfresh u huv
    subst heq
    obtain ⟨n₁, hn₁, hfresh⟩ := Graph.isFresh_iff.1 hfresh
    rw [hn'] at hn₁
    cases hn₁
    rcases hcase with hout | ⟨hcalm, hund⟩
    · rw [hout.stale] at hfresh
      cases hfresh
    · obtain ⟨huv', hup⟩ := hund.feeds huv
      apply hup
      -- The node was fresh before, or nothing has happened since its inputs were read.
      rw [hcalm.stale, Node.completed, Bool.and_eq_false_iff] at hfresh
      rcases hfresh with hfresh | hepoch
      · exact h.closed u v huv' (Graph.isFresh_iff.2 ⟨n, hn, hfresh⟩)
      · have hepoch : n.epoch = epoch := by simpa using hepoch
        exact (hvalid.current hepoch).2.isFresh huv'
  · apply (h.old f hf).spares hfin.drift.spares
    intro m heq n₁ hn₁ hclaimed₁
    subst heq
    rw [hn'] at hn₁
    cases hn₁
    exact absurd (hkin.claim hclaimed₁).1 Bool.false_ne_true

theorem turn (hr : r.Steady) {top : Frame σ} {rest new pre post : List (Frame σ)}
    (h : Sound r e (pre ++ top :: post)) (hturn : Turn e top rest e' new) :
    Sound r e' (pre ++ new ++ post) := by
  have hr' : e.registry.Steady := h.registry ▸ hr
  have hw : e.graph.Whole e.registry := h.registry ▸ h.whole
  cases hturn with
  | enter id rest =>
    exact turn_of_graph h (.enter id rest) rfl
      (List.forall_mem_singleton.2 trivial)
  | claim id run rest n hn hfree => exact turn_claim h hr hn hfree
  | list id run rest =>
    exact turn_of_graph h (.list id run rest) rfl
      (List.forall_mem_singleton.2 trivial)
  | pull id run p todo rest =>
    apply turn_of_graph h (.pull id run p todo rest) rfl
    intro f hf
    simp only [List.mem_cons, List.not_mem_nil, or_false] at hf
    rcases hf with rfl | rfl <;> trivial
  | block id run rest n d events hn hrun hd hinputs =>
    exact turn_of_edited h (.block id run rest n d events hn hrun hd hinputs)
      (Engine.edited_block hr' hw id _ events) (List.forall_mem_singleton.2 trivial)
  | begin id run rest n d inputs hn hrun hd hinputs =>
    have hedit := Engine.edited_begin hr' hw id [.nodeStarted id]
    refine turn_of_edited h (.begin id run rest n d inputs hn hrun hd hinputs) hedit
      (List.forall_mem_singleton.2 ?_)
    rw [h.registry] at hd
    exact (h.begun_begin hn hd hinputs _).spares hedit.drift.spares
      fun m hm => absurd hm (Set.notMem_empty m)
  | finish id run epoch rest n d context outputs hn hrun hclaimed =>
    exact turn_finish h hr hn hrun hclaimed
  | fail id run epoch rest d context cause n hn hrun hclaimed =>
    exact turn_of_edited h (.fail id run epoch rest d context cause n hn hrun hclaimed)
      (Engine.edited_fail hr' hw id _) (List.forall_mem_singleton.2 trivial)
  | release id run ending rest =>
    exact turn_of_edited h (.release id run ending rest) (Engine.edited_release hr' hw id run)
      (List.forall_mem_singleton.2 trivial)
  | pass top rest e' new hpass =>
    have hsame := hpass.same
    refine turn_of_graph h (.pass top rest e' new hpass) hsame.graph fun f hf => ?_
    rcases hpass.new_cases with rfl | ⟨f', rfl, hidle | ⟨id, run, ending, rfl, -⟩⟩
    · exact absurd hf List.not_mem_nil
    · obtain rfl := List.mem_singleton.1 hf
      exact Frame.begun_of_idle hidle
    · obtain rfl := List.mem_singleton.1 hf
      trivial

/-! ## Other moves -/

theorem create (h : Sound r e frames) {id : NodeId} {state : σ}
    (hcreate : e.createWith id state = .ok e') : Sound r e' frames := by
  obtain ⟨hhas, hnew, rfl⟩ := Engine.createWith_eq_ok hcreate
  obtain ⟨d, hd⟩ := Option.isSome_iff_exists.1 hhas
  rw [h.registry] at hd
  have hspares := Graph.spares_inserted hnew state
  refine ⟨h.registry, h.whole.inserted hnew hd, ?_, h.distinct, h.below, fun f hf => ?_⟩
  · apply h.closed.spares hspares
    intro v heq hfresh
    subst heq
    obtain ⟨n', hn', hs⟩ := Graph.isFresh_iff.1 hfresh
    obtain rfl := Graph.node?_inserted_self hn'
    cases hs
  · apply (h.begun f hf).spares hspares
    intro m heq n' hn' hclaimed
    subst heq
    obtain rfl := Graph.node?_inserted_self hn'
    cases hclaimed

theorem restore (hr : r.Steady) (h : Sound r e frames) {s : Snapshot σ}
    (hrestore : e.restore s = .ok e') : Sound r e' frames := by
  obtain ⟨hregistry, -, hnext, hwhole, hclosed, hunclaimed⟩ :=
    Engine.restore_eq_ok (h.registry ▸ hr) hrestore
  rw [h.registry] at hregistry hwhole
  refine ⟨hregistry, hwhole, hclosed, h.distinct, hnext ▸ h.below, fun f hf => ?_⟩
  have hbegun := h.begun f hf
  cases f with
  | wait target watch => trivial
  | errand left => trivial
  | run id phase =>
    cases phase with
    | computing k epoch d context c =>
      refine ⟨hbegun.1, hbegun.2.1, fun n hn hclaimed => ?_⟩
      rw [hunclaimed id n hn] at hclaimed
      cases hclaimed
    | _ => trivial

theorem deliver {pre post : List (Frame σ)} {id : NodeId} {run epoch : Nat} {d : Definition σ}
    {context : Context σ} {c₀ : Computation}
    (h : Sound r e (pre ++ .run id (.computing run epoch d context c₀) :: post))
    (c : Computation) :
    Sound r e (pre ++ .run id (.computing run epoch d context c) :: post) := by
  have hruns := runs_progress pre post id run epoch d context c c₀
  refine ⟨h.registry, h.whole, h.closed, by rw [hruns]; exact h.distinct,
    by rw [hruns]; exact h.below, fun f hf => ?_⟩
  rcases List.mem_append.1 hf with hf | hf
  · exact h.begun f (List.mem_append_left _ hf)
  · rcases List.mem_cons.1 hf with rfl | hf
    · exact h.begun (.run id (.computing run epoch d context c₀))
        (List.mem_append_right _ List.mem_cons_self)
    · exact h.begun f (List.mem_append_right _ (List.mem_cons_of_mem _ hf))

end Sound

/-! ## Moves -/

/-- What a move other than a step does to the engine. -/
inductive Engine.Changed (e : Engine σ) (restoring : Bool) : Engine σ → Prop
  | edited (e' : Engine σ) (h : e.Edited e') : Changed e restoring e'
  | created (e' : Engine σ) (id : NodeId) (state : σ) (h : e.createWith id state = .ok e') :
    Changed e restoring e'
  | restored (e' : Engine σ) (s : Snapshot σ) (hrestoring : restoring = true)
    (h : e.restore s = .ok e') : Changed e restoring e'

theorem Engine.Performed.changed (hr : e.registry.Steady) (hw : e.graph.Whole e.registry)
    {m : Move σ} (h : e.Performed m e') : e.Changed m.isRestore e' := by
  cases h with
  | nothing m => exact .edited e ⟨rfl, rfl, rfl, hw, .refl _⟩
  | created m e' id state h => exact .created e' id state h
  | removed e' id cs h => exact .edited e' (edited_remove hr hw h)
  | updated e' id edit ids h => exact .edited e' (edited_update hr hw h)
  | marked e' id ids h => exact .edited e' (edited_markStale hr hw h)
  | connected e' source sink c h => exact .edited e' (edited_connect hr hw h)
  | disconnected e' source sink c h => exact .edited e' (edited_disconnect hr hw h)
  | restored e' s h => exact .restored e' s rfl h

namespace World

variable {w : World σ}

/-- The move does not touch the tasks that are there, and to the engine it does at most this. -/
structure Edits (w : World σ) (restoring : Bool) (w' : World σ) : Prop where
  engine : ∃ e, w.engine.Changed restoring e ∧ e.Same w'.engine
  frames : ∃ idle, (∀ f ∈ idle, f.run? = none) ∧ w'.frames = w.frames ++ idle
  answers : w'.answers = w.answers

/-- A move is an edit or a step, unless it makes a computation go on by force. -/
theorem next_cases (hr : w.engine.registry.Steady)
    (hw : w.engine.graph.Whole w.engine.registry) {m : Move σ} (hm : m.isDelivery = false) :
    w.Edits m.isRestore (w.next m) ∨
      ∃ pre top post e new, w.Steps pre top post e new (w.next m) := by
  rcases w.move_cases m with hperforms | ⟨task, top, rest, e, new, -, htakes⟩ | ⟨task, c, rfl⟩
  · obtain ⟨e, hperformed, hsame⟩ := hperforms.engine
    exact .inl ⟨⟨e, hperformed.changed hr hw, hsame⟩, hperforms.frames, hperforms.answers⟩
  · obtain ⟨pre, post, hsteps⟩ := htakes.steps
    exact .inr ⟨pre, top, post, e, new, hsteps⟩
  · cases hm

theorem invariant_sound (hr : r.Steady) (p : Policy) : Invariant r p (Sound r) where
  start := by
    refine ⟨rfl, ⟨Wiring.Sound.empty, ?_, ?_⟩, ?_, List.nodup_nil, nofun, nofun⟩
    · intro m n hn
      cases hn
    · intro c hc
      cases hc
    · intro u v hex
      obtain ⟨c, hc, -⟩ := hex
      cases hc
  same h hsame := h.same hsame
  idle h hidle := h.append_idle hidle
  performed h hperformed := by
    cases hperformed.changed (h.registry ▸ hr) (h.registry ▸ h.whole) with
    | edited hedit => exact h.edited hedit
    | created id state hcreate => exact h.create hcreate
    | restored s hrestoring hrestore => exact h.restore hr hrestore
  turn h hturn := h.turn hr hturn
  progress c h := h.deliver c

theorem sound_next (hr : r.Steady) (h : Sound r w.engine w.frames) (m : Move σ) :
    Sound r (w.next m).engine (w.next m).frames :=
  (invariant_sound hr w.engine.policy).next h m

/-- The invariant holds in every world that can be reached. -/
theorem sound_after (hr : r.Steady) (p : Policy) (moves : List (Move σ)) :
    Sound r (after r p moves).engine (after r p moves).frames :=
  (invariant_sound hr p).after moves

end World

end Patchbay
