import Patchbay.Engine.Edit
import Patchbay.Proofs.Shape

/-!
# What the edits do

Every edit changes something first, which leaves some nodes untold, and then lets node types
react and invalidates. `Follows` describes what comes after the change: it keeps the wiring and
the shape of every node, and it turns the set of untold nodes into another one. In the end
nobody is untold.

What is proved here, for each edit that succeeds:
  1. `remove_accounts`, `replaceState_accounts` and their like: the engine that it leaves, with what
     it announced. Whatever is said of an edit elsewhere is derived from these.
  2. `edited_remove`, `edited_update` and their like: the graph stays whole, and it drifts without
     exceptions. A new node is the one thing that is not a drift; `createWith_eq_ok` describes it.
-/

namespace Patchbay

variable {σ : Type} [NodeState σ]

namespace Graph

variable {r : Registry σ} {g g₀ g₁ g₂ : Graph σ} {P Q : Set NodeId}

/-- Reactions and invalidations led from the first graph to the second; of the nodes that were
untold before, and of those that reacted, these are still untold. -/
structure Follows (r : Registry σ) (untold : Set NodeId → Set NodeId) (g g' : Graph σ) :
    Prop where
  wiring : g'.wiring = g.wiring
  mould : Moulded r g g'
  drift : ∀ P g₀, Drift P g₀ g → Drift (untold P) g₀ g'

namespace Follows

variable {F G : Set NodeId → Set NodeId}

theorem refl (r : Registry σ) (g : Graph σ) : Follows r id g g :=
  ⟨rfl, .refl r g, fun _ _ h => h⟩

theorem trans (h : Follows r F g g₁) (h' : Follows r G g₁ g₂) :
    Follows r (fun P => G (F P)) g g₂ :=
  ⟨h'.wiring.trans h.wiring, h.mould.trans h'.mould,
    fun _ _ hd => h'.drift _ _ (h.drift _ _ hd)⟩

theorem mono (h : Follows r F g g₁) (hFG : ∀ P, F P ⊆ G P) : Follows r G g g₁ :=
  ⟨h.wiring, h.mould, fun P _ hd => (h.drift _ _ hd).mono (hFG P)⟩

end Follows

theorem follows_of_visited {ids : List NodeId} {visits : NodeId → Nat}
    (h : Visited g ids visits g₁) : Follows r (fun P => {m ∈ P | m ∉ ids}) g g₁ :=
  ⟨h.wiring, .of_visited h, fun _ _ hd => (hd.settle h).mono fun m ⟨hm, hzero⟩ =>
    ⟨hm, fun hids => Nat.ne_of_gt (h.starts m hids) hzero⟩⟩

theorem follows_invalidate (r : Registry σ) (g : Graph σ) (hw : g.wiring.Sound) (id : NodeId) :
    Follows r (fun P => {m ∈ P | m ≠ id}) g (g.invalidate id).1 := by
  obtain ⟨visits, h⟩ := visited_invalidate g hw id
  refine (follows_of_visited h).mono fun P m hm => ⟨hm.1, ?_⟩
  simpa using hm.2

theorem follows_invalidateAll (r : Registry σ) (g : Graph σ) (hw : g.wiring.Sound)
    (ids : List NodeId) : Follows r (fun P => {m ∈ P | m ∉ ids}) g (g.invalidateAll ids).1 := by
  obtain ⟨visits, h⟩ := visited_invalidateAll g hw ids
  exact follows_of_visited h

/-! ## Reactions -/

theorem mem_addOnce {l : List NodeId} {id m : NodeId} : m ∈ addOnce l id ↔ m ∈ l ∨ m = id := by
  unfold addOnce
  split
  · rename_i h
    have hid : id ∈ l := by simpa using h
    constructor
    · exact .inl
    · intro hor
      rcases hor with hm | rfl
      · exact hm
      · exact hid
  · simp

theorem follows_runHook (hr : r.Steady) (connected : Bool) (g : Graph σ) (port : PortRef) :
    Follows r (fun P => P ∪ {m | (g.runHook r connected port).2 = true ∧ m = port.node}) g
      (g.runHook r connected port).1 := by
  unfold runHook
  split
  · exact (Follows.refl r g).mono fun P => Set.subset_union_left
  · rename_i n hn
    split
    · exact (Follows.refl r g).mono fun P => Set.subset_union_left
    · rename_i d hd
      have hshape := hr.hook d n.state connected port.port hd
      refine ⟨rfl, Moulded.modify fun n' hn' => ?_, fun P g₀ hdrift => hdrift.trans ?_⟩
      · rw [hn] at hn'
        cases hn'
        exact hshape
      · have hkin : ∀ n', g.node? port.node = some n' →
            n'.Kin { n' with state := d.onEdge connected n.state port.port } := by
          intro n' hn'
          rw [hn] at hn'
          cases hn'
          exact ⟨hshape.type, Nat.le_refl _, fun h => ⟨h, rfl⟩⟩
        -- A reaction to an equal state leaves nobody to tell.
        by_cases he : (d.onEdge connected n.state port.port == n.state) = true
        · refine (drift_modify_calm fun n' hn' => ⟨hkin n' hn', ?_⟩).mono (Set.empty_subset _)
          rw [hn] at hn'
          cases hn'
          exact ⟨rfl, rfl, rfl, .inr (BEq.symm he)⟩
        · refine drift_modify hkin (.inl ⟨by simpa using he, rfl⟩) (.inl (upheld_modify ?_ _))
          intro n' hn' hfresh
          exact ⟨hfresh, BEq.rfl⟩

theorem follows_runHooks (hr : r.Steady) (connected : Bool) (g : Graph σ)
    (changed : List NodeId) (ports : List PortRef) :
    Follows r (fun P => P ∪ {m | m ∈ (g.runHooks r connected changed ports).2}) g
        (g.runHooks r connected changed ports).1 ∧
      changed ⊆ (g.runHooks r connected changed ports).2 := by
  induction ports generalizing g changed with
  | nil =>
    exact ⟨(Follows.refl r g).mono fun P => Set.subset_union_left, List.Subset.refl _⟩
  | cons port rest ih =>
    have hhook := follows_runHook hr connected g port
    obtain ⟨hrest, hsub⟩ := ih (g.runHook r connected port).1
      (if (g.runHook r connected port).2 then addOnce changed port.node else changed)
    rw [runHooks]
    constructor
    · apply (hhook.trans hrest).mono
      intro P m hm
      rcases hm with (hm | ⟨hflag, rfl⟩) | hm
      · exact .inl hm
      · refine .inr (hsub ?_)
        rw [if_pos hflag, mem_addOnce]
        exact .inr rfl
      · exact .inr hm
    · refine List.Subset.trans ?_ hsub
      intro m hm
      split
      · exact mem_addOnce.2 (.inl hm)
      · exact hm

/-- After a connection has changed its sink's node is told, and so is every node that reacts. -/
theorem follows_afterEdge (hr : r.Steady) (connected : Bool) (g : Graph σ)
    (hw : g.wiring.Sound) (c : Connection) :
    Follows r (fun P => {m ∈ P | m ≠ c.sink.node}) g (g.afterEdge r connected c).1 := by
  obtain ⟨hhooks, -⟩ := follows_runHooks hr connected g [] [c.source, c.sink]
  rw [afterEdge]
  refine (hhooks.trans (follows_invalidateAll r _ (by rwa [hhooks.wiring]) _)).mono
    fun P m hm => ?_
  obtain ⟨hm, hnot⟩ := hm
  rw [List.mem_cons, not_or] at hnot
  rcases hm with hm | hm
  · exact ⟨hm, hnot.1⟩
  · exact absurd hm hnot.2

/-- After a node was removed the nodes that read from it are told. Those that reacted are still
to be told. -/
theorem follows_afterRemoval (hr : r.Steady) (node : NodeId) (g : Graph σ)
    (hw : g.wiring.Sound) (changed : List NodeId) (removed : List Connection) :
    Follows r (fun P => {m ∈ P | ∀ c ∈ removed, c.source.node = node → m ≠ c.sink.node} ∪
        {m | m ∈ (g.afterRemoval r node changed removed).2.1}) g
        (g.afterRemoval r node changed removed).1 ∧
      changed ⊆ (g.afterRemoval r node changed removed).2.1 := by
  induction removed generalizing g changed with
  | nil =>
    refine ⟨(Follows.refl r g).mono fun P m hm => .inl ⟨hm, by simp⟩, List.Subset.refl _⟩
  | cons c rest ih =>
    obtain ⟨hhooks, hsub⟩ := follows_runHooks hr false g changed
      [if (c.source.node == node) = true then c.sink else c.source]
    rw [afterRemoval]
    generalize g.runHooks r false changed
      [if (c.source.node == node) = true then c.sink else c.source] = x at hhooks hsub
    have hw' : x.1.wiring.Sound := by rwa [hhooks.wiring]
    -- A node that loses its source is told at once; a source that loses its sink reads what it read.
    by_cases hnode : c.source.node = node
    · have hinv := follows_invalidate r x.1 hw' c.sink.node
      obtain ⟨hrest, hsub'⟩ := ih (x.1.invalidate c.sink.node).1 (by rwa [hinv.wiring]) x.2
      simp only [hnode, beq_self_eq_true, if_true]
      refine ⟨((hhooks.trans hinv).trans hrest).mono fun P m hm => ?_, List.Subset.trans hsub hsub'⟩
      rcases hm with ⟨⟨hm | hm, hne⟩, hm'⟩ | hm
      · refine .inl ⟨hm, fun c' hc' hs => ?_⟩
        rcases List.mem_cons.1 hc' with rfl | hc'
        · exact hne
        · exact hm' c' hc' hs
      · exact .inr (hsub' hm)
      · exact .inr hm
    · obtain ⟨hrest, hsub'⟩ := ih x.1 hw' x.2
      have hbeq : (c.source.node == node) = false := by simpa using hnode
      simp only [hbeq, Bool.false_eq_true, if_false]
      refine ⟨(hhooks.trans hrest).mono fun P m hm => ?_, List.Subset.trans hsub hsub'⟩
      rcases hm with ⟨hm | hm, hm'⟩ | hm
      · refine .inl ⟨hm, fun c' hc' hs => ?_⟩
        rcases List.mem_cons.1 hc' with rfl | hc'
        · exact absurd hs hnode
        · exact hm' c' hc' hs
      · exact .inr (hsub' hm)
      · exact .inr hm

/-- Taking connections away one after another keeps the nodes and takes away just these. -/
theorem dropEdges_eq_ok (hr : r.Steady) {node : NodeId} {changed : List NodeId}
    {cs : List Connection} {g' : Graph σ} {changed' invalidated : List NodeId}
    (hw : g.wiring.Sound)
    (h : g.dropEdges r node changed cs = .ok (g', changed', invalidated)) :
    g'.wiring.Sound ∧ Moulded r g g' ∧ Drift ∅ g g' ∧
      ∀ c : Connection, g'.wiring.producerOf c.sink = some c.source ↔
        g.wiring.producerOf c.sink = some c.source ∧ c ∉ cs := by
  induction cs generalizing g changed g' changed' invalidated with
  | nil =>
    cases h
    exact ⟨hw, .refl r g, .refl g, by simp⟩
  | cons c rest ih =>
    rw [dropEdges] at h
    split at h
    · cases h
    · rename_i w hremove
      have hsound : w.Sound := hw.remove hremove
      obtain ⟨hc, rfl⟩ := Wiring.remove_eq_ok hremove
      -- The cut concerns the sink alone, which is told in `afterEdge`.
      have hrewire : Drift {m | m = c.sink.node} g { g with wiring := g.wiring.cut c } := by
        apply drift_rewire
        intro sink hsink
        rw [Wiring.producerOf_cut, if_neg]
        intro heq
        subst heq
        exact hsink rfl
      have hedge := follows_afterEdge hr false { g with wiring := g.wiring.cut c } hsound c
      simp only at h
      split at h
      · cases h
      · rename_i g₂ changed₂ others hrest
        cases h
        obtain ⟨hsound', hmould, hdrift, hmem⟩ := ih (by rw [hedge.wiring]; exact hsound) hrest
        refine ⟨hsound', ?_, ?_, fun c' => ?_⟩
        · have hkeep : Moulded r g { g with wiring := g.wiring.cut c } :=
            fun m n hn => ⟨n, hn, .refl r _⟩
          exact (hkeep.trans hedge.mould).trans hmould
        · apply ((hedge.drift _ _ hrewire).trans hdrift).mono
          intro m hor
          rcases hor with ⟨hm, hne⟩ | hm
          · exact absurd hm hne
          · exact hm
        · rw [hmem, hedge.wiring, Wiring.producerOf_cut_iff hc, List.mem_cons, not_or, and_assoc]

/-! ## Wholeness -/

theorem Whole.follow (hr : r.Steady) (h : g.Whole r) {F : Set NodeId → Set NodeId}
    (hf : Follows r F g g₁) : g₁.Whole r :=
  h.of_moulded hr (by rw [hf.wiring]; exact h.wiring)
    (types_of_drift (hf.drift ∅ g (.refl g)) h.types) hf.mould fun c hc => by rwa [hf.wiring] at hc

/-! ## New nodes -/

def inserted (g : Graph σ) (id : NodeId) (state : σ) : Graph σ :=
  { g with nodes := g.nodes.insert id (.new id state) }

omit [NodeState σ] in
theorem node?_inserted_self {id : NodeId} {state : σ} {n : Node σ}
    (h : (g.inserted id state).node? id = some n) : n = .new id state := by
  rw [inserted, node?_insert, if_pos rfl] at h
  exact (Option.some.inj h).symm

omit [NodeState σ] in
theorem node?_inserted {id m : NodeId} {state : σ} {n : Node σ} (hnew : g.node? id = none)
    (hn : g.node? m = some n) : (g.inserted id state).node? m = some n := by
  rw [inserted, node?_insert, if_neg, hn]
  intro heq
  subst heq
  rw [hnew] at hn
  cases hn

omit [NodeState σ] in
theorem node?_of_inserted {id m : NodeId} {state : σ} {n : Node σ}
    (h : (g.inserted id state).node? m = some n) :
    (m = id ∧ n = .new id state) ∨ g.node? m = some n := by
  rw [inserted, node?_insert] at h
  split at h
  · rename_i hm
    exact .inl ⟨hm.symm, (Option.some.inj h).symm⟩
  · exact .inr h

theorem spares_inserted {id : NodeId} (hnew : g.node? id = none) (state : σ) :
    Spares {id} g (g.inserted id state) := by
  intro m hm n' hn'
  rw [inserted, node?_insert, if_neg (Ne.symm hm)] at hn'
  refine ⟨n', hn', .refl n', .inr ⟨.refl n', fun port => ⟨rfl, fun source _ u hu hs => ?_⟩⟩⟩
  exact ⟨u, node?_inserted hnew hu, hs, BEq.rfl⟩

theorem Whole.inserted (h : g.Whole r) {id : NodeId} (hnew : g.node? id = none) {state : σ}
    {d : Definition σ} (hd : r.of? state = some d) : (g.inserted id state).Whole r where
  wiring := h.wiring
  types m n hn := by
    rw [Graph.inserted, node?_insert] at hn
    split at hn
    · cases hn
      exact ⟨d, hd⟩
    · exact h.types m n hn
  joined c hc := by
    obtain ⟨p, q, ⟨n, d, hn, hp⟩, ⟨m, d', hm, hq⟩, hrest⟩ := h.joined c hc
    exact ⟨p, q, ⟨n, d, node?_inserted hnew hn, hp⟩, ⟨m, d', node?_inserted hnew hm, hq⟩, hrest⟩

end Graph

namespace Engine

open Patchbay.Graph

variable {e e' : Engine σ}

/-- An edit led from the first engine to the second. -/
structure Edited (e e' : Engine σ) : Prop where
  registry : e'.registry = e.registry
  policy : e'.policy = e.policy
  nextRun : e'.nextRun = e.nextRun
  whole : e'.graph.Whole e.registry
  drift : Drift ∅ e.graph e'.graph

/-! ## What an edit does that succeeds -/

theorem createWith_eq_ok {id : NodeId} {state : σ} (h : e.createWith id state = .ok e') :
    e.registry.has (NodeState.typeName state) = true ∧ e.graph.node? id = none ∧
      e' = (e.withGraph (e.graph.inserted id state)).emit
        [.nodeCreated id (NodeState.typeName state)] := by
  unfold createWith at h
  dsimp only at h
  split at h
  · rename_i hhas
    cases hins : e.graph.insertNode (.new id state) with
    | error err =>
      rw [hins] at h
      cases h
    | ok g =>
      rw [hins] at h
      cases h
      obtain ⟨hnew, rfl⟩ := insertNode_eq_ok hins
      exact ⟨hhas, hnew, rfl⟩
  · cases h

theorem create_eq_ok {id : NodeId} {type : String} (h : e.create id type = .ok e') :
    ∃ state, e.createWith id state = .ok e' := by
  unfold create at h
  cases hs : e.registry.defaultState type with
  | error err =>
    rw [hs] at h
    cases h
  | ok state =>
    rw [hs] at h
    exact ⟨state, h⟩

omit [NodeState σ] in
theorem node_eq_ok {g : Graph σ} {id : NodeId} {n : Node σ} (h : g.node id = .ok n) :
    g.node? id = some n := by
  unfold Graph.node at h
  split at h
  · rename_i hn
    cases h
    exact hn
  · cases h

/-- Removal erases the node and takes its connections away. The other ends react, and those who wait
look again. -/
theorem remove_accounts {id : NodeId} {cs : List Connection} (h : e.remove id = .ok (e', cs)) :
    let x := Graph.afterRemoval e.registry id
      ⟨e.graph.nodes.erase id, (e.graph.wiring.removeNode id).1⟩ [] cs
    let y := x.1.invalidateAll x.2.1
    cs = (e.graph.wiring.removeNode id).2 ∧
      e' = ((e.withGraph y.1).emit (.nodeRemoved id cs :: Event.stateChanges x.2.1
        ++ Event.invalidated (x.2.2 ++ y.2))).notify := by
  unfold remove at h
  cases hn : e.graph.node id with
  | error err =>
    rw [hn] at h
    cases h
  | ok n =>
    rw [hn] at h
    obtain ⟨rfl, rfl⟩ := Prod.mk.inj (Except.ok.inj h)
    exact ⟨rfl, rfl⟩

omit [NodeState σ] in
theorem markStale_accounts {id : NodeId} {ids : List NodeId}
    (h : e.markStale id = .ok (e', ids)) : ids = (e.graph.invalidate id).2 ∧
      e' = (e.withGraph (e.graph.invalidate id).1).emit (Event.invalidated ids) := by
  unfold markStale at h
  cases hn : e.graph.node id with
  | error err =>
    rw [hn] at h
    cases h
  | ok n =>
    rw [hn] at h
    obtain ⟨rfl, rfl⟩ := Prod.mk.inj (Except.ok.inj h)
    exact ⟨rfl, rfl⟩

/-- A node that is given another state is told of it, and then loses the connections at ports that
it has no more. -/
theorem replaceState_accounts {id : NodeId} {n : Node σ} {d : Definition σ} {state : σ}
    {ids : List NodeId} (h : e.replaceState id n d state = .ok (e', ids)) :
    let x := (e.graph.setState id state).invalidate id
    let cs := x.1.lostEdges d id n.state state
    ∃ g changed others, x.1.dropEdges e.registry id [] cs = .ok (g, changed, others) ∧
      ids = x.2 ++ others ∧
      e' = (e.withGraph g).emit (.nodeStateChanged id :: cs.map .disconnected
        ++ Event.stateChanges changed ++ Event.invalidated ids) := by
  unfold replaceState at h
  cases hdrop : ((e.graph.setState id state).invalidate id).1.dropEdges e.registry id []
      (((e.graph.setState id state).invalidate id).1.lostEdges d id n.state state) with
  | error err =>
    simp only [hdrop, bind, Except.bind] at h
    cases h
  | ok x =>
    simp only [hdrop, bind, Except.bind] at h
    obtain ⟨rfl, rfl⟩ := Prod.mk.inj (Except.ok.inj h)
    exact ⟨_, _, _, hdrop, rfl, rfl⟩

/-- An edit of a state keeps the state equal to what it was, or replaces it. -/
theorem update_eq_ok {id : NodeId} {edit : σ → σ} {ids : List NodeId}
    (h : e.update id edit = .ok (e', ids)) :
    ∃ n d, e.graph.node? id = some n ∧ e.registry.of? n.state = some d ∧
      ((edit n.state == n.state) = true ∧
          e' = e.withGraph (e.graph.modify id ({ · with state := edit n.state })) ∨
        NodeState.typeName (edit n.state) = n.typeName ∧
          e.replaceState id n d (edit n.state) = .ok (e', ids)) := by
  unfold update at h
  cases hn : e.graph.node id with
  | error err =>
    rw [hn] at h
    cases h
  | ok n =>
    cases hd : e.registry.get n.typeName with
    | error err =>
      simp only [hn, hd, bind, Except.bind] at h
      cases h
    | ok d =>
      simp only [hn, hd, bind, Except.bind] at h
      refine ⟨n, d, node_eq_ok hn, Registry.of?_of_get hd, ?_⟩
      split at h
      · rename_i hequal
        obtain ⟨rfl, -⟩ := Prod.mk.inj (Except.ok.inj h)
        exact .inl ⟨hequal, rfl⟩
      · split at h
        · rename_i htype
          exact .inr ⟨eq_of_beq htype, h⟩
        · cases h

theorem portOn_eq_ok {r : Registry σ} {g : Graph σ} {ref : PortRef} {dir : Direction} {p : Port}
    (h : g.portOn r ref dir = .ok p) : g.HasPort r ref p ∧ p.direction = dir := by
  unfold portOn at h
  cases hn : g.node ref.node with
  | error err =>
    rw [hn] at h
    cases h
  | ok n =>
    rw [hn] at h
    cases hd : r.get n.typeName with
    | error err =>
      simp only [hd, bind, Except.bind] at h
      cases h
    | ok d =>
      simp only [hd, bind, Except.bind] at h
      split at h
      · cases h
      · rename_i q hq
        split at h
        · rename_i hdir
          cases h
          exact ⟨⟨n, d, node_eq_ok hn, Registry.of?_of_get hd, hq⟩, hdir⟩
        · cases h

theorem connect_eq_ok {source sink : PortRef} {c : Connection}
    (h : e.connect source sink = .ok (e', c)) :
    c = ⟨source, sink⟩ ∧ e.graph.Joined e.registry c ∧
      ∃ w, e.graph.wiring.insert c = .ok w ∧
        e' = if e.policy.autoRunOnConnect then (e.rewire true w c).schedule sink.node
          else e.rewire true w c := by
  unfold connect at h
  cases hp : e.graph.portOn e.registry source .source with
  | error err =>
    rw [hp] at h
    cases h
  | ok p =>
    cases hq : e.graph.portOn e.registry sink .sink with
    | error err =>
      simp only [hp, hq, bind, Except.bind] at h
      cases h
    | ok q =>
      simp only [hp, hq, bind, Except.bind] at h
      split at h
      · rename_i hfits
        cases hw : e.graph.wiring.insert ⟨source, sink⟩ with
        | error err =>
          simp only [hw] at h
          cases h
        | ok w =>
          simp only [hw] at h
          obtain ⟨he, rfl⟩ := Prod.mk.inj (Except.ok.inj h)
          obtain ⟨hp, hpd⟩ := portOn_eq_ok hp
          obtain ⟨hq, hqd⟩ := portOn_eq_ok hq
          exact ⟨rfl, ⟨p, q, hp, hq, hpd, hqd, fun _ => hfits⟩, w, hw, he.symm⟩
      · cases h

theorem disconnect_eq_ok {source sink : PortRef} {c : Connection}
    (h : e.disconnect source sink = .ok (e', c)) : c = ⟨source, sink⟩ ∧
      ∃ w, e.graph.wiring.remove c = .ok w ∧ e' = e.rewire false w c := by
  unfold disconnect at h
  cases hremove : e.graph.wiring.remove ⟨source, sink⟩ with
  | error err =>
    rw [hremove] at h
    cases h
  | ok w =>
    rw [hremove] at h
    obtain ⟨rfl, rfl⟩ := Prod.mk.inj (Except.ok.inj h)
    exact ⟨rfl, w, hremove, rfl⟩

/-! ## The edits -/

/-- The nodes that read from a removed node are the only ones that its removal concerns. -/
theorem drift_erase {g : Graph σ} (hw : g.wiring.Sound) (id : NodeId) :
    Drift {m | ∃ c ∈ (g.wiring.removeNode id).2, c.source.node = id ∧ c.sink.node = m} g
      ⟨g.nodes.erase id, (g.wiring.removeNode id).1⟩ := by
  have hprod := (hw.removeNode id).2
  intro m n hn
  rw [node?_erase] at hn
  split at hn
  · cases hn
  · rename_i hm
    refine ⟨n, hn, .refl n, ?_⟩
    by_cases hread : ∃ c ∈ (g.wiring.removeNode id).2, c.source.node = id ∧ c.sink.node = m
    · exact .inl hread
    · refine .inr (.inr ⟨.refl n, fun port => ?_⟩)
      have hsource : ∀ source, g.wiring.producerOf ⟨m, port⟩ = some source →
          source.node ≠ id := by
        intro source hs he
        exact hread ⟨⟨source, ⟨m, port⟩⟩, (Wiring.mem_removed hw).2 ⟨hs, .inl he⟩, he, rfl⟩
      constructor
      · refine Option.ext fun source => ⟨fun hs => ((hprod ⟨source, ⟨m, port⟩⟩).1 hs).1,
          fun hs => ?_⟩
        exact (hprod ⟨source, ⟨m, port⟩⟩).2 ⟨hs, hsource source hs, Ne.symm hm⟩
      · intro source hs u hu hfresh
        refine ⟨u, ?_, hfresh, BEq.rfl⟩
        rw [node?_erase, if_neg (Ne.symm (hsource source hs)), hu]

theorem whole_erase {r : Registry σ} {g : Graph σ} (h : g.Whole r) (id : NodeId) :
    Graph.Whole r ⟨g.nodes.erase id, (g.wiring.removeNode id).1⟩ where
  wiring := (h.wiring.removeNode id).1
  types := types_of_drift (drift_erase h.wiring id) h.types
  joined c hc := by
    obtain ⟨hc, hsource, hsink⟩ := ((h.wiring.removeNode id).2 c).1 hc
    obtain ⟨p, q, ⟨n, d, hn, hp⟩, ⟨m, d', hm, hq⟩, hrest⟩ := h.joined c hc
    refine ⟨p, q, ⟨n, d, ?_, hp⟩, ⟨m, d', ?_, hq⟩, hrest⟩
    · rw [node?_erase, if_neg (Ne.symm hsource), hn]
    · rw [node?_erase, if_neg (Ne.symm hsink), hm]

theorem edited_remove (hr : e.registry.Steady) (hw : e.graph.Whole e.registry) {id : NodeId}
    {removed : List Connection} (h : e.remove id = .ok (e', removed)) : e.Edited e' := by
  obtain ⟨rfl, rfl⟩ := remove_accounts h
  have hwhole := whole_erase hw id
  obtain ⟨hfollow, -⟩ := follows_afterRemoval hr id
    ⟨e.graph.nodes.erase id, (e.graph.wiring.removeNode id).1⟩ hwhole.wiring []
    (e.graph.wiring.removeNode id).2
  -- What lost its source has been told; then whatever reacted to the loss is.
  have hall := hfollow.trans (follows_invalidateAll e.registry
    (Graph.afterRemoval e.registry id
      ⟨e.graph.nodes.erase id, (e.graph.wiring.removeNode id).1⟩ []
      (e.graph.wiring.removeNode id).2).1
    (by rw [hfollow.wiring]; exact hwhole.wiring)
    (Graph.afterRemoval e.registry id
      ⟨e.graph.nodes.erase id, (e.graph.wiring.removeNode id).1⟩ []
      (e.graph.wiring.removeNode id).2).2.1)
  refine ⟨rfl, rfl, rfl, hwhole.follow hr hall,
    (hall.drift _ _ (drift_erase hw.wiring id)).mono ?_⟩
  intro m hex
  rcases hex with ⟨⟨⟨c, hc, hsource, hsink⟩, hm⟩ | hm, hnot⟩
  · exact absurd hsink.symm (hm c hc hsource)
  · exact absurd hm hnot

theorem edited_markStale (hr : e.registry.Steady) (hw : e.graph.Whole e.registry) {id : NodeId}
    {ids : List NodeId} (h : e.markStale id = .ok (e', ids)) : e.Edited e' := by
  obtain ⟨-, rfl⟩ := markStale_accounts h
  have hf := follows_invalidate e.registry e.graph hw.wiring id
  exact ⟨rfl, rfl, rfl, hw.follow hr hf,
    (hf.drift ∅ e.graph (.refl _)).mono fun m hm => hm.1⟩

/-- What follows a change of one connection, if only its sink is concerned. -/
theorem edited_rewire (hr : e.registry.Steady) (connected : Bool) {w : Wiring} {c : Connection}
    (hwhole : Graph.Whole e.registry ⟨e.graph.nodes, w⟩)
    (hw : ∀ sink, sink ≠ c.sink → w.producerOf sink = e.graph.wiring.producerOf sink) :
    e.Edited (e.rewire connected w c) := by
  have hf := follows_afterEdge hr connected ⟨e.graph.nodes, w⟩ hwhole.wiring c
  have hdrift : Drift {m | m = c.sink.node} e.graph ⟨e.graph.nodes, w⟩ :=
    drift_rewire fun sink hs => hw sink fun he => hs (by rw [he]; rfl)
  refine ⟨rfl, rfl, rfl, hwhole.follow hr hf, (hf.drift _ _ hdrift).mono ?_⟩
  intro m hex
  obtain ⟨hm, hne⟩ := hex
  exact absurd hm hne

theorem edited_connect (hr : e.registry.Steady) (hw : e.graph.Whole e.registry)
    {source sink : PortRef} {c : Connection} (h : e.connect source sink = .ok (e', c)) :
    e.Edited e' := by
  obtain ⟨-, hjoined, w, hinsert, rfl⟩ := connect_eq_ok h
  obtain ⟨hfree, -, -, hlink⟩ := Wiring.insert_eq_ok hinsert
  have hwhole : Graph.Whole e.registry ⟨e.graph.nodes, w⟩ := by
    refine ⟨hw.wiring.insert hinsert, hw.types, fun c' hc' => ?_⟩
    rw [hlink, Wiring.producerOf_link] at hc'
    split at hc'
    · rename_i hs
      rwa [← Connection.ext (Option.some.inj hc') hs]
    · exact hw.joined c' hc'
  have hedit := edited_rewire hr true hwhole fun sink hs => by
    rw [hlink, Wiring.producerOf_link, if_neg (Ne.symm hs)]
  split
  · exact ⟨hedit.registry, hedit.policy, hedit.nextRun, hedit.whole, hedit.drift⟩
  · exact hedit

theorem edited_disconnect (hr : e.registry.Steady) (hw : e.graph.Whole e.registry)
    {source sink : PortRef} {c : Connection} (h : e.disconnect source sink = .ok (e', c)) :
    e.Edited e' := by
  obtain ⟨rfl, w, hremove, rfl⟩ := disconnect_eq_ok h
  obtain ⟨-, hcut⟩ := Wiring.remove_eq_ok hremove
  have hkeep : ∀ s, s ≠ sink → w.producerOf s = e.graph.wiring.producerOf s := by
    intro s hs
    rw [hcut, Wiring.producerOf_cut, if_neg (Ne.symm hs)]
  have hwhole : Graph.Whole e.registry ⟨e.graph.nodes, w⟩ := by
    refine ⟨hw.wiring.remove hremove, hw.types, fun c' hc' => hw.joined c' ?_⟩
    rw [hcut, Wiring.producerOf_cut] at hc'
    split at hc'
    · cases hc'
    · exact hc'
  exact edited_rewire hr false hwhole hkeep

/-! ## Edits of a state -/

theorem drift_setState {g : Graph σ} {id : NodeId} {n : Node σ} {state : σ}
    (hn : g.node? id = some n) (ht : NodeState.typeName state = n.typeName) :
    Drift {id} g (g.setState id state) := by
  refine drift_modify (fun n' hn' => ?_) (.inl rfl) (.inl (upheld_modify ?_ id))
  · rw [hn] at hn'
    cases hn'
    exact ⟨ht, Nat.le_refl _, fun h => ⟨h, rfl⟩⟩
  · intro n' hn' hfresh
    exact ⟨hfresh, BEq.rfl⟩

/-- The ports of a replaced state are those of the node's type. A connection survives if its
port on the node does. -/
theorem joined_setState {r : Registry σ} (hr : r.Steady) {g : Graph σ} {id : NodeId}
    {n : Node σ} {d : Definition σ} {state : σ} {c : Connection} (h : g.Joined r c)
    (hn : g.node? id = some n) (hd : r.of? n.state = some d)
    (ht : NodeState.typeName state = n.typeName)
    (hport : ∀ ref, ref = c.source ∨ ref = c.sink → ref.node = id →
      d.hasPort n.state ref.port = true → d.hasPort state ref.port = true) :
    (g.setState id state).Joined r c := by
  apply h.of_ports
  intro ref p href hex
  obtain ⟨m, d', hm, hd', hp⟩ := hex
  by_cases hid : ref.node = id
  · rw [hid, hn] at hm
    cases hm
    rw [hd] at hd'
    cases hd'
    obtain ⟨p', hp'⟩ := Definition.hasPort_iff.1
      (hport ref href hid (Definition.hasPort_iff.2 ⟨p, hp⟩))
    have ht' : NodeState.typeName state = NodeState.typeName n.state := ht
    have hnew : (g.setState id state).node? ref.node =
        some { n with state := state, status := if n.claimed then n.status else .idle } := by
      rw [setState, node?_modify, if_pos hid.symm, hid, hn, Option.map_some]
    have hof : r.of? state = some d := by
      rw [← hd]
      exact congrArg r.definitions.get? ht
    exact ⟨p', ⟨_, d, hnew, hof, hp'⟩, hr.direction d _ _ _ p p' hd ht' hp hp',
      fun hk => hk d _ _ _ p p' hd ht' hp hp'⟩
  · refine ⟨p, ⟨m, d', ?_, hd', hp⟩, rfl, fun _ => rfl⟩
    rw [setState, node?_modify, if_neg (Ne.symm hid), hm]

omit [NodeState σ] in
theorem mem_lostEdges {g : Graph σ} (hw : g.wiring.Sound) {d : Definition σ} {id : NodeId}
    {old new : σ} {c : Connection} {ref : PortRef}
    (hc : g.wiring.producerOf c.sink = some c.source) (href : ref = c.source ∨ ref = c.sink)
    (hid : ref.node = id) (hold : d.hasPort old ref.port = true)
    (hnew : ¬ d.hasPort new ref.port = true) : c ∈ g.lostEdges d id old new := by
  rw [lostEdges, List.mem_filter, List.mem_append, Wiring.mem_incoming, Wiring.mem_outgoing,
    hw.mirrored]
  have hnot : ¬ (c.source.node = id ∧ c.sink.node = id) := fun h =>
    hw.not_feeds_self id ⟨c, hc, h.1, h.2⟩
  rcases href with rfl | rfl
  · have hsink : (c.sink.node == id) = false := by simpa using fun h => hnot ⟨hid, h⟩
    refine ⟨.inr ⟨hc, hid⟩, ?_⟩
    simp only [hsink, Bool.false_eq_true, if_false, hold, hnew, Bool.not_false, Bool.and_self]
  · refine ⟨.inl ⟨hc, hid⟩, ?_⟩
    simp only [hid, beq_self_eq_true, if_true, hold, hnew, Bool.not_false, Bool.and_self]

theorem edited_replaceState (hr : e.registry.Steady) (hw : e.graph.Whole e.registry)
    {id : NodeId} {n : Node σ} {d : Definition σ} {state : σ} {ids : List NodeId}
    (hn : e.graph.node? id = some n) (hd : e.registry.of? n.state = some d)
    (ht : NodeState.typeName state = n.typeName)
    (h : e.replaceState id n d state = .ok (e', ids)) : e.Edited e' := by
  obtain ⟨g, changed, others, hdrop, -, rfl⟩ := replaceState_accounts h
  have hdrift := drift_setState hn ht
  have hfollow := follows_invalidate e.registry (e.graph.setState id state) hw.wiring id
  have htold : Drift ∅ e.graph ((e.graph.setState id state).invalidate id).1 := by
    apply (hfollow.drift _ _ hdrift).mono
    intro m hex
    obtain ⟨hm, hne⟩ := hex
    exact absurd hm hne
  have hsound : ((e.graph.setState id state).invalidate id).1.wiring.Sound := by
    rw [hfollow.wiring]
    exact hw.wiring
  -- The lost connections are dropped only after the node was told of its new state.
  obtain ⟨hsound', hmould, hrest, hmem⟩ := dropEdges_eq_ok hr hsound hdrop
  have hall := htold.trans hrest
  rw [Set.union_empty] at hall
  refine ⟨rfl, rfl, rfl, ⟨hsound', types_of_drift hall hw.types, fun c hc => ?_⟩, hall⟩
  obtain ⟨hc, hkept⟩ := (hmem c).1 hc
  have hc' : e.graph.wiring.producerOf c.sink = some c.source := by
    rw [hfollow.wiring] at hc
    exact hc
  refine ((joined_setState hr (hw.joined c hc') hn hd ht ?_).mould hr hfollow.mould).mould hr
    hmould
  intro ref href hid hold
  by_contra hnew
  exact hkept (mem_lostEdges hsound hc href hid hold hnew)

theorem edited_update (hr : e.registry.Steady) (hw : e.graph.Whole e.registry) {id : NodeId}
    {edit : σ → σ} {ids : List NodeId} (h : e.update id edit = .ok (e', ids)) :
    e.Edited e' := by
  obtain ⟨n, d, hnode, hd, ⟨hequal, rfl⟩ | ⟨htype, hreplace⟩⟩ := update_eq_ok h
  · have hshape := Registry.SameShape.of_alike hr (.inr (BEq.symm hequal))
    have hdrift : Drift ∅ e.graph (e.graph.modify id ({ · with state := edit n.state })) := by
      apply drift_modify_calm
      intro n' hn'
      rw [hnode] at hn'
      cases hn'
      exact ⟨⟨hshape.type, Nat.le_refl _, fun h => ⟨h, rfl⟩⟩,
        rfl, rfl, rfl, .inr (BEq.symm hequal)⟩
    have hmould : Moulded e.registry e.graph
        (e.graph.modify id ({ · with state := edit n.state })) := by
      apply Moulded.modify
      intro n' hn'
      rw [hnode] at hn'
      cases hn'
      exact hshape
    exact ⟨rfl, rfl, rfl,
      hw.of_moulded hr hw.wiring (types_of_drift hdrift hw.types) hmould fun c hc => hc, hdrift⟩
  · exact edited_replaceState hr hw hnode hd htype hreplace

end Engine

end Patchbay
