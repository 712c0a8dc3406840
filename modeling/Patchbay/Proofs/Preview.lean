import Patchbay.Engine.View
import Patchbay.Proofs.Blocking
import Patchbay.Proofs.EdgeSet

/-!
# The preview of inputs

Before a node is executed one can look at what stands on the sources of its connected sinks. The
run that follows reads its inputs on its own way, with other defaults for what is not there. In a
whole graph both see the same: every connection at the node is at a sink that its state has, and
the node at the other end exists. So the preview tells what the run will read, and whether it will
be blocked, if there is nothing to execute first.

What is proved here:
  1. `Bench.distinct_registry`, `Studio.distinct_registry`: no two ports of a node have one
     identity.
  2. `Engine.nodup_entries`, `Engine.mem_entries`: the preview lists the connections at the node,
     each once.
  3. `Engine.resolves_iff`, `Engine.get?_iff_offers`: what is read is what the preview offers.
  4. `World.soon_reads`: what a run reads that starts now.
  5. `World.preview_foretells`: the preview is right in every world that can be reached.
-/

namespace Patchbay

open Json Engine

variable {σ : Type}

/-! ## Identities of ports -/

section

variable [NodeState σ]

def Registry.Distinct (r : Registry σ) : Prop :=
  ∀ s d, r.of? s = some d → ((d.ports s).map (·.id)).Nodup

end

namespace Bench

theorem nodup_mergeSinks (inputs : Nat) : ((mergeSinks inputs).map (·.id)).Nodup := by
  rw [mergeSinks, List.map_map]
  refine List.nodup_range.map fun i j hij => ?_
  have hij : ("in" ++ toString i).toList = ("in" ++ toString j).toList :=
    congrArg String.toList hij
  rw [String.toList_append, String.toList_append] at hij
  have hdigits : Nat.toDigits 10 i = Nat.toDigits 10 j := by
    simpa [Nat.repr] using List.append_cancel_left hij
  calc
    i = Nat.ofDigitChars 10 (Nat.toDigits 10 i) 0 := Nat.ofDigitChars_ten_toDigits.symm
    _ = Nat.ofDigitChars 10 (Nat.toDigits 10 j) 0 := by rw [hdigits]
    _ = j := Nat.ofDigitChars_ten_toDigits

theorem distinct_registry (o : Options) : (registry o).Distinct := by
  intro s d hd
  rw [of?_registry] at hd
  cases hd
  cases s with
  | merge inputs =>
    show ((mergeSinks inputs.toNat ++ [Port.source "output" .any 200 40]).map (·.id)).Nodup
    rw [List.map_append]
    refine (nodup_mergeSinks _).append (List.nodup_singleton _) fun id hmem hout => ?_
    obtain rfl := List.mem_singleton.1 hout
    obtain ⟨p, hp, hid⟩ := List.mem_map.1 hmem
    have hport : p ∈ merge.ports (.merge inputs) := List.mem_append_left _ hp
    have hdirection := (mem_merge_ports hport).2
    rw [if_pos (show p.id = "output" from hid)] at hdirection
    obtain ⟨i, -, rfl⟩ := List.mem_map.1 hp
    cases hdirection
  | _ => exact of_decide_eq_true rfl

end Bench

namespace Studio

theorem distinct_registry : registry.Distinct := by
  intro s d hd
  rw [of?_registry] at hd
  cases hd
  cases s <;> exact of_decide_eq_true rfl

end Studio

/-! ## What is looked at -/

namespace InputInfo

def connection (id : NodeId) (i : InputInfo) : Connection := ⟨i.source, ⟨id, i.port⟩⟩

/-- The entry promises this value: the source is fresh, and the value stands there. -/
def Offers (i : InputInfo) (v : Value) : Prop := i.stale = false ∧ i.value = some (.value v)

end InputInfo

namespace Engine

variable [NodeState σ] {r : Registry σ} {e : Engine σ} {id : NodeId} {n : Node σ}
  {d : Definition σ} {infos : List InputInfo}

omit [NodeState σ] in
def listed? (e : Engine σ) (id : NodeId) (p : Port) : Option InputInfo :=
  (e.producerOf ⟨id, p.id⟩).map fun source =>
    let producer := e.graph.node? source.node
    { port := p.id
      source := source
      value := producer.bind fun n => n.outputs.get? source.port
      stale := (producer.map (·.stale)).getD true }

/-- The entries for the connected sinks among these ports. -/
def entries (e : Engine σ) (id : NodeId) (ports : List Port) : List InputInfo :=
  (ports.filter Port.isSink).filterMap (e.listed? id)

theorem inputInfo_eq (hn : e.graph.node? id = some n) (hd : e.registry.of? n.state = some d) :
    e.inputInfo id = .ok (e.entries id (d.ports n.state)) := by
  have hget : e.registry.get n.typeName = .ok d := Registry.get_of_of? hd
  have hports : e.ports id = .ok (d.ports n.state) := by
    simp only [ports, Engine.node, Graph.node, hn, hget, bind, Except.bind, pure, Except.pure]
  simp only [inputInfo, hports, bind, Except.bind, pure, Except.pure]
  rfl

omit [NodeState σ] in
theorem listed?_eq_some {p : Port} {i : InputInfo} (h : e.listed? id p = some i) :
    i.port = p.id ∧ e.graph.wiring.producerOf ⟨id, p.id⟩ = some i.source := by
  obtain ⟨source, hsource, rfl⟩ := Option.map_eq_some_iff.1 h
  exact ⟨rfl, hsource⟩

omit [NodeState σ] in
theorem producerOf_of_mem_entries {ports : List Port} {i : InputInfo}
    (hi : i ∈ e.entries id ports) :
    e.graph.wiring.producerOf ⟨id, i.port⟩ = some i.source := by
  obtain ⟨p, -, hp⟩ := List.mem_filterMap.1 hi
  obtain ⟨hport, hsource⟩ := listed?_eq_some hp
  rwa [hport]

omit [NodeState σ] in
theorem nodup_entries {ports : List Port} (h : (ports.map (·.id)).Nodup) :
    ((e.entries id ports).map (·.connection id)).Nodup := by
  have hports : ∀ l : List Port, ((l.filterMap (e.listed? id)).map (·.port)).Sublist
      (l.map (·.id)) := by
    intro l
    induction l with
    | nil => exact .slnil
    | cons p rest ih =>
      cases hentry : e.listed? id p with
      | none =>
        rw [List.filterMap_cons_none hentry]
        exact ih.cons _
      | some i =>
        rw [List.filterMap_cons_some hentry, List.map_cons, (listed?_eq_some hentry).1]
        exact ih.cons_cons _
  have hnodup := (h.sublist (List.filter_sublist.map _)).sublist (hports (ports.filter Port.isSink))
  refine List.Nodup.of_map (·.sink.port) ?_
  rwa [List.map_map]

/-- A connected sink has an entry, because it is one of the ports. -/
theorem exists_entry (hw : e.graph.Whole r) (hn : e.graph.node? id = some n)
    (hd : r.of? n.state = some d) {port : PortId} {source : PortRef}
    (hs : e.graph.wiring.producerOf ⟨id, port⟩ = some source) :
    ∃ i ∈ e.entries id (d.ports n.state), i.port = port ∧ i.source = source := by
  obtain ⟨p, hp, rfl⟩ := List.mem_map.1 (hw.mem_sinks hn hd hs)
  have hproducer : e.producerOf ⟨id, p.id⟩ = some source := hs
  exact ⟨_, List.mem_filterMap.2 ⟨p, hp, by rw [listed?, hproducer]; rfl⟩, rfl, rfl⟩

theorem mem_entries (hw : e.graph.Whole r) (hn : e.graph.node? id = some n)
    (hd : r.of? n.state = some d) {c : Connection} :
    c ∈ (e.entries id (d.ports n.state)).map (·.connection id) ↔
      c ∈ e.connections ∧ c.sink.node = id := by
  rw [connections, Wiring.mem_connections, List.mem_map]
  constructor
  · rintro ⟨i, hi, rfl⟩
    exact ⟨producerOf_of_mem_entries hi, rfl⟩
  · rintro ⟨hsource, rfl⟩
    obtain ⟨i, hi, hport, hs⟩ := exists_entry hw hn hd hsource
    exact ⟨i, hi, Connection.ext hs (congrArg (PortRef.mk c.sink.node) hport)⟩

/-- The node of the source exists, so no default shows in an entry. -/
theorem cached_of_mem_entries (hw : e.graph.Whole r) {ports : List Port} {i : InputInfo}
    (hi : i ∈ e.entries id ports) :
    ∃ u, e.graph.node? i.source.node = some u ∧ i.value = u.outputs.get? i.source.port ∧
      i.stale = u.stale := by
  obtain ⟨p, -, hp⟩ := List.mem_filterMap.1 hi
  obtain ⟨source, hsource, rfl⟩ := Option.map_eq_some_iff.1 hp
  obtain ⟨-, -, ⟨u, -, hu, -⟩, -⟩ := hw.joined ⟨source, ⟨id, p.id⟩⟩ hsource
  exact ⟨u, hu, by simp [hu], by simp [hu]⟩

/-! ## What is read -/

theorem offers_iff (hw : e.graph.Whole r) {ports : List Port} {i : InputInfo}
    (hi : i ∈ e.entries id ports) {v : Value} :
    i.Offers v ↔ e.graph.freshValue? i.source = some v := by
  obtain ⟨u, hu, hvalue, hstale⟩ := cached_of_mem_entries hw hi
  rw [InputInfo.Offers, hvalue, hstale, Graph.freshValue?_eq_some]
  constructor
  · rintro ⟨hfresh, hget⟩
    exact ⟨u, hu, hfresh, by rw [Outputs.value?, hget]; rfl⟩
  · rintro ⟨u', hu', hfresh, hget⟩
    rw [hu] at hu'
    cases hu'
    obtain ⟨x, hx, hv⟩ := Option.bind_eq_some_iff.1 hget
    cases x with
    | stop => cases hv
    | value v' =>
      cases hv
      exact ⟨hfresh, hx⟩

/-- The inputs can be read just if every entry offers a value. -/
theorem resolves_iff (hw : e.graph.Whole r) (hn : e.graph.node? id = some n)
    (hd : r.of? n.state = some d) :
    (∃ inputs, e.graph.resolve id (d.ports n.state) = some inputs) ↔
      ∀ i ∈ e.entries id (d.ports n.state), ∃ v, i.Offers v := by
  constructor
  · rintro ⟨inputs, hinputs⟩ i hi
    have hread := Graph.get?_of_resolve hw hn hd hinputs i.port
    rw [producerOf_of_mem_entries hi] at hread
    obtain ⟨v, hv, -⟩ := hread
    exact ⟨v, (offers_iff hw hi).2 hv⟩
  · intro hall
    refine Wiring.foldlM_readSink _ fun p hp source hs => ?_
    obtain ⟨i, hi, -, rfl⟩ := exists_entry hw hn hd hs
    obtain ⟨v, hv⟩ := hall i hi
    exact ⟨v, (offers_iff hw hi).1 hv⟩

theorem get?_iff_offers (hw : e.graph.Whole r) (hn : e.graph.node? id = some n)
    (hd : r.of? n.state = some d) {inputs : Inputs}
    (hinputs : e.graph.resolve id (d.ports n.state) = some inputs) {port : PortId} {v : Value} :
    inputs.get? port = some v ↔
      ∃ i ∈ e.entries id (d.ports n.state), i.port = port ∧ i.Offers v := by
  have hread := Graph.get?_of_resolve hw hn hd hinputs port
  constructor
  · intro hget
    cases hs : e.graph.wiring.producerOf ⟨id, port⟩ with
    | none =>
      rw [hs, hget] at hread
      cases hread
    | some source =>
      rw [hs, hget] at hread
      obtain ⟨v', hv', heq⟩ := hread
      cases heq
      obtain ⟨i, hi, hport, rfl⟩ := exists_entry hw hn hd hs
      exact ⟨i, hi, hport, (offers_iff hw hi).2 hv'⟩
  · rintro ⟨i, hi, rfl, hv⟩
    rw [producerOf_of_mem_entries hi] at hread
    obtain ⟨v', hv', hget⟩ := hread
    rw [(offers_iff hw hi).1 hv] at hv'
    cases hv'
    exact hget

end Engine

/-! ## What a run reads -/

namespace Graph

theorem freshValue?_taken (g : Graph σ) (id : NodeId) (run : Nat) (source : PortRef) :
    (g.modify id (·.taken run)).freshValue? source = g.freshValue? source := by
  rw [freshValue?, freshValue?, node?_modify]
  split
  · cases g.node? source.node with
    | none => rfl
    | some n =>
      have hstale : (n.taken run).stale = n.stale := rfl
      rw [Option.map_some, Option.filter_some, Option.filter_some, hstale]
      split <;> rfl
  · rfl

theorem resolve_taken (g : Graph σ) (id m : NodeId) (run : Nat) (ports : List Port) :
    (g.modify id (·.taken run)).resolve m ports = g.resolve m ports :=
  Wiring.gather_congr fun _ source _ => g.freshValue?_taken id run source

end Graph

namespace World

variable [NodeState σ] {r : Registry σ} {w : World σ} {id : NodeId} {n : Node σ}
  {d : Definition σ}

/-- The world after a run of this node was started and went on, with nothing in between, until it
has read its inputs. -/
def soon (w : World σ) (id : NodeId) : World σ :=
  (List.replicate 4 (.step w.tasks.length)).foldl next (w.next (.start id))

/-- A claim changes nothing about what is to be executed first. -/
theorem toPull_taken {e e' : Engine σ} {run : Nat} (hregistry : e'.registry = e.registry)
    (hgraph : e'.graph = e.graph.modify id (·.taken run)) (m : NodeId) :
    e'.toPull m = e.toPull m := by
  have hwiring : e'.graph.wiring = e.graph.wiring := by rw [hgraph]; rfl
  rw [toPull, toPull, hwiring, hregistry]
  refine List.filter_congr fun p _ => ?_
  rw [hgraph, Graph.node?_modify]
  split
  · cases e.graph.node? p <;> rfl
  · rfl

/-- With nothing to execute first, the run comes to read its inputs in the present graph, but for its
own claim. -/
theorem soon_resolve (hr : r.Steady) (h : Sound r w.engine w.frames)
    (hn : w.engine.graph.node? id = some n) (hfree : n.claimed = false)
    (hpull : w.engine.toPull id = []) :
    ∃ (e : Engine σ) (run : Nat), e.registry = r ∧
      e.graph = w.engine.graph.modify id (·.taken run) ∧
      (w.soon id).tasks[w.tasks.length]? = some [.run id (e.resolve id run).2] := by
  let task := w.tasks.length
  let w₁ := w.next (.start id)
  let w₂ := w₁.next (.step task)
  let w₃ := w₂.next (.step task)
  let w₄ := w₃.next (.step task)
  have h₃ : Sound r w₃.engine w₃.frames :=
    sound_next hr (sound_next hr (sound_next hr h _) _) _
  have h₄ : Sound r w₄.engine w₄.frames := sound_next hr h₃ _
  have hentering : w₁.tasks[task]? = some [.run id .entering] := List.getElem?_concat_length
  -- The run is counted and has a number.
  obtain ⟨hgraph₂, -, hclaiming⟩ := next_step hentering rfl
  replace hgraph₂ : w₂.engine.graph = w.engine.graph := hgraph₂
  -- It claims the node.
  have hclaim : w₂.engine.step [.run id (.claiming w.engine.nextRun)] =
      some (w₂.engine.withGraph (w₂.engine.graph.modify id (·.taken w.engine.nextRun)),
        [.run id (.listing w.engine.nextRun)]) := by
    show some ((w₂.engine.claim id _).1, [Frame.run id (w₂.engine.claim id _).2]) = _
    simp only [claim, hgraph₂, hn, hfree, Bool.false_eq_true, if_false]
  obtain ⟨hgraph₃, -, hlisting⟩ := next_step hclaiming hclaim
  replace hgraph₃ : w₃.engine.graph = w.engine.graph.modify id (·.taken w.engine.nextRun) := by
    rw [← hgraph₂]
    exact hgraph₃
  -- It finds nothing to execute.
  have hnothing : w₃.engine.toPull id = [] :=
    (toPull_taken (h₃.registry.trans h.registry.symm) hgraph₃ id).trans hpull
  obtain ⟨hgraph₄, -, hpulling⟩ := next_step hlisting rfl
  rw [hnothing] at hpulling
  -- It reads its inputs.
  obtain ⟨-, -, hread⟩ := next_step hpulling (w := w₄) rfl
  exact ⟨w₄.engine, w.engine.nextRun, h₄.registry, hgraph₄.trans hgraph₃, hread⟩

/-- The preview of the inputs of a node, and what it says about a run of the node that starts now. -/
structure Foretells (w : World σ) (id : NodeId) (n : Node σ) (d : Definition σ)
    (infos : List InputInfo) : Prop where
  given : w.engine.inputInfo id = .ok infos
  once : (infos.map (·.connection id)).Nodup
  listed : ∀ c, c ∈ infos.map (·.connection id) ↔ c ∈ w.engine.connections ∧ c.sink.node = id
  cached : ∀ i ∈ infos, ∃ u, w.engine.graph.node? i.source.node = some u ∧
    i.value = u.outputs.get? i.source.port ∧ i.stale = u.stale
  resolves : (∃ inputs, w.engine.graph.resolve id (d.ports n.state) = some inputs) ↔
    ∀ i ∈ infos, ∃ v, i.Offers v
  read : ∀ inputs, w.engine.graph.resolve id (d.ports n.state) = some inputs →
    ∀ port v, inputs.get? port = some v ↔ ∃ i ∈ infos, i.port = port ∧ i.Offers v
  computes : n.claimed = false → w.engine.toPull id = [] → (∀ i ∈ infos, ∃ v, i.Offers v) →
    ∃ run inputs, w.engine.graph.resolve id (d.ports n.state) = some inputs ∧
      (w.soon id).tasks[w.tasks.length]? = some [.run id (.computing run n.epoch d
        ⟨id, n.state, inputs⟩ (d.compute ⟨id, n.state, inputs⟩))]
  blocked : n.claimed = false → w.engine.toPull id = [] → ¬ (∀ i ∈ infos, ∃ v, i.Offers v) →
    ∃ run, (w.soon id).tasks[w.tasks.length]? = some [.run id (.releasing run (.ok .blocked))]

/-- The step that reads the inputs begins the computation with what the graph holds, or blocks the
node. -/
theorem soon_reads (hr : r.Steady) (h : Sound r w.engine w.frames)
    (hn : w.engine.graph.node? id = some n) (hd : r.of? n.state = some d)
    (hfree : n.claimed = false) (hpull : w.engine.toPull id = []) :
    ∃ run, (w.soon id).tasks[w.tasks.length]? = some [.run id
      (match w.engine.graph.resolve id (d.ports n.state) with
        | some inputs => .computing run n.epoch d ⟨id, n.state, inputs⟩
          (d.compute ⟨id, n.state, inputs⟩)
        | none => .releasing run (.ok .blocked))] := by
  obtain ⟨e, run, hregistry, hgraph, hread⟩ := soon_resolve hr h hn hfree hpull
  refine ⟨run, hread.trans ?_⟩
  have howned : e.graph.ownedNode? id run = some (n.taken run) := by
    rw [hgraph, ownedNode?_eq_some, Graph.node?_modify_self, hn]
    exact ⟨rfl, rfl⟩
  have hget : e.registry.get (n.taken run).typeName = .ok d := by
    rw [hregistry]
    exact Registry.get_of_of? hd
  have hinputs : e.graph.resolve id (d.ports (n.taken run).state) =
      w.engine.graph.resolve id (d.ports n.state) := by
    rw [hgraph]
    exact Graph.resolve_taken _ _ _ _ _
  simp only [Engine.resolve, howned, hget, hinputs]
  cases w.engine.graph.resolve id (d.ports n.state) <;> rfl

theorem foretells (hr : r.Steady) (hdistinct : r.Distinct) (h : Sound r w.engine w.frames)
    (hn : w.engine.graph.node? id = some n) (hd : r.of? n.state = some d) :
    w.Foretells id n d (w.engine.entries id (d.ports n.state)) := by
  have hresolves := resolves_iff h.whole hn hd
  exact {
    given := inputInfo_eq hn (h.registry.symm ▸ hd)
    once := nodup_entries (hdistinct n.state d hd)
    listed := fun c => mem_entries h.whole hn hd
    cached := fun i hi => cached_of_mem_entries h.whole hi
    resolves := hresolves
    read := fun inputs hinputs port v => get?_iff_offers h.whole hn hd hinputs
    computes := fun hfree hpull hall => by
      obtain ⟨inputs, hinputs⟩ := hresolves.2 hall
      obtain ⟨run, hread⟩ := soon_reads hr h hn hd hfree hpull
      rw [hinputs] at hread
      exact ⟨run, inputs, hinputs, hread⟩
    blocked := fun hfree hpull hnot => by
      have hnone : w.engine.graph.resolve id (d.ports n.state) = none :=
        Option.eq_none_iff_forall_ne_some.2 fun inputs hinputs =>
          hnot (hresolves.1 ⟨inputs, hinputs⟩)
      obtain ⟨run, hread⟩ := soon_reads hr h hn hd hfree hpull
      rw [hnone] at hread
      exact ⟨run, hread⟩ }

/-- With either set of node types, in every world that can be reached, the preview of a node lists
each of its incoming connections once, with what stands on the source. The inputs of the node can
be read just if every entry is fresh and has a value, and are these values then. If there is
nothing to execute first, this is what a run of the node computes from; else the run is
blocked. -/
theorem preview_foretells :
    (∀ (o : Bench.Options) (p : Policy) (moves : List (Move BenchNode)) (id : NodeId)
      (n : Node BenchNode), (after (Bench.registry o) p moves).engine.graph.node? id = some n →
      ∃ d infos, (Bench.registry o).of? n.state = some d ∧
        (after (Bench.registry o) p moves).Foretells id n d infos) ∧
    ∀ (p : Policy) (moves : List (Move StudioNode)) (id : NodeId) (n : Node StudioNode),
      (after Studio.registry p moves).engine.graph.node? id = some n →
      ∃ d infos, Studio.registry.of? n.state = some d ∧
        (after Studio.registry p moves).Foretells id n d infos := by
  constructor
  · intro o p moves id n hn
    have hsound := sound_after (Bench.steady_registry o) p moves
    have hd := Bench.of?_registry o n.state
    exact ⟨_, _, hd, foretells (Bench.steady_registry o) (Bench.distinct_registry o) hsound hn hd⟩
  · intro p moves id n hn
    have hsound := sound_after Studio.steady_registry p moves
    have hd := Studio.of?_registry n.state
    exact ⟨_, _, hd, foretells Studio.steady_registry Studio.distinct_registry hsound hn hd⟩

end World

namespace Bench

def doubling : List (Move BenchNode) :=
  [.create "a" "source", .create "b" "double", .connect ⟨"a", "output"⟩ ⟨"b", "input"⟩]

/-- Before the number is there a run of the doubler is blocked, and afterwards it computes. -/
theorem preview_foretells_doubling :
    (let w := World.after (registry {}) {} doubling
     ∃ run, (w.soon "b").tasks[w.tasks.length]? =
       some [.run "b" (.releasing run (.ok .blocked))]) ∧
    (let w := World.after (registry {}) {} (doubling ++ .start "a" :: List.replicate 9 (.step 0))
     ∃ run epoch d context c, (w.soon "b").tasks[w.tasks.length]? =
       some [.run "b" (.computing run epoch d context c)]) := by
  constructor
  · intro w
    obtain ⟨n, hn, hfacts⟩ : ∃ n, w.engine.graph.node? "b" = some n ∧
        (n.claimed, (w.engine.graph.resolve "b" ((definitionOf {} n.state).ports n.state)).isNone) =
          (false, true) := Option.map_eq_some_iff.1 (by decide +kernel)
    obtain ⟨hfree, hnone⟩ := Prod.mk.inj hfacts
    obtain ⟨d, infos, hd, h⟩ := World.preview_foretells.1 {} {} doubling "b" n hn
    rw [of?_registry] at hd
    cases hd
    refine h.blocked hfree (by decide +kernel) fun hall => ?_
    obtain ⟨inputs, hinputs⟩ := h.resolves.2 hall
    rw [hinputs] at hnone
    cases hnone
  · intro w
    obtain ⟨n, hn, hfacts⟩ : ∃ n, w.engine.graph.node? "b" = some n ∧
        (n.claimed, (w.engine.graph.resolve "b" ((definitionOf {} n.state).ports n.state)).isSome) =
          (false, true) := Option.map_eq_some_iff.1 (by decide +kernel)
    obtain ⟨hfree, hsome⟩ := Prod.mk.inj hfacts
    obtain ⟨d, infos, hd, h⟩ := World.preview_foretells.1 {} {} _ "b" n hn
    rw [of?_registry] at hd
    cases hd
    obtain ⟨run, inputs, -, hread⟩ := h.computes hfree (by decide +kernel)
      (h.resolves.1 (Option.isSome_iff_exists.1 hsome))
    exact ⟨run, _, _, _, _, hread⟩

end Bench

end Patchbay
