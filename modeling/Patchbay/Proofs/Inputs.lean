import Patchbay.Engine.Run
import Patchbay.Proofs.Shape

/-!
# What a node reads

`Wiring.gather` goes through the ports of a node, and `Graph.resolve` gathers what stands on
fresh sources. Seen from the connections: the inputs hold a value for each bound sink, the one on
its source, and nothing else. `Graph.Reads` says this up to equality of values, so that it
survives whatever leaves the node undisturbed.

What is proved here:
  1. `gather_beq`: what is gathered depends on the values of the sources alone.
  2. `reads_of_resolve`, `resolve_of_reads`: in a whole graph to resolve is to read.
  3. `Reads.undisturbed`: a node that is not disturbed reads what it read.
-/

namespace Patchbay

namespace Wiring

variable {w : Wiring} {value? value?' : PortRef → Option Json.Value} {id : NodeId}

/-! ## Gathering -/

/-- What the inputs hold after some sinks: the values on those that are bound. -/
theorem get?_of_foldlM_readSink {l : List Port} {inputs result : Inputs}
    (h : l.foldlM (w.readSink value? id) inputs = some result) (port : PortId) :
    result.get? port = match w.producerOf ⟨id, port⟩ with
      | none => inputs.get? port
      | some source => if port ∈ l.map (·.id) then value? source else inputs.get? port := by
  induction l generalizing inputs with
  | nil =>
    cases h
    cases w.producerOf ⟨id, port⟩ <;> simp
  | cons p rest ih =>
    rw [List.foldlM_cons, Option.bind_eq_bind, Option.bind_eq_some_iff] at h
    obtain ⟨next, hnext, h⟩ := h
    rw [ih h]
    rw [readSink] at hnext
    cases hs : w.producerOf ⟨id, p.id⟩ with
    | none =>
      rw [hs] at hnext
      cases hnext
      cases hport : w.producerOf ⟨id, port⟩ with
      | none => rfl
      | some source =>
        have hne : port ≠ p.id := by
          intro heq
          subst heq
          rw [hport] at hs
          cases hs
        simp [hne]
    | some source =>
      rw [hs] at hnext
      obtain ⟨v, hv, rfl⟩ := Option.map_eq_some_iff.1 hnext
      by_cases hp : p.id = port
      · subst hp
        rw [hs]
        simp [hv]
      · have hget : (inputs.insert p.id v).get? port = inputs.get? port := by
          rw [Dict.get?_insert, if_neg fun e => hp (Std.compare_eq_iff_eq.1 e)]
        rw [hget]
        cases hport : w.producerOf ⟨id, port⟩ with
        | none => rfl
        | some source => simp [Ne.symm hp]

theorem isSome_of_foldlM_readSink {l : List Port} {inputs result : Inputs}
    (h : l.foldlM (w.readSink value? id) inputs = some result) {p : Port} (hp : p ∈ l)
    {source : PortRef} (hs : w.producerOf ⟨id, p.id⟩ = some source) :
    ∃ v, value? source = some v := by
  induction l generalizing inputs with
  | nil => cases hp
  | cons a rest ih =>
    rw [List.foldlM_cons, Option.bind_eq_bind, Option.bind_eq_some_iff] at h
    obtain ⟨next, hnext, h⟩ := h
    rcases List.mem_cons.1 hp with rfl | hp
    · rw [readSink, hs] at hnext
      obtain ⟨v, hv, -⟩ := Option.map_eq_some_iff.1 hnext
      exact ⟨v, hv⟩
    · exact ih h hp

theorem foldlM_readSink {l : List Port} (inputs : Inputs)
    (h : ∀ p ∈ l, ∀ source, w.producerOf ⟨id, p.id⟩ = some source →
      ∃ v, value? source = some v) :
    ∃ result, l.foldlM (w.readSink value? id) inputs = some result := by
  induction l generalizing inputs with
  | nil => exact ⟨inputs, rfl⟩
  | cons p rest ih =>
    have hnext : ∃ next, w.readSink value? id inputs p = some next := by
      rw [readSink]
      cases hs : w.producerOf ⟨id, p.id⟩ with
      | none => exact ⟨inputs, rfl⟩
      | some source =>
        obtain ⟨v, hv⟩ := h p List.mem_cons_self source hs
        exact ⟨inputs.insert p.id v, by simp only [hv, Option.map_some]⟩
    obtain ⟨next, hnext⟩ := hnext
    obtain ⟨result, hresult⟩ := ih next fun p hp => h p (List.mem_cons_of_mem _ hp)
    exact ⟨result, by rw [List.foldlM_cons, hnext]; exact hresult⟩

theorem gather_congr {ports : List Port}
    (h : ∀ port source, w.producerOf ⟨id, port⟩ = some source →
      value? source = value?' source) :
    w.gather value? id ports = w.gather value?' id ports := by
  have hread : w.readSink value? id = w.readSink value?' id := by
    funext inputs p
    rw [readSink, readSink]
    cases hs : w.producerOf ⟨id, p.id⟩ with
    | none => rfl
    | some source =>
      dsimp only
      rw [h p.id source hs]
  rw [gather, gather, hread]

/-- One more sink keeps inputs equal, if its source has equal values. -/
theorem readSink_beq {inputs inputs' : Inputs} (hinputs : (inputs == inputs') = true) {p : Port}
    (h : ∀ source, w.producerOf ⟨id, p.id⟩ = some source →
      (value? source == value?' source) = true) :
    (w.readSink value? id inputs p == w.readSink value?' id inputs' p) = true := by
  rw [readSink, readSink]
  cases hs : w.producerOf ⟨id, p.id⟩ with
  | none => exact hinputs
  | some source =>
    have hvalue := h source hs
    dsimp only
    revert hvalue
    cases value? source with
    | none =>
      cases value?' source with
      | none => exact fun _ => rfl
      | some v' => exact fun hvalue => hvalue
    | some v =>
      cases value?' source with
      | none => exact fun hvalue => hvalue
      | some v' => exact fun hvalue => Dict.beq_insert hinputs p.id hvalue

/-- What is gathered depends on the values of the sources alone. -/
theorem gather_beq {ports : List Port}
    (h : ∀ port source, w.producerOf ⟨id, port⟩ = some source →
      (value? source == value?' source) = true) :
    (w.gather value? id ports == w.gather value?' id ports) = true := by
  suffices hfold : ∀ (l : List Port) (inputs inputs' : Inputs), (inputs == inputs') = true →
      (l.foldlM (w.readSink value? id) inputs == l.foldlM (w.readSink value?' id) inputs') =
        true from
    hfold _ _ _ BEq.rfl
  intro l
  induction l with
  | nil => exact fun inputs inputs' hinputs => hinputs
  | cons p rest ih =>
    intro inputs inputs' hinputs
    have hnext := readSink_beq hinputs fun source => h p.id source
    rw [List.foldlM_cons, List.foldlM_cons]
    revert hnext
    cases w.readSink value? id inputs p with
    | none =>
      cases w.readSink value?' id inputs' p with
      | none => exact fun _ => rfl
      | some next' => exact fun hnext => absurd hnext Bool.false_ne_true
    | some next =>
      cases w.readSink value?' id inputs' p with
      | none => exact fun hnext => absurd hnext Bool.false_ne_true
      | some next' => exact ih next next'

end Wiring

namespace Graph

variable {σ : Type}

/-- The inputs are what stands on the sources that feed the node, all of them fresh. -/
def Reads (g : Graph σ) (id : NodeId) (inputs : Inputs) : Prop :=
  ∀ port, match g.wiring.producerOf ⟨id, port⟩ with
    | none => inputs.get? port = none
    | some source => ∃ v v', g.freshValue? source = some v ∧ inputs.get? port = some v' ∧
        (v == v') = true

/-! ## Fresh values -/

theorem freshValue?_eq_some {g : Graph σ} {source : PortRef} {v : Json.Value} :
    g.freshValue? source = some v ↔ ∃ n, g.node? source.node = some n ∧ n.stale = false ∧
      n.outputs.value? source.port = some v := by
  rw [freshValue?, Option.bind_eq_some_iff]
  constructor
  · intro hex
    obtain ⟨n, hn, hv⟩ := hex
    obtain ⟨hn, hfresh⟩ := Option.filter_eq_some_iff.1 hn
    exact ⟨n, hn, by simpa using hfresh, hv⟩
  · intro hex
    obtain ⟨n, hn, hfresh, hv⟩ := hex
    exact ⟨n, Option.filter_eq_some_iff.2 ⟨hn, by simpa using hfresh⟩, hv⟩

theorem isFresh_of_freshValue? {g : Graph σ} {source : PortRef} {v : Json.Value}
    (h : g.freshValue? source = some v) : g.isFresh source.node = true := by
  obtain ⟨n, hn, hfresh, -⟩ := freshValue?_eq_some.1 h
  exact isFresh_iff.2 ⟨n, hn, hfresh⟩

theorem value?_of_beq {a b : Outputs} (h : (a == b) = true) {port : PortId} {v : Json.Value}
    (hv : a.value? port = some v) : ∃ v', b.value? port = some v' ∧ (v == v') = true := by
  have hport := Dict.beq_iff.1 h port
  rw [Outputs.value?, Option.bind_eq_some_iff] at hv
  obtain ⟨x, hx, hv⟩ := hv
  rw [hx] at hport
  cases hy : b.get? port with
  | none =>
    rw [hy] at hport
    cases hport
  | some y =>
    rw [hy] at hport
    cases x with
    | stop => cases hv
    | value u =>
      cases y with
      | stop => cases hport
      | value w =>
        cases hv
        exact ⟨w, by rw [Outputs.value?, hy]; rfl, hport⟩

theorem beq_value? {a b : Outputs} (h : (a == b) = true) (port : PortId) :
    (a.value? port == b.value? port) = true := by
  cases ha : a.value? port with
  | some v =>
    obtain ⟨v', hb, heq⟩ := value?_of_beq h ha
    rw [hb]
    exact heq
  | none =>
    cases hb : b.value? port with
    | none => rfl
    | some v =>
      obtain ⟨v', ha', -⟩ := value?_of_beq (BEq.symm h) hb
      rw [ha] at ha'
      cases ha'

theorem Upheld.freshValue? {g g' : Graph σ} {source : PortRef} {v : Json.Value}
    (h : Upheld g g' source.node) (hv : g.freshValue? source = some v) :
    ∃ v', g'.freshValue? source = some v' ∧ (v == v') = true := by
  obtain ⟨n, hn, hfresh, hv⟩ := freshValue?_eq_some.1 hv
  obtain ⟨n', hn', hfresh', hout⟩ := h n hn hfresh
  obtain ⟨v', hv', heq⟩ := value?_of_beq hout hv
  exact ⟨v', freshValue?_eq_some.2 ⟨n', hn', hfresh', hv'⟩, heq⟩

theorem Reads.undisturbed {g g' : Graph σ} {id : NodeId} {inputs : Inputs}
    (h : g.Reads id inputs) (hund : Undisturbed g g' id) : g'.Reads id inputs := by
  intro port
  obtain ⟨hprod, hup⟩ := hund port
  have hport := h port
  rw [hprod]
  cases hs : g.wiring.producerOf ⟨id, port⟩ with
  | none =>
    rw [hs] at hport
    exact hport
  | some source =>
    rw [hs] at hport
    obtain ⟨v, w, hv, hw, hvw⟩ := hport
    obtain ⟨v', hv', hvv⟩ := (hup source hs).freshValue? hv
    exact ⟨v', w, hv', hw, BEq.trans (BEq.symm hvv) hvw⟩

theorem Reads.isFresh {g : Graph σ} {u v : NodeId} {inputs : Inputs} (h : g.Reads v inputs)
    (huv : g.wiring.Feeds u v) : g.isFresh u = true := by
  obtain ⟨c, hc, rfl, rfl⟩ := huv
  have hport := h c.sink.port
  rw [hc] at hport
  obtain ⟨x, -, hx, -⟩ := hport
  exact isFresh_of_freshValue? hx

/-! ## Resolution -/

variable [NodeState σ] {r : Registry σ} {g : Graph σ} {id : NodeId} {n : Node σ}
  {d : Definition σ}

/-- In a whole graph a bound sink is one of the ports of its node. -/
theorem Whole.mem_sinks (h : g.Whole r) (hn : g.node? id = some n) (hd : r.of? n.state = some d)
    {port : PortId} {source : PortRef} (hs : g.wiring.producerOf ⟨id, port⟩ = some source) :
    port ∈ ((d.ports n.state).filter Port.isSink).map (·.id) := by
  obtain ⟨-, q, -, ⟨n', d', hn', hd', hq⟩, -, hdir, -⟩ := h.joined ⟨source, ⟨id, port⟩⟩ hs
  rw [hn] at hn'
  cases hn'
  rw [hd] at hd'
  cases hd'
  obtain ⟨hmem, hid⟩ := Definition.mem_of_port? hq
  refine List.mem_map.2 ⟨q, List.mem_filter.2 ⟨hmem, ?_⟩, hid⟩
  rw [Port.isSink, hdir]
  rfl

/-- The inputs that were resolved are exactly the values on the sources. -/
theorem get?_of_resolve (h : g.Whole r) (hn : g.node? id = some n) (hd : r.of? n.state = some d)
    {inputs : Inputs} (hinputs : g.resolve id (d.ports n.state) = some inputs) (port : PortId) :
    match g.wiring.producerOf ⟨id, port⟩ with
      | none => inputs.get? port = none
      | some source => ∃ v, g.freshValue? source = some v ∧ inputs.get? port = some v := by
  rw [resolve, Wiring.gather] at hinputs
  have hget := Wiring.get?_of_foldlM_readSink hinputs port
  cases hs : g.wiring.producerOf ⟨id, port⟩ with
  | none =>
    rw [hs] at hget
    exact hget
  | some source =>
    have hmem := h.mem_sinks hn hd hs
    rw [hs] at hget
    simp only [if_pos hmem] at hget
    obtain ⟨p, hp, rfl⟩ := List.mem_map.1 hmem
    obtain ⟨v, hv⟩ := Wiring.isSome_of_foldlM_readSink hinputs hp hs
    exact ⟨v, hv, by rw [hget, hv]⟩

theorem reads_of_resolve (h : g.Whole r) (hn : g.node? id = some n) (hd : r.of? n.state = some d)
    {inputs : Inputs} (hinputs : g.resolve id (d.ports n.state) = some inputs) :
    g.Reads id inputs := by
  intro port
  have hport := get?_of_resolve h hn hd hinputs port
  split
  · rename_i hs
    rw [hs] at hport
    exact hport
  · rename_i source hs
    rw [hs] at hport
    obtain ⟨v, hv, hget⟩ := hport
    exact ⟨v, v, hv, hget, BEq.rfl⟩

theorem resolve_of_reads (h : g.Whole r) (hn : g.node? id = some n) (hd : r.of? n.state = some d)
    {inputs : Inputs} (hreads : g.Reads id inputs) :
    ∃ now, g.resolve id (d.ports n.state) = some now ∧ (now == inputs) = true := by
  have hsome : ∃ now, g.resolve id (d.ports n.state) = some now := by
    rw [resolve, Wiring.gather]
    apply Wiring.foldlM_readSink _
    intro p _ source hs
    have hport := hreads p.id
    rw [hs] at hport
    obtain ⟨v, -, hv, -⟩ := hport
    exact ⟨v, hv⟩
  obtain ⟨now, hnow⟩ := hsome
  refine ⟨now, hnow, Dict.beq_iff.2 fun port => ?_⟩
  have hget := get?_of_resolve h hn hd hnow port
  have hport := hreads port
  split at hport
  · rename_i hs
    rw [hs] at hget
    rw [hget, hport]
    rfl
  · rename_i source hs
    rw [hs] at hget
    obtain ⟨v, w, hv, hw, hvw⟩ := hport
    obtain ⟨v', hv', hget⟩ := hget
    rw [hv] at hv'
    cases hv'
    rw [hget, hw]
    exact hvw

end Graph

end Patchbay
