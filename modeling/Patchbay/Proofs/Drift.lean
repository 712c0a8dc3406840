import Mathlib.Data.Set.Basic
import Patchbay.Proofs.Staleness
import Patchbay.Proofs.Steady

/-!
# How a graph drifts

Whatever happens to a graph, a node either stays as it is and reads what it read before, or it is
invalidated. `Drift` says this of two graphs, with the exception of some nodes that the change
has not told yet. Changes compose, and an invalidation settles the exceptions that it starts
from.

What is proved here:
  1. `Drift.trans`, `Drift.settle`: changes one after another, and the end of an exception.
  2. `Drift.of_visited`, `Drift.of_halted`: the traversals tell every node that they concern.
  3. `drift_modify`, `drift_rewire`: a change of one node concerns this node, and if its outputs
     change those that read them; a change of the wiring concerns the sinks.
-/

namespace Patchbay

variable {σ : Type} [NodeState σ]

namespace Node

/-- One node at two times, with no new claim in between. -/
structure Kin (n n' : Node σ) : Prop where
  type : n'.typeName = n.typeName
  epoch : n.epoch ≤ n'.epoch
  claim : n'.claimed = true → n.claimed = true ∧ n'.run = n.run

theorem Kin.refl (n : Node σ) : Kin n n := ⟨rfl, Nat.le_refl _, fun h => ⟨h, rfl⟩⟩

theorem Kin.trans {a b c : Node σ} (h : Kin a b) (h' : Kin b c) : Kin a c where
  type := h'.type.trans h.type
  epoch := Nat.le_trans h.epoch h'.epoch
  claim hc := by
    obtain ⟨hb, hrun⟩ := h'.claim hc
    obtain ⟨ha, hrun'⟩ := h.claim hb
    exact ⟨ha, hrun.trans hrun'⟩

structure Outdated (n n' : Node σ) : Prop where
  epoch : n.epoch < n'.epoch
  stale : n'.stale = true

/-- Nothing happened to the node that matters to anyone. -/
structure Calm (n n' : Node σ) : Prop where
  epoch : n'.epoch = n.epoch
  stale : n'.stale = n.stale
  outputs : n'.outputs = n.outputs
  state : Alike n.state n'.state

theorem Calm.refl (n : Node σ) : Calm n n := ⟨rfl, rfl, rfl, .refl _⟩

theorem Calm.trans {a b c : Node σ} (h : Calm a b) (h' : Calm b c) : Calm a c :=
  ⟨h'.epoch.trans h.epoch, h'.stale.trans h.stale, h'.outputs.trans h.outputs,
    h.state.trans h'.state⟩

theorem kin_aged (k : Nat) (n : Node σ) : Kin n (n.aged k) :=
  ⟨rfl, Nat.le_add_right _ _, fun h => ⟨h, rfl⟩⟩

omit [NodeState σ] in
theorem outdated_aged {k : Nat} (n : Node σ) (h : 0 < k) : Outdated n (n.aged k) :=
  ⟨Nat.lt_add_of_pos_right h, stale_aged h⟩

theorem kin_stopped (n : Node σ) : Kin n n.stopped :=
  ⟨rfl, Nat.le_succ _, fun h => ⟨h, rfl⟩⟩

omit [NodeState σ] in
theorem outdated_stopped (n : Node σ) : Outdated n n.stopped := ⟨Nat.lt_succ_self _, rfl⟩

end Node

namespace Graph

variable {g g₁ g₂ : Graph σ} {P Q : Set NodeId}

/-- A fresh node is fresh still, and its outputs are equal. -/
def Upheld (g g' : Graph σ) (u : NodeId) : Prop :=
  ∀ n, g.node? u = some n → n.stale = false →
    ∃ n', g'.node? u = some n' ∧ n'.stale = false ∧ (n.outputs == n'.outputs) = true

/-- The node reads from where it read, and what it reads is upheld. -/
def Undisturbed (g g' : Graph σ) (v : NodeId) : Prop :=
  ∀ port, g'.wiring.producerOf ⟨v, port⟩ = g.wiring.producerOf ⟨v, port⟩ ∧
    ∀ source, g.wiring.producerOf ⟨v, port⟩ = some source → Upheld g g' source.node

omit [NodeState σ] in
theorem Upheld.trans {u : NodeId} (h : Upheld g g₁ u) (h' : Upheld g₁ g₂ u) :
    Upheld g g₂ u := by
  intro n hn hfresh
  obtain ⟨n₁, hn₁, hfresh₁, hout₁⟩ := h n hn hfresh
  obtain ⟨n₂, hn₂, hfresh₂, hout₂⟩ := h' n₁ hn₁ hfresh₁
  exact ⟨n₂, hn₂, hfresh₂, BEq.trans hout₁ hout₂⟩

omit [NodeState σ] in
theorem Undisturbed.trans {v : NodeId} (h : Undisturbed g g₁ v) (h' : Undisturbed g₁ g₂ v) :
    Undisturbed g g₂ v := by
  intro port
  obtain ⟨hp, hup⟩ := h port
  obtain ⟨hp', hup'⟩ := h' port
  refine ⟨hp'.trans hp, fun source hs => (hup source hs).trans (hup' source ?_)⟩
  rw [hp, hs]

omit [NodeState σ] in
/-- What feeds an undisturbed node fed it before, and is as fresh as it was. -/
theorem Undisturbed.feeds {u v : NodeId} (h : Undisturbed g g₁ v) (huv : g₁.wiring.Feeds u v) :
    g.wiring.Feeds u v ∧ (g.isFresh u = true → g₁.isFresh u = true) := by
  obtain ⟨c, hc, rfl, rfl⟩ := huv
  obtain ⟨hprod, hup⟩ := h c.sink.port
  have hc' : g.wiring.producerOf c.sink = some c.source := by
    rw [← hc]
    exact hprod.symm
  refine ⟨⟨c, hc', rfl, rfl⟩, fun hfresh => ?_⟩
  obtain ⟨n, hn, hs⟩ := isFresh_iff.1 hfresh
  obtain ⟨n', hn', hs', -⟩ := hup c.source hc' n hn hs
  exact isFresh_iff.2 ⟨n', hn', hs'⟩

/-- Every node of the second graph comes from the first one. Unless it is in the set, either it
was invalidated, or nothing happened to it or to what it reads. -/
def Drift (P : Set NodeId) (g g' : Graph σ) : Prop :=
  ∀ m n', g'.node? m = some n' → ∃ n, g.node? m = some n ∧ n.Kin n' ∧
    (m ∈ P ∨ n.Outdated n' ∨ n.Calm n' ∧ Undisturbed g g' m)

namespace Drift

theorem mono (h : Drift P g g₁) (hPQ : P ⊆ Q) : Drift Q g g₁ := by
  intro m n' hn'
  obtain ⟨n, hn, hkin, hP | hrest⟩ := h m n' hn'
  · exact ⟨n, hn, hkin, .inl (hPQ hP)⟩
  · exact ⟨n, hn, hkin, .inr hrest⟩

theorem trans (h : Drift P g g₁) (h' : Drift Q g₁ g₂) : Drift (P ∪ Q) g g₂ := by
  intro m n₂ hn₂
  obtain ⟨n₁, hn₁, hkin', hcase'⟩ := h' m n₂ hn₂
  obtain ⟨n, hn, hkin, hcase⟩ := h m n₁ hn₁
  refine ⟨n, hn, hkin.trans hkin', ?_⟩
  rcases hcase with hP | hout | ⟨hcalm, hund⟩
  · exact .inl (.inl hP)
  · rcases hcase' with hQ | hout' | ⟨hcalm', -⟩
    · exact .inl (.inr hQ)
    · exact .inr (.inl ⟨Nat.lt_trans hout.epoch hout'.epoch, hout'.stale⟩)
    · exact .inr (.inl ⟨by rw [hcalm'.epoch]; exact hout.epoch,
        by rw [hcalm'.stale]; exact hout.stale⟩)
  · rcases hcase' with hQ | hout' | ⟨hcalm', hund'⟩
    · exact .inl (.inr hQ)
    · exact .inr (.inl ⟨by rw [← hcalm.epoch]; exact hout'.epoch, hout'.stale⟩)
    · exact .inr (.inr ⟨hcalm.trans hcalm', hund.trans hund'⟩)

theorem refl (g : Graph σ) : Drift ∅ g g := by
  intro m n hn
  refine ⟨n, hn, .refl n, .inr (.inr ⟨.refl n, fun port => ⟨rfl, fun source _ => ?_⟩⟩)⟩
  exact fun u hu hfresh => ⟨u, hu, hfresh, BEq.rfl⟩

omit [NodeState σ] in
/-- The traversal leaves a fresh node alone, or it visits all its consumers. -/
theorem upheld_of_visits {ids : List NodeId} {visits : NodeId → Nat}
    (h : Visited g ids visits g₁) {u : NodeId} (hu : visits u = 0) : Upheld g g₁ u := by
  intro n hn hfresh
  refine ⟨n, ?_, hfresh, BEq.rfl⟩
  rw [h.node?, hn, hu, Option.map_some, Node.aged_zero]

theorem of_visited {ids : List NodeId} {visits : NodeId → Nat}
    (h : Visited g ids visits g₁) : Drift ∅ g g₁ := by
  intro m n' hn'
  rw [h.node?, Option.map_eq_some_iff] at hn'
  obtain ⟨n, hn, rfl⟩ := hn'
  refine ⟨n, hn, Node.kin_aged _ n, .inr ?_⟩
  by_cases hpos : 0 < visits m
  · exact .inl (Node.outdated_aged n hpos)
  · have hzero : visits m = 0 := by omega
    refine .inr ⟨by rw [hzero, Node.aged_zero]; exact .refl n, fun port => ⟨by rw [h.wiring], ?_⟩⟩
    intro source hs u hu hfresh
    have hvisits : visits source.node = 0 := by
      by_contra hne
      exact hpos (h.onward source.node m (isFresh_iff.2 ⟨u, hu, hfresh⟩) (by omega)
        ⟨⟨source, ⟨m, port⟩⟩, hs, rfl, rfl⟩)
    exact upheld_of_visits h hvisits u hu hfresh

/-- An invalidation ends the exception of the nodes that it visits. -/
theorem settle {ids : List NodeId} {visits : NodeId → Nat} (h : Drift P g g₁)
    (hv : Visited g₁ ids visits g₂) : Drift {m ∈ P | visits m = 0} g g₂ := by
  intro m n₂ hn₂
  obtain ⟨n, hn, hkin, hcase⟩ := h.trans (of_visited hv) m n₂ hn₂
  refine ⟨n, hn, hkin, ?_⟩
  rcases hcase with (hP | hQ) | hrest
  · by_cases hm : visits m = 0
    · exact .inl ⟨hP, hm⟩
    · refine .inr (.inl ?_)
      rw [hv.node?, Option.map_eq_some_iff] at hn₂
      obtain ⟨n₁, hn₁, rfl⟩ := hn₂
      obtain ⟨n', hn', hkin', -⟩ := h m n₁ hn₁
      rw [hn] at hn'
      cases hn'
      have hout := Node.outdated_aged n₁ (Nat.pos_of_ne_zero hm)
      exact ⟨Nat.lt_of_le_of_lt hkin'.epoch hout.epoch, hout.stale⟩
  · exact absurd hQ (Set.notMem_empty m)
  · exact .inr hrest

theorem of_halted {S : NodeId → Prop} [DecidablePred S] (h : Halted g S g₁) :
    Drift ∅ g g₁ := by
  intro m n' hn'
  rw [h.node?] at hn'
  split at hn'
  · obtain ⟨n, hn, rfl⟩ := Option.map_eq_some_iff.1 hn'
    exact ⟨n, hn, Node.kin_stopped n, .inr (.inl (Node.outdated_stopped n))⟩
  · rename_i hm
    refine ⟨n', hn', .refl n', .inr (.inr ⟨.refl n', fun port => ⟨by rw [h.wiring], ?_⟩⟩)⟩
    intro source hs u hu hfresh
    have hS : ¬ S source.node := fun hS => hm (h.onward source.node m hS
      (by rw [hu]; rfl) ⟨⟨source, ⟨m, port⟩⟩, hs, rfl, rfl⟩)
    exact ⟨u, by rw [h.node?, if_neg hS, hu], hfresh, BEq.rfl⟩

end Drift

omit [NodeState σ] in
theorem upheld_modify {id : NodeId} {f : Node σ → Node σ}
    (h : ∀ n, g.node? id = some n → n.stale = false →
      (f n).stale = false ∧ (n.outputs == (f n).outputs) = true) (u : NodeId) :
    Upheld g (g.modify id f) u := by
  intro n hn hfresh
  rw [node?_modify]
  split
  · rename_i he
    subst he
    exact ⟨f n, by rw [hn, Option.map_some], h n hn hfresh⟩
  · exact ⟨n, hn, hfresh, BEq.rfl⟩

/-- A change of one node concerns the node, unless it is calm, and if it does not uphold the node
all that read from it. -/
theorem drift_modify {id : NodeId} {f : Node σ → Node σ}
    (hkin : ∀ n, g.node? id = some n → n.Kin (f n))
    (hself : id ∈ P ∨ ∀ n, g.node? id = some n → n.Calm (f n))
    (hread : Upheld g (g.modify id f) id ∨ ∀ v, g.wiring.Feeds id v → v ∈ P) :
    Drift P g (g.modify id f) := by
  have hundisturbed : ∀ v, v ∈ P ∨ Undisturbed g (g.modify id f) v := by
    intro v
    by_cases hv : v ∈ P
    · exact .inl hv
    · refine .inr fun port => ⟨rfl, fun source hs => ?_⟩
      by_cases he : source.node = id
      · rw [he]
        refine hread.resolve_right fun hall => hv (hall v ?_)
        exact ⟨⟨source, ⟨v, port⟩⟩, hs, he, rfl⟩
      · intro n hn hfresh
        exact ⟨n, by rw [node?_modify, if_neg (Ne.symm he), hn], hfresh, BEq.rfl⟩
  intro m n' hn'
  rw [node?_modify] at hn'
  split at hn'
  · rename_i he
    subst he
    obtain ⟨n, hn, rfl⟩ := Option.map_eq_some_iff.1 hn'
    refine ⟨n, hn, hkin n hn, ?_⟩
    rcases hself with hP | hcalm
    · exact .inl hP
    · exact (hundisturbed id).imp_right fun hund => .inr ⟨hcalm n hn, hund⟩
  · exact ⟨n', hn', .refl n',
      (hundisturbed m).imp_right fun hund => .inr ⟨.refl n', hund⟩⟩

theorem drift_modify_calm {id : NodeId} {f : Node σ → Node σ}
    (h : ∀ n, g.node? id = some n → n.Kin (f n) ∧ n.Calm (f n)) :
    Drift ∅ g (g.modify id f) := by
  refine drift_modify (fun n hn => (h n hn).1) (.inr fun n hn => (h n hn).2)
    (.inl (upheld_modify (fun n hn hfresh => ⟨?_, ?_⟩) id))
  · rw [(h n hn).2.stale, hfresh]
  · rw [(h n hn).2.outputs]
    exact BEq.rfl

/-- A change of the wiring concerns the nodes whose sinks are bound to something else. -/
theorem drift_rewire {w : Wiring}
    (h : ∀ sink : PortRef, sink.node ∉ P → w.producerOf sink = g.wiring.producerOf sink) :
    Drift P g { g with wiring := w } := by
  intro m n hn
  refine ⟨n, hn, .refl n, ?_⟩
  by_cases hm : m ∈ P
  · exact .inl hm
  · exact .inr (.inr ⟨.refl n, fun port => ⟨h ⟨m, port⟩ hm, fun _ _ n hn hfresh =>
      ⟨n, hn, hfresh, BEq.rfl⟩⟩⟩)

/-! ## What does not concern a node -/

/-- Every node of the second graph outside of the set comes from the first one. Either it was
invalidated, or nothing happened to it or to what it reads. -/
def Spares (P : Set NodeId) (g g' : Graph σ) : Prop :=
  ∀ m ∉ P, ∀ n', g'.node? m = some n' → ∃ n, g.node? m = some n ∧ n.Kin n' ∧
    (n.Outdated n' ∨ n.Calm n' ∧ Undisturbed g g' m)

theorem Drift.spares (h : Drift P g g₁) : Spares P g g₁ := by
  intro m hm n' hn'
  obtain ⟨n, hn, hkin, hcase⟩ := h m n' hn'
  exact ⟨n, hn, hkin, hcase.resolve_left hm⟩

/-- A fresh node outside of the set was fresh before, and nothing happened to it. -/
theorem Spares.fresh (h : Spares P g g₁) {m : NodeId} (hm : m ∉ P) {n' : Node σ}
    (hn' : g₁.node? m = some n') (hfresh : n'.stale = false) :
    ∃ n, g.node? m = some n ∧ n.stale = false ∧ n.Calm n' ∧ Undisturbed g g₁ m := by
  obtain ⟨n, hn, -, hout | ⟨hcalm, hund⟩⟩ := h m hm n' hn'
  · rw [hout.stale] at hfresh
    cases hfresh
  · exact ⟨n, hn, by rw [← hcalm.stale, hfresh], hcalm, hund⟩

omit [NodeState σ] in
/-- If only one node is touched, and its outputs are upheld, no node is disturbed. -/
theorem undisturbed_of_local {id : NodeId} (hw : g₁.wiring = g.wiring)
    (hother : ∀ m, m ≠ id → g₁.node? m = g.node? m) (hup : Upheld g g₁ id) (v : NodeId) :
    Undisturbed g g₁ v := by
  refine fun port => ⟨by rw [hw], fun source _ => ?_⟩
  by_cases he : source.node = id
  · rw [he]
    exact hup
  · intro n hn hfresh
    exact ⟨n, by rw [hother _ he, hn], hfresh, BEq.rfl⟩

end Graph

end Patchbay
