import Patchbay.Proofs.Drift

/-!
# Whole graphs

A graph is whole if its wiring is sound, every node is of a registered type, and every connection
leads from a source port to a sink port, both of which exist. `Moulded` says of a change that it
keeps every node, its type and the identities of its ports; with a steady registry it keeps the
connections' ends.
-/

namespace Patchbay

variable {σ : Type} [NodeState σ]

namespace Graph

variable {r : Registry σ} {g g₁ g₂ : Graph σ} {P : Set NodeId}

/-- The port that a reference means. -/
def HasPort (r : Registry σ) (g : Graph σ) (ref : PortRef) (p : Port) : Prop :=
  ∃ n d, g.node? ref.node = some n ∧ r.of? n.state = some d ∧ d.port? n.state ref.port = some p

/-- The connection leads from a source to a sink. If the kinds of ports do not depend on states,
the kinds of the two fit. -/
def Joined (r : Registry σ) (g : Graph σ) (c : Connection) : Prop :=
  ∃ p q, g.HasPort r c.source p ∧ g.HasPort r c.sink q ∧ p.direction = .source ∧
    q.direction = .sink ∧ (r.KindsSteady → p.kind.fits q.kind = true)

structure Whole (r : Registry σ) (g : Graph σ) : Prop where
  wiring : g.wiring.Sound
  types : ∀ m n, g.node? m = some n → ∃ d, r.of? n.state = some d
  joined : ∀ c : Connection, g.wiring.producerOf c.sink = some c.source → g.Joined r c

/-- No node is lost, and each keeps its type and the identities of its ports. -/
def Moulded (r : Registry σ) (g g' : Graph σ) : Prop :=
  ∀ m n, g.node? m = some n → ∃ n', g'.node? m = some n' ∧ r.SameShape n.state n'.state

theorem Moulded.refl (r : Registry σ) (g : Graph σ) : Moulded r g g :=
  fun _ n hn => ⟨n, hn, .refl r _⟩

theorem Moulded.trans (h : Moulded r g g₁) (h' : Moulded r g₁ g₂) : Moulded r g g₂ := by
  intro m n hn
  obtain ⟨n₁, hn₁, hs⟩ := h m n hn
  obtain ⟨n₂, hn₂, hs'⟩ := h' m n₁ hn₁
  exact ⟨n₂, hn₂, hs.trans hs'⟩

theorem Moulded.of_visited {ids : List NodeId} {visits : NodeId → Nat}
    (h : Visited g ids visits g₁) : Moulded r g g₁ := by
  intro m n hn
  exact ⟨n.aged (visits m), by rw [h.node?, hn, Option.map_some], .refl r _⟩

theorem Moulded.of_halted {S : NodeId → Prop} [DecidablePred S] (h : Halted g S g₁) :
    Moulded r g g₁ := by
  intro m n hn
  rw [h.node?, hn]
  split
  · exact ⟨n.stopped, rfl, .refl r _⟩
  · exact ⟨n, rfl, .refl r _⟩

theorem Moulded.modify {id : NodeId} {f : Node σ → Node σ}
    (h : ∀ n, g.node? id = some n → r.SameShape n.state (f n).state) :
    Moulded r g (g.modify id f) := by
  intro m n hn
  rw [node?_modify]
  split
  · rename_i he
    subst he
    exact ⟨f n, by rw [hn, Option.map_some], h n hn⟩
  · exact ⟨n, hn, .refl r _⟩

/-- A port of a node is on its side in every state of the node's shape. -/
theorem HasPort.mould (hr : r.Steady) {ref : PortRef} {p : Port} {n n' : Node σ}
    {d : Definition σ} (hd : r.of? n.state = some d) (hp : d.port? n.state ref.port = some p)
    (hn' : g₁.node? ref.node = some n') (hs : r.SameShape n.state n'.state) :
    ∃ p', g₁.HasPort r ref p' ∧ p'.direction = p.direction ∧
      (r.KindsSteady → p'.kind = p.kind) := by
  have hport : d.hasPort n'.state ref.port = true := by
    rw [hs.ports d hd, Definition.hasPort_iff]
    exact ⟨p, hp⟩
  obtain ⟨p', hp'⟩ := Definition.hasPort_iff.1 hport
  refine ⟨p', ⟨n', d, hn', by rw [hs.of?_eq, hd], hp'⟩, ?_, fun hk => ?_⟩
  · exact hr.direction d _ _ _ p p' hd hs.type hp hp'
  · exact hk d _ _ _ p p' hd hs.type hp hp'

theorem Joined.of_ports {c : Connection} (h : g.Joined r c)
    (hend : ∀ ref p, ref = c.source ∨ ref = c.sink → g.HasPort r ref p →
      ∃ p', g₁.HasPort r ref p' ∧ p'.direction = p.direction ∧
        (r.KindsSteady → p'.kind = p.kind)) : g₁.Joined r c := by
  obtain ⟨p, q, hp, hq, hpd, hqd, hfit⟩ := h
  obtain ⟨p', hp', hpd', hpk⟩ := hend c.source p (.inl rfl) hp
  obtain ⟨q', hq', hqd', hqk⟩ := hend c.sink q (.inr rfl) hq
  refine ⟨p', q', hp', hq', by rw [hpd', hpd], by rw [hqd', hqd], fun hk => ?_⟩
  rw [hpk hk, hqk hk]
  exact hfit hk

theorem Joined.mould (hr : r.Steady) {c : Connection} (h : g.Joined r c)
    (hm : Moulded r g g₁) : g₁.Joined r c := by
  apply h.of_ports
  intro ref p _ hex
  obtain ⟨n, d, hn, hd, hp⟩ := hex
  obtain ⟨n', hn', hs⟩ := hm ref.node n hn
  exact HasPort.mould hr hd hp hn' hs

theorem types_of_drift (h : Drift P g g₁)
    (htypes : ∀ m n, g.node? m = some n → ∃ d, r.of? n.state = some d) :
    ∀ m n, g₁.node? m = some n → ∃ d, r.of? n.state = some d := by
  intro m n' hn'
  obtain ⟨n, hn, hkin, -⟩ := h m n' hn'
  obtain ⟨d, hd⟩ := htypes m n hn
  exact ⟨d, by rw [← hd]; exact congrArg r.definitions.get? hkin.type⟩

/-- Nothing of a graph goes missing if no node is lost and no connection is added. -/
theorem Whole.of_moulded (hr : r.Steady) (h : g.Whole r) (hw : g₁.wiring.Sound)
    (htypes : ∀ m n, g₁.node? m = some n → ∃ d, r.of? n.state = some d) (hm : Moulded r g g₁)
    (hsub : ∀ c : Connection, g₁.wiring.producerOf c.sink = some c.source →
      g.wiring.producerOf c.sink = some c.source) : g₁.Whole r where
  wiring := hw
  types := htypes
  joined c hc := (h.joined c (hsub c hc)).mould hr hm

theorem Whole.of_visited (hr : r.Steady) (h : g.Whole r) {ids : List NodeId}
    {visits : NodeId → Nat} (hv : Visited g ids visits g₁) : g₁.Whole r :=
  h.of_moulded hr (by rw [hv.wiring]; exact h.wiring) (types_of_drift (.of_visited hv) h.types)
    (.of_visited hv) fun c hc => by rwa [hv.wiring] at hc

theorem Whole.of_halted (hr : r.Steady) (h : g.Whole r) {S : NodeId → Prop} [DecidablePred S]
    (hh : Halted g S g₁) : g₁.Whole r :=
  h.of_moulded hr (by rw [hh.wiring]; exact h.wiring) (types_of_drift (.of_halted hh) h.types)
    (.of_halted hh) fun c hc => by rwa [hh.wiring] at hc

end Graph

end Patchbay
