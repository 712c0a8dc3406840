import Patchbay.Bench
import Patchbay.Studio.Registry

/-!
# Steady registries

The ports of a node are a function of its state, and the state changes. A registry is steady if
that cannot pull the ground from under a connection: on which side a port lies depends on the
node type alone, and neither a reaction to a connection nor a result written back adds ports to a
node or takes them away. Equal states are states of one type with the same ports.

What is proved here:
  1. `Bench.steady_registry`, `Studio.steady_registry`: both sets of node types are steady.
  2. `Bench.kindsSteady_registry`, `Studio.kindsSteady_registry`: what a port carries depends on
     the node type alone, too.
-/

namespace Patchbay

variable {σ : Type} [NodeState σ]

/-- Two states that count as one: the same, or equal in the sense of the node types. -/
def Alike (s t : σ) : Prop := s = t ∨ (s == t) = true

theorem Alike.refl (s : σ) : Alike s s := .inl rfl

theorem Alike.symm {s t : σ} (h : Alike s t) : Alike t s := by
  rcases h with rfl | h
  · exact .refl _
  · exact .inr (BEq.symm h)

theorem Alike.trans {s t u : σ} (h : Alike s t) (h' : Alike t u) : Alike s u := by
  rcases h with rfl | h
  · exact h'
  · rcases h' with rfl | h'
    · exact .inr h
    · exact .inr (BEq.trans h h')

namespace Registry

def of? (r : Registry σ) (s : σ) : Option (Definition σ) :=
  r.definitions.get? (NodeState.typeName s)

theorem get_of_of? {r : Registry σ} {s : σ} {d : Definition σ} (h : r.of? s = some d) :
    r.get (NodeState.typeName s) = .ok d := by
  rw [of?] at h
  rw [get, h]

theorem of?_of_get {r : Registry σ} {s : σ} {d : Definition σ}
    (h : r.get (NodeState.typeName s) = .ok d) : r.of? s = some d := by
  rw [get] at h
  split at h
  · rename_i hd
    cases h
    exact hd
  · cases h

/-- The second state is of the same type as the first and has ports of the same identities. -/
structure SameShape (r : Registry σ) (s t : σ) : Prop where
  type : NodeState.typeName t = NodeState.typeName s
  ports : ∀ d, r.of? s = some d → ∀ id, d.hasPort t id = d.hasPort s id

/-- Ports stay where they are. -/
structure Steady (r : Registry σ) : Prop where
  direction : ∀ d s t id p q, r.of? s = some d → NodeState.typeName t = NodeState.typeName s →
    d.port? s id = some p → d.port? t id = some q → q.direction = p.direction
  hook : ∀ d s connected port, r.of? s = some d → r.SameShape s (d.onEdge connected s port)
  result : ∀ d s outputs, r.of? s = some d → r.SameShape s (d.applyResult s outputs)
  equal : ∀ s t, (s == t) = true → r.SameShape s t

/-- Ports carry what they carried. -/
def KindsSteady (r : Registry σ) : Prop :=
  ∀ d s t id p q, r.of? s = some d → NodeState.typeName t = NodeState.typeName s →
    d.port? s id = some p → d.port? t id = some q → q.kind = p.kind

namespace SameShape

variable {r : Registry σ} {s t u : σ}

theorem refl (r : Registry σ) (s : σ) : r.SameShape s s := ⟨rfl, fun _ _ _ => rfl⟩

theorem of?_eq (h : r.SameShape s t) : r.of? t = r.of? s := by
  rw [of?, of?, h.type]

theorem trans (h : r.SameShape s t) (h' : r.SameShape t u) : r.SameShape s u where
  type := h'.type.trans h.type
  ports d hd id := by
    rw [h'.ports d (by rw [h.of?_eq, hd]) id, h.ports d hd id]

/-- A state that was replaced by one that it equals has its shape. -/
theorem of_alike (hr : r.Steady) (h : Alike s t) : r.SameShape s t := by
  rcases h with rfl | h
  · exact refl r s
  · exact hr.equal s t h

end SameShape

end Registry

namespace Definition

variable {τ : Type}

theorem hasPort_iff {d : Definition τ} {s : τ} {id : PortId} :
    d.hasPort s id = true ↔ ∃ p, d.port? s id = some p := by
  rw [hasPort, ← Option.isSome_iff_exists, port?, List.find?_isSome, List.any_eq_true]

theorem mem_of_port? {d : Definition τ} {s : τ} {id : PortId} {p : Port}
    (h : d.port? s id = some p) : p ∈ d.ports s ∧ p.id = id :=
  ⟨List.mem_of_find?_eq_some h, by simpa using List.find?_some h⟩

end Definition

/-! ## The bench -/

namespace Bench

variable (o : Options)

def definitionOf : BenchNode → Definition BenchNode
  | .constant _ => constant
  | .source _ => source
  | .double _ => double
  | .gated => gated o
  | .label _ => label o
  | .switch _ => switch
  | .merge _ => merge

theorem of?_registry (s : BenchNode) : (registry o).of? s = some (definitionOf o s) := by
  cases s <;>
    simp [Registry.of?, registry, Registry.ofList, Dict.ofList, Dict.get?_insert,
      NodeState.typeName, BenchNode.typeName, definitionOf, constant, source, double, gated,
      label, switch, merge, about]

/-- Only the number of its sinks makes the ports of a collector differ. -/
theorem definitionOf_ports (s t : BenchNode) (hm : ∀ n, s ≠ .merge n) :
    (definitionOf o s).ports t = (definitionOf o s).ports s := by
  cases s with
  | merge n => exact absurd rfl (hm n)
  | _ => rfl

/-- The ports of a collector: many sinks, and a source of another name. -/
theorem mem_merge_ports {s : BenchNode} {p : Port} (h : p ∈ merge.ports s) :
    p.kind = .any ∧ p.direction = if p.id = "output" then .source else .sink := by
  rcases List.mem_append.1 h with h | h
  · obtain ⟨i, -, rfl⟩ := List.mem_map.1 h
    have hne : (Port.sink s!"in{i}" .any 0 (40 * (i + 1).toFloat)).id ≠ "output" := by
      intro e
      have e : ("in" ++ toString i).toList = "output".toList := congrArg String.toList e
      simp at e
    rw [if_neg hne]
    exact ⟨rfl, rfl⟩
  · obtain rfl := List.mem_singleton.1 h
    exact ⟨rfl, rfl⟩

theorem editLabel_typeName (s : BenchNode) (f : String → String) :
    (editLabel s f).typeName = s.typeName := by
  cases s <;> rfl

/-- Neither reactions nor results change anything but the text of a label. -/
theorem reaction_ports (s : BenchNode) (f : String → String) :
    (registry o).SameShape s (editLabel s f) where
  type := editLabel_typeName s f
  ports d hd id := by
    rw [of?_registry] at hd
    cases hd
    cases s <;> rfl

theorem steady_registry : (registry o).Steady where
  direction d s t id p q hd ht hp hq := by
    rw [of?_registry] at hd
    cases hd
    by_cases hm : ∃ n, s = .merge n
    · obtain ⟨n, rfl⟩ := hm
      obtain ⟨hp, hpid⟩ := Definition.mem_of_port? hp
      obtain ⟨hq, hqid⟩ := Definition.mem_of_port? hq
      rw [(mem_merge_ports hp).2, (mem_merge_ports hq).2, hpid, hqid]
    · rw [Definition.port?, definitionOf_ports o s t fun n e => hm ⟨n, e⟩] at hq
      rw [Definition.port?, hq] at hp
      cases hp
      rfl
  hook d s connected port hd := by
    rw [of?_registry] at hd
    cases hd
    cases s with
    | label text =>
      cases connected
      · exact reaction_ports o (.label text) (labelText o false · port)
      · exact reaction_ports o (.label text) (labelText o true · port)
    | _ => cases connected <;> exact .refl _ _
  result d s outputs hd := by
    rw [of?_registry] at hd
    cases hd
    cases s with
    | label text =>
      simp only [definitionOf, label]
      split
      · exact reaction_ports o _ _
      · exact .refl _ _
    | _ => exact .refl _ _
  equal s t h := by
    have hst := BenchNode.equal_of_beq h
    refine ⟨?_, fun d hd id => ?_⟩
    · cases hst <;> rfl
    · rw [of?_registry] at hd
      cases hd
      cases hst <;> rfl

theorem kindsSteady_registry : (registry o).KindsSteady := by
  intro d s t id p q hd ht hp hq
  rw [of?_registry] at hd
  cases hd
  by_cases hm : ∃ n, s = .merge n
  · obtain ⟨n, rfl⟩ := hm
    have hp := (Definition.mem_of_port? hp).1
    have hq := (Definition.mem_of_port? hq).1
    rw [(mem_merge_ports hp).1, (mem_merge_ports hq).1]
  · rw [Definition.port?, definitionOf_ports o s t fun n e => hm ⟨n, e⟩] at hq
    rw [Definition.port?, hq] at hp
    cases hp
    rfl

end Bench

/-! ## The studio -/

namespace Studio

def definitionOf : StudioNode → Definition StudioNode
  | .textInput _ => textInput
  | .fileInput _ => fileInput
  | .number _ => number
  | .arithmetic _ => arithmetic
  | .conditional => conditional
  | .imageGeneration _ => imageGeneration
  | .videoGeneration _ => videoGeneration
  | .textGeneration _ => textGeneration

theorem of?_registry (s : StudioNode) : registry.of? s = some (definitionOf s) := by
  cases s <;>
    simp [Registry.of?, registry, definitions, Registry.ofList, Dict.ofList, Dict.get?_insert,
      NodeState.typeName, StudioNode.typeName, definitionOf, textInput, fileInput, number,
      arithmetic, conditional, imageGeneration, videoGeneration, textGeneration]

/-- The identities, directions and kinds of the ports do not depend on the fields. -/
theorem definitionOf_ports (s t : StudioNode) :
    ((definitionOf s).ports t).map (fun p => (p.id, p.direction, p.kind)) =
      ((definitionOf s).ports s).map fun p => (p.id, p.direction, p.kind) := by
  cases s <;>
    simp only [definitionOf, textInput, fileInput, number, arithmetic, conditional,
      imageGeneration, videoGeneration, textGeneration, Port.source, Port.sink, Port.needed,
      List.map]

theorem port?_definitionOf (s t : StudioNode) (id : PortId) :
    ((definitionOf s).port? t id).map (fun p => (p.direction, p.kind)) =
      ((definitionOf s).port? s id).map fun p => (p.direction, p.kind) := by
  have hfind : ∀ l : List Port, (l.find? (·.id == id)).map (fun p => (p.direction, p.kind)) =
      ((l.map fun p => (p.id, p.direction, p.kind)).find? (·.1 == id)).map (·.2) := by
    intro l
    rw [List.find?_map, Option.map_map]
    rfl
  rw [Definition.port?, Definition.port?, hfind, hfind, definitionOf_ports s t]

theorem sameShape {s t : StudioNode} (h : t.typeName = s.typeName) :
    registry.SameShape s t where
  type := h
  ports d hd id := by
    rw [of?_registry] at hd
    cases hd
    have hp := congrArg Option.isSome (port?_definitionOf s t id)
    rw [Option.isSome_map, Option.isSome_map] at hp
    rw [Bool.eq_iff_iff, Definition.hasPort_iff, Definition.hasPort_iff,
      ← Option.isSome_iff_exists, ← Option.isSome_iff_exists, hp]

theorem withMode_typeName (mode : VideoMode) (s : StudioNode) :
    (withMode mode s).typeName = s.typeName := by
  cases s <;> rfl

theorem onEdge_typeName (s : StudioNode) (connected : Bool) (port : PortId) :
    ((definitionOf s).onEdge connected s port).typeName = s.typeName := by
  cases s with
  | imageGeneration s =>
    cases connected with
    | true => rfl
    | false =>
      simp only [Definition.onEdge, Bool.false_eq_true, if_false, definitionOf, imageGeneration]
      split
      · rename_i e _
        cases e
        rfl
      · rfl
  | videoGeneration s =>
    cases connected <;>
      simp only [Definition.onEdge, Bool.false_eq_true, if_false, if_true, definitionOf,
        videoGeneration] <;>
      split
    · exact withMode_typeName _ _
    · rfl
    · exact withMode_typeName _ _
    · rfl
  | _ => cases connected <;> rfl

theorem applyResult_typeName (s : StudioNode) (outputs : Outputs) :
    ((definitionOf s).applyResult s outputs).typeName = s.typeName := by
  cases s with
  | imageGeneration | videoGeneration | textGeneration =>
    simp only [definitionOf, imageGeneration, videoGeneration, textGeneration]
    split
    · rename_i e _
      cases e
      rfl
    · rfl
  | _ => rfl

theorem steady_registry : registry.Steady where
  direction d s t id p q hd ht hp hq := by
    rw [of?_registry] at hd
    cases hd
    have h := port?_definitionOf s t id
    rw [hp, hq] at h
    exact congrArg Prod.fst (Option.some.inj h)
  hook d s connected port hd := by
    rw [of?_registry] at hd
    cases hd
    exact sameShape (onEdge_typeName s connected port)
  result d s outputs hd := by
    rw [of?_registry] at hd
    cases hd
    exact sameShape (applyResult_typeName s outputs)
  equal s t h := by
    have hst := StudioNode.equal_of_beq h
    apply sameShape
    cases hst <;> rfl

theorem kindsSteady_registry : registry.KindsSteady := by
  intro d s t id p q hd ht hp hq
  rw [of?_registry] at hd
  cases hd
  have h := port?_definitionOf s t id
  rw [hp, hq] at h
  exact congrArg Prod.snd (Option.some.inj h)

end Studio

end Patchbay
