import Patchbay.Proofs.Endurance
import Patchbay.Proofs.Ownership

/-!
# What holds of a node while a run has it

As long as a run has its node, no other run writes to it. What is said of the node under the
condition that the run has it, and what survives invalidations, stop signs, reactions and edits,
therefore holds until the run itself writes. Two such things are proved of every world that can
be reached: the epoch under which a computation began is not later than that of the node, and a
run that is about to release its node has given up the claim already.

What is proved here:
  1. `Engine.kept_turn`, `Engine.Performed.kept`: the principle.
  2. `Typed.invariant`: under a registry that covers its states every node is of a registered type.
  3. `Tenured.invariant`: the two facts.
-/

namespace Patchbay

variable {σ : Type}

namespace Node

/-- What is said of a node only as long as the run with this number has it. -/
structure Personal (run : Nat) (Q : Node σ → Prop) : Prop where
  abides : ∀ n n', Abides n n' → Q n → Q n'
  free : ∀ n, (n.run = run → n.claimed = false) → Q n

namespace Personal

variable {run : Nat} {Q : Node σ → Prop}

theorem robust (h : Personal run Q) : Robust fun n n' => Q n → Q n' where
  refl _ hn := hn
  trans _ _ _ h₁ h₂ hn := h₂ (h₁ hn)
  touched n := h.abides n _ (robust_abides.touched n)
  invalidated n := h.abides n _ (robust_abides.invalidated n)
  stopped n := h.abides n _ (robust_abides.stopped n)

theorem editable [NodeState σ] (h : Personal run Q) (r : Registry σ) :
    Editable r fun n n' => Q n → Q n' where
  toRobust := h.robust
  hook n d connected port hd := h.abides n _ ((reactive_abides r).hook n d connected port hd)
  edit n state status hstate := h.abides n _ ((editable_abides r).edit n state status hstate)

theorem unclaimed (run : Nat) : Personal run fun n : Node σ => n.run = run → n.claimed = false where
  abides _ _ h hn hrun := h.claimed.trans (hn (h.run.symm.trans hrun))
  free _ h := h

theorem le_epoch (run epoch : Nat) :
    Personal run fun n : Node σ => n.run = run → n.claimed = true → epoch ≤ n.epoch where
  abides _ _ h hn hrun hclaimed :=
    Nat.le_trans (hn (h.run.symm.trans hrun) (h.claimed.symm.trans hclaimed)) h.epoch
  free _ h hrun hclaimed := absurd ((h hrun).symm.trans hclaimed) Bool.false_ne_true

theorem behind (run epoch : Nat) : Personal run fun n : Node σ =>
    n.run = run → n.claimed = true → n.stale = true ∧ epoch < n.epoch where
  abides _ _ h hn hrun hclaimed := by
    obtain ⟨hstale, hlt⟩ := hn (h.run.symm.trans hrun) (h.claimed.symm.trans hclaimed)
    exact ⟨h.stale hstale, Nat.lt_of_lt_of_le hlt h.epoch⟩
  free _ h hrun hclaimed := absurd ((h hrun).symm.trans hclaimed) Bool.false_ne_true

end Personal

end Node

/-! ## The principle -/

namespace Engine

variable [NodeState σ] {e e' : Engine σ} {run : Nat} {Q : Node σ → Prop} {id : NodeId}

/-- No step of another run takes from a run what it can rely on. -/
theorem kept_turn (hQ : Node.Personal run Q) {top : Frame σ} {rest new : List (Frame σ)}
    (hturn : Turn e top rest e' new) (htop : top.run? ≠ some run)
    (h : ∀ n, e.graph.node? id = some n → Q n) (n' : Node σ)
    (hn' : e'.graph.node? id = some n') : Q n' := by
  have hrel := rel_turn_of_writes (m := id) hQ.robust hturn fun n n' hn hwrites => by
    -- A write claims the node for the run that writes, which is another one, or frees the node.
    have hother : ∀ k, top.run? = some k → k ≠ run := fun k hk heq => htop (heq ▸ hk)
    cases hwrites with
    | taken _ run' _ hfree => exact fun _ => hQ.free _ fun heq => absurd heq (hother run' rfl)
    | started _ run' _ hrun =>
      exact fun _ => hQ.free _ fun heq => absurd (hrun.symm.trans heq) (hother run' rfl)
    | released _ run' ending _ =>
      intro hn
      unfold Node.released
      split
      · exact hQ.free _ fun _ => rfl
      · exact hn
    | _ => exact fun _ => hQ.free _ fun _ => rfl
  obtain ⟨n, hn, himp⟩ := Graph.exists_of_rel' hrel hn'
  exact himp (h n hn)

theorem Performed.kept (hQ : Node.Personal run Q) {m : Move σ} (hperformed : e.Performed m e')
    (h : ∀ n, e.graph.node? id = some n → Q n) (n' : Node σ)
    (hn' : e'.graph.node? id = some n') : Q n' := by
  rcases hperformed.rel (hQ.editable e.registry) id with hrel | ⟨-, hnone⟩ | ⟨state, hcreate⟩ |
    ⟨s, -, hrestore⟩
  · obtain ⟨n, hn, himp⟩ := Graph.exists_of_rel' hrel hn'
    exact himp (h n hn)
  · rw [hnone] at hn'
    cases hn'
  · obtain ⟨-, hnew, rfl⟩ := createWith_eq_ok hcreate
    obtain rfl := Graph.node?_inserted_self hn'
    exact hQ.free _ fun _ => rfl
  · exact hQ.free _ fun _ => ((restore_spec hrestore).2 id n' hn').1

end Engine

/-! ## Types -/

variable [NodeState σ] {r : Registry σ} {p : Policy} {e e' : Engine σ}
  {frames : List (Frame σ)}

/-- Every node is of a registered type, and so is every computation. -/
structure Typed (r : Registry σ) (p : Policy) (e : Engine σ) (frames : List (Frame σ)) : Prop where
  registry : e.registry = r
  policy : e.policy = p
  types : ∀ id n, e.graph.node? id = some n → r.Knows n.state
  definitions : ∀ id run epoch d context c,
    Frame.run id (.computing run epoch d context c) ∈ frames → ∃ s, r.of? s = some d

namespace Typed

theorem knows_restore {s : Snapshot σ} (h : e.restore s = .ok e') {id : NodeId} {n : Node σ}
    (hn : e'.graph.node? id = some n) : e.registry.Knows n.state := by
  have hdefects := Engine.defects_of_restore h
  have htypes : Snapshot.nodeDefects e.registry [] s.nodes = [] := by
    rw [Snapshot.defects, List.append_eq_nil_iff, List.append_eq_nil_iff,
      List.append_eq_nil_iff] at hdefects
    exact hdefects.1.1.1
  obtain ⟨g, hg, rfl⟩ := Engine.exists_graph_of_restore h
  obtain ⟨-, hnodes, -⟩ := Snapshot.graph_eq_ok hg
  have heach := Graph.each_invalidateAll Node.robust_state g
    (g.staleNodes.flatMap g.wiring.downstream)
  obtain ⟨n₁, hn₁, hstate⟩ := Graph.exists_of_rel' (heach.nodes id) hn
  obtain ⟨n₀, hn₀, -, rfl⟩ := (hnodes id n₁).1 hn₁
  obtain ⟨d, hd⟩ := Snapshot.types_of_nodeDefects htypes n₀ hn₀
  exact ⟨d, hstate ▸ hd⟩

theorem performed (hr : r.Covers) {m : Move σ} (h : Typed r p e frames)
    (hperformed : e.Performed m e') : Typed r p e' frames where
  registry := hperformed.stays.registry.trans h.registry
  policy := hperformed.stays.policy.trans h.policy
  types id n' hn' := by
    have hr' : e.registry.Covers := h.registry ▸ hr
    rcases hperformed.rel (Node.editable_knows hr') id with hrel | ⟨-, hnone⟩ |
      ⟨state, hcreate⟩ | ⟨s, -, hrestore⟩
    · obtain ⟨n, hn, himp⟩ := Graph.exists_of_rel' hrel hn'
      rw [h.registry] at himp
      exact himp (h.types id n hn)
    · rw [hnone] at hn'
      cases hn'
    · obtain ⟨hhas, -, rfl⟩ := Engine.createWith_eq_ok hcreate
      obtain rfl := Graph.node?_inserted_self hn'
      rw [h.registry] at hhas
      exact Option.isSome_iff_exists.1 hhas
    · exact h.registry ▸ knows_restore hrestore hn'
  definitions := h.definitions

theorem turn (hr : r.Covers) {top : Frame σ} {rest new pre post : List (Frame σ)}
    (h : Typed r p e (pre ++ top :: post)) (hturn : Turn e top rest e' new) :
    Typed r p e' (pre ++ new ++ post) where
  registry := (Engine.registry_turn hturn).1.trans h.registry
  policy := (Engine.registry_turn hturn).2.trans h.policy
  types id n' hn' := by
    have hr' : e.registry.Covers := h.registry ▸ hr
    have hrel := Engine.rel_turn_of_writes (m := id) (Node.reactive_knows hr').toRobust hturn
      fun n n' hn hwrites => by
        cases hwrites with
        | completed _ run epoch d context outputs _ hrun =>
          obtain ⟨s, hd⟩ := h.definitions id run epoch d context _
            (List.mem_append_right _ List.mem_cons_self)
          exact hr'.result d _ s outputs (h.registry ▸ hd)
        | released _ run ending _ =>
          unfold Node.released
          split
          · exact fun hknows => hknows
          · exact fun hknows => hknows
        | _ => exact fun hknows => hknows
    obtain ⟨n, hn, himp⟩ := Graph.exists_of_rel' hrel hn'
    rw [h.registry] at himp
    exact himp (h.types id n hn)
  definitions id run epoch d context c hf := by
    by_cases hnew : Frame.run id (.computing run epoch d context c) ∈ new
    · cases hturn with
      | begin id' run' rest n d' inputs hn hrun hd hinputs =>
        cases List.mem_singleton.1 hnew
        exact ⟨n.state, h.registry ▸ hd⟩
      | pass top rest e' new hpass =>
        rcases hpass.new_cases with rfl | ⟨f, rfl, hidle | ⟨id', run', ending, rfl, -⟩⟩
        · cases hnew
        · cases List.mem_singleton.1 hnew
          cases hidle
        · cases List.mem_singleton.1 hnew
      | _ => simp at hnew
    · refine h.definitions id run epoch d context c ?_
      simp only [List.mem_append, List.mem_cons] at hf ⊢
      tauto

theorem invariant (hr : r.Covers) (p : Policy) : Invariant r p (Typed r p) where
  start := ⟨rfl, rfl, nofun, nofun⟩
  same h hsame := ⟨hsame.registry.trans h.registry, hsame.policy.trans h.policy,
    hsame.graph.symm ▸ h.types, h.definitions⟩
  idle h hidle := by
    refine ⟨h.registry, h.policy, h.types, fun id run epoch d context c hf => ?_⟩
    rcases List.mem_append.1 hf with hf | hf
    · exact h.definitions id run epoch d context c hf
    · cases hidle _ hf
  performed h hperformed := h.performed hr hperformed
  turn h hturn := h.turn hr hturn
  progress {e pre post id run epoch d context c₀} c h := by
    refine ⟨h.registry, h.policy, h.types, fun id' run' epoch' d' context' c' hf => ?_⟩
    simp only [List.mem_append, List.mem_cons] at hf
    rcases hf with hf | heq | hf
    · exact h.definitions _ _ _ _ _ c' (List.mem_append_left _ hf)
    · cases heq
      exact h.definitions _ _ _ _ _ c₀ (List.mem_append_right _ List.mem_cons_self)
    · exact h.definitions _ _ _ _ _ c' (List.mem_append_right _ (List.mem_cons_of_mem _ hf))

end Typed

/-! ## The two facts -/

namespace Frame

/-- A computation on this level began under an epoch of its node that is not later than the
present one, and a run that is about to release its node has given it up. Only as long as the run
has the node is there anything to say. -/
def Timely (g : Graph σ) : Frame σ → Prop
  | .run id (.computing k epoch _ _ _) =>
    ∀ n, g.node? id = some n → n.run = k → n.claimed = true → epoch ≤ n.epoch
  | .run id (.releasing k _) => ∀ n, g.node? id = some n → n.run = k → n.claimed = false
  | _ => True

omit [NodeState σ] in
theorem timely_of_idle {f : Frame σ} (h : f.run? = none) (g : Graph σ) : f.Timely g := by
  cases f with
  | run id phase =>
    cases phase with
    | computing k epoch d context c => cases h
    | releasing k ending => cases h
    | _ => trivial
  | _ => trivial

omit [NodeState σ] in
/-- A level stays timely in whatever changes a node only as it changes for those who have it. -/
theorem Timely.kept {g g' : Graph σ} {f : Frame σ} (h : f.Timely g)
    (hkept : ∀ k Q id, f.run? = some k → Node.Personal k Q →
      (∀ n, g.node? id = some n → Q n) → ∀ n, g'.node? id = some n → Q n) : f.Timely g' := by
  cases f with
  | run id phase =>
    cases phase with
    | computing k epoch d context c => exact hkept k _ id rfl (.le_epoch k epoch) h
    | releasing k ending => exact hkept k _ id rfl (.unclaimed k) h
    | _ => trivial
  | _ => trivial

end Frame

/-- After the run has written to its node it does not have it any more. -/
theorem Engine.unclaimed_turn {top : Frame σ} {rest new : List (Frame σ)} {id : NodeId}
    {run : Nat} {ending : Ending} (hturn : Turn e top rest e' new)
    (hnew : Frame.run id (.releasing run ending) ∈ new)
    (htypes : ∀ n, e.graph.node? id = some n → e.registry.Knows n.state) (n' : Node σ)
    (hn' : e'.graph.node? id = some n') (hrun' : n'.run = run) : n'.claimed = false := by
  -- The node is given up by a write; what follows the write claims nothing.
  have hwritten : ∀ {f : Node σ → Node σ}, (∀ n, (f n).claimed = false) →
      (e.graph.modify id f).Inherits e'.graph → n'.claimed = false := by
    intro f hf hg
    obtain ⟨n₁, hn₁, hlast⟩ := hg id n' hn'
    obtain ⟨n, -, rfl⟩ := Option.map_eq_some_iff.1 ((Graph.node?_modify_self _ _ _).symm.trans hn₁)
    exact Bool.eq_false_iff.2 fun hclaimed =>
      Bool.false_ne_true ((hf n).symm.trans (hlast.claimed hclaimed))
  cases hturn with
  | block id' run' rest n d events hn hrun hd hinputs =>
    cases List.mem_singleton.1 hnew
    exact hwritten (f := (·.blocked (d.ports n.state))) (fun _ => rfl)
      ((Graph.keeps_invalidate _ id).trans (Graph.keeps_stopAll _ [] _)).nodes
  | finish id' run' epoch rest n d context outputs hn hrun hclaimed =>
    cases List.mem_singleton.1 hnew
    refine hwritten (f := (·.completed (d.applyResult n.state outputs) outputs
      (n.epoch == epoch))) (fun _ => rfl) ?_
    obtain ⟨-, -, hgraph, -⟩ := commitOutputs_spec e id n epoch d outputs
    rw [hgraph]
    unfold Graph.complete
    split
    · exact (Graph.keeps_invalidateAll _ _).nodes
    · exact .refl _
  | fail id' run' epoch rest d context cause n hn hrun hclaimed =>
    cases List.mem_singleton.1 hnew
    exact hwritten (f := (·.failed (Error.executionFailed id cause).message)) (fun _ => rfl)
      (Graph.keeps_invalidate _ id).nodes
  | pass top rest e' new hpass =>
    rw [hpass.same.graph] at hn'
    cases hpass with
    | quit id' run' phase rest e' ending hsame hbeat hphase hend hlost htally =>
      cases List.mem_singleton.1 hnew
      refine Bool.eq_false_iff.2 fun hclaimed => ?_
      obtain ⟨d, hd⟩ := htypes n' hn'
      exact absurd (hd.symm.trans (hlost n' hn' hrun' hclaimed)) nofun
    | _ => simp at hnew
  | _ => simp at hnew

/-- What is known of every world that can be reached, if states are of registered types. -/
structure Tenured (r : Registry σ) (p : Policy) (e : Engine σ) (frames : List (Frame σ)) : Prop
    extends Typed r p e frames, Numbered e frames where
  timely : ∀ f ∈ frames, f.Timely e.graph

namespace Tenured

omit [NodeState σ] in
theorem run?_ne {top f : Frame σ} {pre post : List (Frame σ)}
    (h : ((pre ++ top :: post).filterMap Frame.run?).Nodup) (hf : f ∈ pre ++ post) {run : Nat}
    (hrun : f.run? = some run) : top.run? ≠ some run := by
  intro htop
  rw [List.perm_middle.filterMap Frame.run? |>.nodup_iff, List.filterMap_cons, htop,
    List.nodup_cons] at h
  exact h.1 (List.mem_filterMap.2 ⟨f, hf, hrun⟩)

theorem turn (hr : r.Covers) {top : Frame σ} {rest new pre post : List (Frame σ)}
    (h : Tenured r p e (pre ++ top :: post)) (hturn : Turn e top rest e' new) :
    Tenured r p e' (pre ++ new ++ post) where
  toTyped := h.toTyped.turn hr hturn
  toNumbered := h.toNumbered.turn hturn
  timely f hf := by
    by_cases hnew : f ∈ new
    · cases f with
      | run id phase =>
        cases phase with
        | computing run epoch d context c =>
          cases hturn with
          | begin id' run' rest n d' inputs hn hrun hd hinputs =>
            cases List.mem_singleton.1 hnew
            intro n' hn' _ _
            rw [show Engine.graph _ = e.graph.modify id Node.started from rfl,
              Graph.node?_modify_self, hn] at hn'
            cases hn'
            exact Nat.le_refl _
          | pass top rest e' new hpass =>
            rcases hpass.new_cases with rfl | ⟨f, rfl, hidle | ⟨id', run', ending, rfl, -⟩⟩
            · cases hnew
            · cases List.mem_singleton.1 hnew
              cases hidle
            · cases List.mem_singleton.1 hnew
          | _ => simp at hnew
        | releasing run ending =>
          exact Engine.unclaimed_turn hturn hnew fun n hn => h.registry ▸ h.types id n hn
        | _ => trivial
      | _ => trivial
    · -- A level that was there before stays timely: its number is not that of the level that went on.
      have hold : f ∈ pre ++ post := by
        simp only [List.mem_append] at hf ⊢
        tauto
      refine (h.timely f ?_).kept fun run Q id hrun hQ =>
        Engine.kept_turn hQ hturn (run?_ne h.distinct hold hrun)
      simp only [List.mem_append, List.mem_cons] at hold ⊢
      tauto

theorem invariant (hr : r.Covers) (p : Policy) : Invariant r p (Tenured r p) where
  start := ⟨(Typed.invariant hr p).start, (Numbered.invariant r p).start, nofun⟩
  same h hsame := ⟨(Typed.invariant hr p).same h.toTyped hsame,
    (Numbered.invariant r p).same h.toNumbered hsame, hsame.graph.symm ▸ h.timely⟩
  idle h hidle := by
    refine ⟨(Typed.invariant hr p).idle h.toTyped hidle,
      (Numbered.invariant r p).idle h.toNumbered hidle, fun f hf => ?_⟩
    rcases List.mem_append.1 hf with hf | hf
    · exact h.timely f hf
    · exact Frame.timely_of_idle (hidle f hf) _
  performed h hperformed := ⟨h.toTyped.performed hr hperformed,
    (Numbered.invariant r p).performed h.toNumbered hperformed,
    fun f hf => (h.timely f hf).kept fun _ _ _ _ hQ => hperformed.kept hQ⟩
  turn h hturn := h.turn hr hturn
  progress {e pre post id run epoch d context c₀} c h := by
    refine ⟨(Typed.invariant hr p).progress c h.toTyped,
      (Numbered.invariant r p).progress c h.toNumbered, fun f hf => ?_⟩
    simp only [List.mem_append, List.mem_cons] at hf
    rcases hf with hf | rfl | hf
    · exact h.timely f (List.mem_append_left _ hf)
    · exact h.timely (.run id (.computing run epoch d context c₀))
        (List.mem_append_right _ List.mem_cons_self)
    · exact h.timely f (List.mem_append_right _ (List.mem_cons_of_mem _ hf))

end Tenured

end Patchbay
