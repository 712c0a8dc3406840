import Patchbay.Proofs.Announcements
import Patchbay.Proofs.Footprint

/-!
# What an edit makes stale

An edit runs several invalidations one after another, with connections taken away and node types
reacting in between, and each of them stops at nodes that are stale already. Together they make
stale what they ought to: the fresh nodes that depend on a root. The roots are the node that was
edited, the nodes that lost or gained an input, and the nodes whose states were rewritten by a
reaction. Nothing is missed, because staleness is closed downstream when the edit is over, and
nothing is listed twice, because only a fresh node is listed and it is stale then.

What is proved here:
  1. `Graph.mem_runHooks`: which nodes have their states rewritten by reactions in a row.
  2. `Graph.impact_of_told`: what has to be shown of an edit.
  3. `Engine.impacts_rewire`, `Engine.impacts_remove`, `Engine.impacts_replaceState`: the edits.
  4. `World.impact_exact`: all edits in every world that can be reached.
-/

namespace Patchbay

open Relation

variable {σ : Type} [NodeState σ]

/-! ## Reactions -/

/-- Whether the state changes when the node type reacts to connections at these ports, one after
another. -/
def Registry.reacts (r : Registry σ) (connected : Bool) : σ → List PortId → Bool
  | _, [] => false
  | s, port :: rest =>
    match r.of? s with
    | none => false
    | some d =>
      !(d.onEdge connected s port == s) || r.reacts connected (d.onEdge connected s port) rest

def Connection.otherEnd (c : Connection) (node : NodeId) : PortRef :=
  if c.source.node == node then c.sink else c.source

namespace Graph

variable {r : Registry σ} {connected : Bool} {g g' : Graph σ} {m : NodeId}

/-- The state of the node is rewritten when the node types at these ends react in order. -/
def Rewrites (r : Registry σ) (connected : Bool) (g : Graph σ) (ends : List PortRef) (m : NodeId) :
    Prop :=
  ∃ n, g.node? m = some n ∧
    r.reacts connected n.state ((ends.filter (·.node == m)).map (·.port)) = true

theorem not_rewrites_nil : ¬ g.Rewrites r connected [] m := by
  intro hex
  obtain ⟨n, -, hreacts⟩ := hex
  cases hreacts

theorem Rewrites.congr {ends : List PortRef} (h : g.Rewrites r connected ends m)
    (hstate : Option.Rel (fun n n' : Node σ => n'.state = n.state) (g.node? m) (g'.node? m)) :
    g'.Rewrites r connected ends m := by
  obtain ⟨n, hn, hreacts⟩ := h
  obtain ⟨n', hn', hsame⟩ := exists_of_rel hstate hn
  exact ⟨n', hn', hsame.symm ▸ hreacts⟩

theorem rewrites_invalidateAll (ids : List NodeId) {ends : List PortRef} :
    (g.invalidateAll ids).1.Rewrites r connected ends m ↔ g.Rewrites r connected ends m := by
  have hstates := (each_invalidateAll Node.robust_state g ids).nodes m
  refine ⟨fun h => ?_, fun h => h.congr hstates⟩
  obtain ⟨n', hn', hreacts⟩ := h
  obtain ⟨n, hn, hsame⟩ := exists_of_rel' hstates hn'
  exact ⟨n, hn, hsame ▸ hreacts⟩

theorem rewrites_invalidate (id : NodeId) {ends : List PortRef} :
    (g.invalidate id).1.Rewrites r connected ends m ↔ g.Rewrites r connected ends m :=
  rewrites_invalidateAll [id]

theorem Rewrites.mem {ends : List PortRef} (h : g.Rewrites r connected ends m) :
    ∃ port ∈ ends, port.node = m := by
  obtain ⟨n, -, hreacts⟩ := h
  cases hends : ends.filter (·.node == m) with
  | nil =>
    rw [hends] at hreacts
    cases hreacts
  | cons port rest =>
    have hmem : port ∈ ends.filter (·.node == m) := hends ▸ List.mem_cons_self
    obtain ⟨hport, hnode⟩ := List.mem_filter.1 hmem
    exact ⟨port, hport, by simpa using hnode⟩

theorem node?_runHook (port : PortRef) (hm : port.node ≠ m) :
    (g.runHook r connected port).1.node? m = g.node? m := by
  unfold runHook
  split
  · rfl
  · split
    · rfl
    · rw [node?_modify, if_neg hm]

theorem rewrites_cons (port : PortRef) (ends : List PortRef) :
    g.Rewrites r connected (port :: ends) m ↔
      (g.runHook r connected port).2 = true ∧ m = port.node ∨
        (g.runHook r connected port).1.Rewrites r connected ends m := by
  by_cases hm : port.node = m
  · subst hm
    have hnone : ∀ {s : σ}, r.of? s = none → ∀ ports, r.reacts connected s ports = false := by
      intro s hs ports
      cases ports with
      | nil => rfl
      | cons => rw [Registry.reacts, hs]
    unfold runHook
    cases hn : g.node? port.node with
    | none => simp [Rewrites, hn]
    | some n =>
      cases hd : r.of? n.state with
      | none =>
        have hget : r.definitions.get? n.typeName = none := hd
        simp [Rewrites, hn, hget, hnone hd]
      | some d =>
        have hget : r.definitions.get? n.typeName = some d := hd
        simp [Rewrites, hn, hget, node?_modify_self, Registry.reacts, hd]
  · have hnode : (port.node == m) = false := by simpa using hm
    simp only [Rewrites, List.filter_cons, hnode, node?_runHook port hm, Bool.false_eq_true,
      if_false, Ne.symm hm, and_false, false_or]

theorem mem_runHooks (changed : List NodeId) (ends : List PortRef) :
    m ∈ (g.runHooks r connected changed ends).2 ↔ m ∈ changed ∨ g.Rewrites r connected ends m := by
  induction ends generalizing g changed with
  | nil => simp [runHooks, not_rewrites_nil]
  | cons port rest ih =>
    rw [runHooks, ih, rewrites_cons]
    cases hflag : (g.runHook r connected port).2 with
    | true => simp only [if_true, mem_addOnce, true_and, or_assoc]
    | false => simp only [Bool.false_eq_true, if_false, false_and, false_or]

/-- Ends that react after others find the states that those left. -/
theorem rewrites_append (changed : List NodeId) (ends more : List PortRef) :
    g.Rewrites r connected (ends ++ more) m ↔ g.Rewrites r connected ends m ∨
      (g.runHooks r connected changed ends).1.Rewrites r connected more m := by
  induction ends generalizing g changed with
  | nil => simp [runHooks, not_rewrites_nil]
  | cons port rest ih =>
    rw [List.cons_append, rewrites_cons, rewrites_cons, ih, runHooks, or_assoc]

/-! ## Invalidations -/

omit [NodeState σ] in
theorem Closed.reflTransGen (h : g.Closed) {u v : NodeId} (huv : ReflTransGen g.wiring.Feeds u v)
    (hu : g.isFresh u = false) : g.isFresh v = false := by
  rcases reflTransGen_iff_eq_or_transGen.1 huv with rfl | huv
  · exact hu
  · refine Bool.eq_false_iff.2 fun hv => ?_
    exact Bool.false_ne_true (hu.symm.trans (h.transGen huv hv))

theorem Told.isFresh_of_stale {a x : List NodeId} (h : Told a x g g') (hm : g.isFresh m = false) :
    g'.isFresh m = false :=
  Bool.eq_false_iff.2 fun hfresh =>
    Bool.false_ne_true (hm.symm.trans (h.isFresh_iff.1 hfresh).1)

theorem reach_of_invalidateAll (hw : g.wiring.Sound) {ids : List NodeId}
    (hm : m ∈ (g.invalidateAll ids).2) : ∃ u ∈ ids, ReflTransGen g.wiring.Feeds u m := by
  obtain ⟨visits, hv⟩ := visited_invalidateAll g hw ids
  exact hv.reach m ((told_invalidateAll g ids).visits_pos hv hm)

theorem reach_of_invalidate (hw : g.wiring.Sound) {id : NodeId} (hm : m ∈ (g.invalidate id).2) :
    ReflTransGen g.wiring.Feeds id m := by
  obtain ⟨visits, hv⟩ := visited_invalidate g hw id
  obtain ⟨u, hu, hpath⟩ := hv.reach m ((told_invalidate g id).visits_pos hv hm)
  exact List.mem_singleton.1 hu ▸ hpath

/-! ## A change of one connection -/

/-- What becomes stale depends on the sink's node, or on a node whose state is rewritten. -/
theorem reach_of_afterEdge (hr : r.Steady) (hw : g.wiring.Sound) {c : Connection}
    (hm : m ∈ (g.afterEdge r connected c).2.2) :
    ∃ u, (u = c.sink.node ∨ g.Rewrites r connected [c.source, c.sink] u) ∧
      ReflTransGen g.wiring.Feeds u m := by
  have hhooks := (follows_runHooks hr connected g [] [c.source, c.sink]).1.wiring
  rw [afterEdge] at hm
  obtain ⟨u, hu, hpath⟩ := reach_of_invalidateAll (by rw [hhooks]; exact hw) hm
  rw [hhooks] at hpath
  refine ⟨u, (List.mem_cons.1 hu).imp_right fun hu => ?_, hpath⟩
  exact ((mem_runHooks [] _).1 hu).resolve_left List.not_mem_nil

theorem isFresh_afterEdge (hr : r.Steady) (hw : g.wiring.Sound) {c : Connection}
    (hm : m = c.sink.node ∨ g.Rewrites r connected [c.source, c.sink] m) :
    (g.afterEdge r connected c).1.isFresh m = false := by
  have hhooks := (follows_runHooks hr connected g [] [c.source, c.sink]).1.wiring
  rw [afterEdge]
  refine isFresh_invalidateAll (by rw [hhooks]; exact hw) (List.mem_cons.2 (hm.imp_right ?_))
  exact fun hrewrites => (mem_runHooks [] _).2 (.inr hrewrites)

/-- Ends that react after those of the connection find the states that these left. -/
theorem rewrites_afterEdge (c : Connection) (more : List PortRef) :
    g.Rewrites r connected (c.source :: c.sink :: more) m ↔
      g.Rewrites r connected [c.source, c.sink] m ∨
        (g.afterEdge r connected c).1.Rewrites r connected more m := by
  rw [afterEdge, rewrites_invalidateAll]
  exact rewrites_append [] [c.source, c.sink] more

/-! ## What is to be shown -/

def Flips (g g' : Graph σ) (m : NodeId) : Prop :=
  g.isFresh m = true ∧ ∃ n', g'.node? m = some n' ∧ n'.stale = true

/-- Between the two graphs just those of the fresh nodes became stale to which connections of this
wiring lead from one of the roots, in zero or more steps. The list names each of them once. -/
structure Impact (w : Wiring) (roots : NodeId → Prop) (flips : List NodeId) (g g' : Graph σ) :
    Prop where
  exact : ∀ m, g.Flips g' m ↔ g.isFresh m = true ∧ ∃ u, roots u ∧ ReflTransGen w.Feeds u m
  kept : ∀ m n n', g.node? m = some n → g'.node? m = some n' → n.stale = true → n'.stale = true
  once : flips.Nodup
  named : ∀ m, m ∈ flips ↔ g.Flips g' m

/-- What is listed is what became stale. So it remains to be shown that what is listed depends on
a root, and that what depends on a root is stale in the end. The nodes that were taken away are no
concern. -/
theorem impact_of_told {g₀ : Graph σ} {w : Wiring} {roots : NodeId → Prop}
    {a flips : List NodeId} (htold : Told a flips g₀ g')
    (hfewer : ∀ m n, g₀.node? m = some n → g.node? m = some n)
    (hkept : ∀ m u, roots u → ReflTransGen w.Feeds u m → g₀.node? m = g.node? m)
    (hreach : ∀ m ∈ flips, ∃ u, roots u ∧ ReflTransGen w.Feeds u m)
    (hstale : ∀ m u, roots u → ReflTransGen w.Feeds u m → g'.isFresh m = false) :
    Impact w roots flips g g' := by
  have hbefore : ∀ m n', g'.node? m = some n' →
      ∃ n, g₀.node? m = some n ∧ g.node? m = some n := by
    intro m n' hn'
    obtain ⟨n, hn⟩ := htold.exists_before hn'
    exact ⟨n, hn, hfewer m n hn⟩
  have hnamed : ∀ m, m ∈ flips ↔ g.Flips g' m := by
    refine fun m => ⟨fun hm => ?_, fun hex => ?_⟩
    · obtain ⟨n, hn, hs⟩ := isFresh_iff.1 (htold.fresh m hm)
      obtain ⟨n', hn'⟩ := htold.exists_node hn
      exact ⟨isFresh_iff.2 ⟨n, hfewer m n hn, hs⟩, n', hn',
        (htold.stale_iff hn hn').2 (.inr hm)⟩
    · obtain ⟨hfresh, n', hn', hs'⟩ := hex
      obtain ⟨n, hn₀, hn⟩ := hbefore m n' hn'
      refine ((htold.stale_iff hn₀ hn').1 hs').resolve_left fun hs => ?_
      obtain ⟨n₁, hn₁, hs₁⟩ := isFresh_iff.1 hfresh
      rw [hn] at hn₁
      cases hn₁
      exact Bool.false_ne_true (hs₁.symm.trans hs)
  refine ⟨fun m => ⟨fun h => ⟨h.1, hreach m ((hnamed m).2 h)⟩, fun hex => ?_⟩, ?_, htold.nodup,
    hnamed⟩
  · obtain ⟨hfresh, u, hu, hpath⟩ := hex
    obtain ⟨n, hn, -⟩ := isFresh_iff.1 hfresh
    obtain ⟨n', hn'⟩ := htold.exists_node ((hkept m u hu hpath).trans hn)
    exact ⟨hfresh, n', hn', stale_of_isFresh_eq_false (hstale m u hu hpath) hn'⟩
  · intro m n n' hn hn' hs
    obtain ⟨n₁, hn₀, hn₁⟩ := hbefore m n' hn'
    rw [hn] at hn₁
    cases hn₁
    exact (htold.stale_iff hn₀ hn').2 (.inl hs)

/-! ## Removals -/

/-- The account of what follows the removal of a node: who read from it is stale and has told those
below, and who reacted by another state is listed. -/
structure Cleared (r : Registry σ) (g : Graph σ) (node : NodeId) (changed : List NodeId)
    (removed : List Connection) (x : Graph σ × List NodeId × List NodeId) : Prop where
  reach : ∀ m ∈ x.2.2, ∃ c ∈ removed, c.source.node = node ∧
    ReflTransGen g.wiring.Feeds c.sink.node m
  stale : ∀ c ∈ removed, c.source.node = node → x.1.isFresh c.sink.node = false
  changed : ∀ m, m ∈ x.2.1 ↔
    m ∈ changed ∨ g.Rewrites r false (removed.map (·.otherEnd node)) m

theorem afterRemoval_cons (node : NodeId) (changed : List NodeId) (c : Connection)
    (rest : List Connection) : g.afterRemoval r node changed (c :: rest) =
      let x := g.runHooks r false changed [c.otherEnd node]
      let y := if (c.source.node == node) = true then x.1.invalidate c.sink.node else (x.1, [])
      let z := y.1.afterRemoval r node x.2 rest
      (z.1, z.2.1, y.2 ++ z.2.2) := rfl

theorem cleared_afterRemoval (hr : r.Steady) (hw : g.wiring.Sound) (node : NodeId)
    (changed : List NodeId) (removed : List Connection) :
    Cleared r g node changed removed (g.afterRemoval r node changed removed) := by
  induction removed generalizing g changed with
  | nil => exact ⟨nofun, nofun, fun m => by simp [afterRemoval, not_rewrites_nil]⟩
  | cons c rest ih =>
    have hhooks := (follows_runHooks hr false g changed [c.otherEnd node]).1.wiring
    have hmem : ∀ m, m ∈ (g.runHooks r false changed [c.otherEnd node]).2 ↔
        m ∈ changed ∨ g.Rewrites r false [c.otherEnd node] m :=
      fun m => mem_runHooks changed [c.otherEnd node]
    have happend : ∀ m, g.Rewrites r false ((c :: rest).map (·.otherEnd node)) m ↔
        g.Rewrites r false [c.otherEnd node] m ∨
          (g.runHooks r false changed [c.otherEnd node]).1.Rewrites r false
            (rest.map (·.otherEnd node)) m :=
      fun m => rewrites_append changed [c.otherEnd node] (rest.map (·.otherEnd node))
    have hw₁ := hhooks.symm ▸ hw
    rw [afterRemoval_cons]
    generalize g.runHooks r false changed [c.otherEnd node] = x at hhooks hmem happend hw₁ ⊢
    by_cases hnode : c.source.node = node
    · have hinv := (each_invalidate Node.robust_any x.1 c.sink.node).wiring
      have hw₂ : (x.1.invalidate c.sink.node).1.wiring.Sound := hinv.symm ▸ hw₁
      have hrest := ih hw₂ x.2
      simp only [hnode, beq_self_eq_true, if_true]
      refine ⟨fun m hm => ?_, fun c' hc' hnode' => ?_, fun m => ?_⟩
      · rcases List.mem_append.1 hm with hm | hm
        · exact ⟨c, List.mem_cons_self, hnode, hhooks ▸ reach_of_invalidate hw₁ hm⟩
        · obtain ⟨c', hc', hnode', hpath⟩ := hrest.reach m hm
          exact ⟨c', List.mem_cons_of_mem _ hc', hnode', (hinv.trans hhooks) ▸ hpath⟩
      · rcases List.mem_cons.1 hc' with rfl | hc'
        · exact (told_afterRemoval hr node _ hw₂ x.2 rest).isFresh_of_stale
            (isFresh_invalidate x.1 hw₁ c'.sink.node)
        · exact hrest.stale c' hc' hnode'
      · have hchanged := hrest.changed m
        rw [rewrites_invalidate, hmem, or_assoc, ← happend] at hchanged
        exact hchanged
    · have hrest := ih hw₁ x.2
      have hbeq : (c.source.node == node) = false := by simpa using hnode
      simp only [hbeq, Bool.false_eq_true, if_false, List.nil_append]
      refine ⟨fun m hm => ?_, fun c' hc' hnode' => ?_, fun m => ?_⟩
      · obtain ⟨c', hc', hnode', hpath⟩ := hrest.reach m hm
        exact ⟨c', List.mem_cons_of_mem _ hc', hnode', hhooks ▸ hpath⟩
      · rcases List.mem_cons.1 hc' with rfl | hc'
        · exact absurd hnode' hnode
        · exact hrest.stale c' hc' hnode'
      · have hchanged := hrest.changed m
        rw [hmem, or_assoc, ← happend] at hchanged
        exact hchanged

omit [NodeState σ] in
theorem node_otherEnd_ne {w : Wiring} (hw : w.Sound) {id : NodeId} {c : Connection}
    (hc : c ∈ (w.removeNode id).2) : (c.otherEnd id).node ≠ id := by
  obtain ⟨hconnected, hends⟩ := (Wiring.mem_removed hw).1 hc
  unfold Connection.otherEnd
  split
  · rename_i hsource
    exact fun hsink => hw.not_feeds_self id ⟨c, hconnected, eq_of_beq hsource, hsink⟩
  · rename_i hsource
    exact fun he => hsource (beq_iff_eq.2 he)

theorem Rewrites.ne_removed {w : Wiring} (hw : w.Sound) {id : NodeId}
    (h : g.Rewrites r connected ((w.removeNode id).2.map (·.otherEnd id)) m) : m ≠ id := by
  obtain ⟨port, hport, rfl⟩ := h.mem
  obtain ⟨c, hc, rfl⟩ := List.mem_map.1 hport
  exact node_otherEnd_ne hw hc

theorem rewrites_erase {w : Wiring} (hw : w.Sound) (id : NodeId) :
    Rewrites r connected ⟨g.nodes.erase id, (w.removeNode id).1⟩
        ((w.removeNode id).2.map (·.otherEnd id)) m ↔
      g.Rewrites r connected ((w.removeNode id).2.map (·.otherEnd id)) m := by
  by_cases hm : id = m
  · exact ⟨fun h => absurd hm.symm (h.ne_removed hw), fun h => absurd hm.symm (h.ne_removed hw)⟩
  · rw [Rewrites, node?_erase, if_neg hm, Rewrites]

omit [NodeState σ] in
/-- No path over the connections that are left leads to the removed node, unless it starts there. -/
theorem ne_of_reach_removeNode {w : Wiring} (hw : w.Sound) {id u : NodeId} (hu : u ≠ id)
    (hpath : ReflTransGen (w.removeNode id).1.Feeds u m) : m ≠ id := by
  rcases ReflTransGen.cases_tail hpath with rfl | ⟨v, -, c, hc, -, rfl⟩
  · exact hu
  · exact (((hw.removeNode id).2 c).1 hc).2.2

theorem impact_afterRemoval (hr : r.Steady) (hw : g.wiring.Sound) {id : NodeId}
    {x : Graph σ × List NodeId × List NodeId}
    (hx : afterRemoval r id ⟨g.nodes.erase id, (g.wiring.removeNode id).1⟩ []
      (g.wiring.removeNode id).2 = x) (hclosed : (x.1.invalidateAll x.2.1).1.Closed) :
    Impact (x.1.invalidateAll x.2.1).1.wiring (fun m => g.wiring.Feeds id m ∨
        g.Rewrites r false ((g.wiring.removeNode id).2.map (·.otherEnd id)) m)
      (x.2.2 ++ (x.1.invalidateAll x.2.1).2) g (x.1.invalidateAll x.2.1).1 := by
  have hsound := (hw.removeNode id).1
  have hcleared : Cleared r ⟨g.nodes.erase id, (g.wiring.removeNode id).1⟩ id [] _ x :=
    hx ▸ cleared_afterRemoval hr hsound id [] _
  have hfollows : x.1.wiring = (g.wiring.removeNode id).1 :=
    hx ▸ (follows_afterRemoval hr id _ hsound [] _).1.wiring
  have htold := hx ▸ told_afterRemoval hr id _ hsound [] (g.wiring.removeNode id).2
  have hw₁ : x.1.wiring.Sound := hfollows.symm ▸ hsound
  have hwiring := (follows_invalidateAll r x.1 hw₁ x.2.1).wiring.trans hfollows
  have hrewrites : ∀ m, m ∈ x.2.1 ↔
      g.Rewrites r false ((g.wiring.removeNode id).2.map (·.otherEnd id)) m := fun m => by
    rw [hcleared.changed, or_iff_right List.not_mem_nil, rewrites_erase hw]
  -- A root is another node, and so is what depends on it.
  have hsurvives : ∀ m u, (g.wiring.Feeds id u ∨
      g.Rewrites r false ((g.wiring.removeNode id).2.map (·.otherEnd id)) u) →
      ReflTransGen (x.1.invalidateAll x.2.1).1.wiring.Feeds u m → m ≠ id := by
    intro m u hu hpath
    rw [hwiring] at hpath
    refine ne_of_reach_removeNode hw ?_ hpath
    rcases hu with hu | hu
    · rintro rfl
      exact hw.not_feeds_self _ hu
    · exact hu.ne_removed hw
  refine impact_of_told (htold.trans (told_invalidateAll x.1 x.2.1)) (fun m n hn => ?_)
    (fun m u hu hpath => ?_) (fun m hm => ?_) fun m u hu hpath => hclosed.reflTransGen hpath ?_
  · rw [node?_erase] at hn
    split at hn
    · cases hn
    · exact hn
  · rw [node?_erase, if_neg (Ne.symm (hsurvives m u hu hpath))]
  · rw [hwiring]
    rcases List.mem_append.1 hm with hm | hm
    · obtain ⟨c, hc, hsource, hpath⟩ := hcleared.reach m hm
      exact ⟨_, .inl ⟨c, ((Wiring.mem_removed hw).1 hc).1, hsource, rfl⟩, hpath⟩
    · obtain ⟨u, hu, hpath⟩ := reach_of_invalidateAll hw₁ hm
      exact ⟨u, .inr ((hrewrites u).1 hu), hfollows ▸ hpath⟩
  · rcases hu with ⟨c, hc, hsource, rfl⟩ | hu
    · refine (told_invalidateAll x.1 x.2.1).isFresh_of_stale (hcleared.stale c ?_ hsource)
      exact (Wiring.mem_removed hw).2 ⟨hc, .inl hsource⟩
    · exact isFresh_invalidateAll hw₁ ((hrewrites u).2 hu)

/-! ## Lost connections -/

def bothEnds (cs : List Connection) : List PortRef := cs.flatMap fun c => [c.source, c.sink]

/-- The loss of these connections concerns the node: it loses a source, or its state is
rewritten. -/
def Concerned (r : Registry σ) (g : Graph σ) (cs : List Connection) (u : NodeId) : Prop :=
  (∃ c ∈ cs, c.sink.node = u) ∨ g.Rewrites r false (bothEnds cs) u

/-- The account of connections that are taken away one after another: all that is listed depends on
a node that the loss concerns, and those nodes are stale. -/
structure Dropped (r : Registry σ) (g : Graph σ) (cs : List Connection) (flips : List NodeId)
    (g' : Graph σ) : Prop where
  reach : ∀ m ∈ flips, ∃ u, g.Concerned r cs u ∧ ReflTransGen g.wiring.Feeds u m
  stale : ∀ u, g.Concerned r cs u → g'.isFresh u = false

theorem dropped_dropEdges (hr : r.Steady) (hw : g.wiring.Sound) {node : NodeId}
    {changed changed' flips : List NodeId} {cs : List Connection}
    (h : g.dropEdges r node changed cs = .ok (g', changed', flips)) :
    Dropped r g cs flips g' := by
  induction cs generalizing g changed flips with
  | nil =>
    cases h
    exact ⟨nofun, fun u hu => hu.elim nofun (absurd · not_rewrites_nil)⟩
  | cons c rest ih =>
    rw [dropEdges] at h
    split at h
    · cases h
    · rename_i w hremove
      have hwithin : ∀ {u m : NodeId}, ReflTransGen w.Feeds u m →
          ReflTransGen g.wiring.Feeds u m := fun hpath =>
        ReflTransGen.mono (fun _ _ => (Wiring.within_remove hremove).feeds) _ _ hpath
      have hw₁ : w.Sound := hw.remove hremove
      have hwiring : (afterEdge r false { g with wiring := w } c).1.wiring = w :=
        (follows_afterEdge hr false { g with wiring := w } hw₁ c).wiring
      have hrewrites : ∀ u, g.Rewrites r false (bothEnds (c :: rest)) u ↔
          g.Rewrites r false [c.source, c.sink] u ∨
            (afterEdge r false { g with wiring := w } c).1.Rewrites r false (bothEnds rest) u :=
        fun u => rewrites_afterEdge (g := { g with wiring := w }) c (bothEnds rest)
      simp only at h
      split at h
      · cases h
      · rename_i g₂ changed₂ others hrest
        cases h
        obtain ⟨htold, -⟩ := told_dropEdges hr hrest
        have hcut := ih (hwiring.symm ▸ hw₁) hrest
        refine ⟨fun m hm => ?_, fun u hu => ?_⟩
        · rcases List.mem_append.1 hm with hm | hm
          · obtain ⟨u, hu, hpath⟩ := reach_of_afterEdge hr hw₁ hm
            refine ⟨u, ?_, hwithin hpath⟩
            rcases hu with rfl | hu
            · exact .inl ⟨c, List.mem_cons_self, rfl⟩
            · exact .inr ((hrewrites u).2 (.inl hu))
          · obtain ⟨u, hu, hpath⟩ := hcut.reach m hm
            refine ⟨u, ?_, hwithin (hwiring ▸ hpath)⟩
            rcases hu with ⟨c', hc', rfl⟩ | hu
            · exact .inl ⟨c', List.mem_cons_of_mem _ hc', rfl⟩
            · exact .inr ((hrewrites u).2 (.inr hu))
        · -- What the first loss concerns is stale by then; the rest follows with the rest.
          have hfirst : ∀ {k}, k = c.sink.node ∨ g.Rewrites r false [c.source, c.sink] k →
              g'.isFresh k = false :=
            fun hk => htold.isFresh_of_stale (isFresh_afterEdge hr hw₁ hk)
          rcases hu with ⟨c', hc', rfl⟩ | hu
          · rcases List.mem_cons.1 hc' with rfl | hc'
            · exact hfirst (.inl rfl)
            · exact hcut.stale _ (.inl ⟨c', hc', rfl⟩)
          · rcases (hrewrites u).1 hu with hu | hu
            · exact hfirst (.inr hu)
            · exact hcut.stale u (.inr hu)

/-- Along a path, each connection either is still there or was taken away and told. -/
theorem Dropped.stale_along {cs : List Connection} {flips : List NodeId}
    (h : Dropped r g cs flips g') (hclosed : g'.Closed)
    (hcut : ∀ c, g'.wiring.producerOf c.sink = some c.source ↔
      g.wiring.producerOf c.sink = some c.source ∧ c ∉ cs) {u : NodeId}
    (hpath : ReflTransGen g.wiring.Feeds u m) (hu : g'.isFresh u = false) :
    g'.isFresh m = false := by
  induction hpath with
  | refl => exact hu
  | tail _ hfeeds ih =>
    obtain ⟨c, hc, rfl, rfl⟩ := hfeeds
    by_cases hmem : c ∈ cs
    · exact h.stale _ (.inl ⟨c, hmem, rfl⟩)
    · exact hclosed.reflTransGen (.single ⟨c, (hcut c).2 ⟨hc, hmem⟩, rfl, rfl⟩) ih

omit [NodeState σ] in
/-- A connection that a node loses by a new state leads from it, or to it. -/
theorem reach_of_lostEdges (hw : g.wiring.Sound) {d : Definition σ} {id : NodeId} {old new : σ}
    {c : Connection} (hc : c ∈ g.lostEdges d id old new) :
    ReflTransGen g.wiring.Feeds id c.sink.node := by
  rw [lostEdges, List.mem_filter, List.mem_append, Wiring.mem_incoming, Wiring.mem_outgoing,
    hw.mirrored] at hc
  rcases hc.1 with ⟨-, hsink⟩ | ⟨hconnected, hsource⟩
  · exact hsink ▸ .refl
  · exact .single ⟨c, hconnected, hsource, rfl⟩

end Graph

def Event.isInvalidation : Event → Bool
  | .nodesInvalidated _ => true
  | _ => false

/-- What an edit announces, and the announcement of the nodes that became stale in it. -/
theorem Event.filter_isInvalidation (opening : List Event) (changed flips : List NodeId)
    (hopening : opening.filter isInvalidation = []) :
    (opening ++ stateChanges changed ++ invalidated flips).filter isInvalidation =
      invalidated flips := by
  have hstates : (stateChanges changed).filter isInvalidation = [] := by
    simp [stateChanges, isInvalidation]
  rw [List.filter_append, List.filter_append, hopening, hstates, List.nil_append, List.nil_append]
  cases flips <;> rfl

namespace Engine

open Patchbay.Graph

variable {e e' : Engine σ}

/-- An edit made stale just those of the fresh nodes that depend on a root in this wiring, and it
announced them in one event with each of them once, or in none if there are none. -/
structure Impacts (e : Engine σ) (w : Wiring) (roots : NodeId → Prop) (flips : List NodeId)
    (e' : Engine σ) : Prop where
  graph : e.graph.Impact w roots flips e'.graph
  log : ∃ events, e'.log = e.log ++ events ∧
    events.filter Event.isInvalidation = Event.invalidated flips

theorem log_rewire (e : Engine σ) (connected : Bool) (w : Wiring) (c : Connection) :
    let x := Graph.afterEdge e.registry connected ⟨e.graph.nodes, w⟩ c
    (e.rewire connected w c).log = e.log ++ ([if connected then .connected c else .disconnected c]
      ++ Event.stateChanges x.2.1 ++ Event.invalidated x.2.2) := rfl

theorem impacts_rewire (hr : e.registry.Steady) (connected : Bool) {w : Wiring} {c : Connection}
    (hw : w.Sound) (hclosed : (e.rewire connected w c).graph.Closed) :
    ∃ flips, e.Impacts (e.rewire connected w c).graph.wiring (fun m => m = c.sink.node ∨
      e.graph.Rewrites e.registry connected [c.source, c.sink] m) flips
        (e.rewire connected w c) := by
  have hedge : (e.rewire connected w c).graph.wiring = w :=
    (follows_afterEdge hr connected ⟨e.graph.nodes, w⟩ hw c).wiring
  refine ⟨_, impact_of_told (told_afterEdge hr connected ⟨e.graph.nodes, w⟩ c)
    (fun _ _ hn => hn) (fun _ _ _ _ => rfl) (fun m hm => ?_) (fun m u hu hpath => ?_), _,
    e.log_rewire connected w c, Event.filter_isInvalidation _ _ _ ?_⟩
  · obtain ⟨u, hu, hpath⟩ := reach_of_afterEdge hr hw hm
    exact ⟨u, hu, hedge.symm ▸ hpath⟩
  · exact hclosed.reflTransGen hpath (isFresh_afterEdge hr hw hu)
  · cases connected <;> rfl

theorem impacts_connect (hr : e.registry.Steady) (hw : e.graph.wiring.Sound)
    {source sink : PortRef} {c : Connection} (h : e.connect source sink = .ok (e', c))
    (hclosed : e'.graph.Closed) :
    ∃ flips, e.Impacts e'.graph.wiring (fun m => m = sink.node ∨
      e.graph.Rewrites e.registry true [source, sink] m) flips e' := by
  obtain ⟨rfl, -, w, hinsert, he⟩ := connect_eq_ok h
  -- A run that is scheduled changes neither the graph nor the log.
  have hgraph : e'.graph = (e.rewire true w ⟨source, sink⟩).graph := by
    rw [he]
    split <;> rfl
  have hlog : e'.log = (e.rewire true w ⟨source, sink⟩).log := by
    rw [he]
    split <;> rfl
  rw [hgraph] at hclosed ⊢
  obtain ⟨flips, himpact⟩ := impacts_rewire hr true (hw.insert hinsert) hclosed
  exact ⟨flips, hgraph.symm ▸ himpact.graph, hlog.symm ▸ himpact.log⟩

theorem impacts_disconnect (hr : e.registry.Steady) (hw : e.graph.wiring.Sound)
    {source sink : PortRef} {c : Connection} (h : e.disconnect source sink = .ok (e', c))
    (hclosed : e'.graph.Closed) :
    ∃ flips, e.Impacts e'.graph.wiring (fun m => m = sink.node ∨
      e.graph.Rewrites e.registry false [source, sink] m) flips e' := by
  obtain ⟨rfl, w, hremove, rfl⟩ := disconnect_eq_ok h
  exact impacts_rewire hr false (hw.remove hremove) hclosed

theorem impacts_remove (hr : e.registry.Steady) (hw : e.graph.wiring.Sound) {id : NodeId}
    {cs : List Connection} (h : e.remove id = .ok (e', cs)) (hclosed : e'.graph.Closed) :
    ∃ flips, e.Impacts e'.graph.wiring (fun m => e.graph.wiring.Feeds id m ∨
      e.graph.Rewrites e.registry false (cs.map (·.otherEnd id)) m) flips e' := by
  obtain ⟨rfl, he⟩ := remove_accounts h
  generalize hx : afterRemoval e.registry id
    ⟨e.graph.nodes.erase id, (e.graph.wiring.removeNode id).1⟩ []
    (e.graph.wiring.removeNode id).2 = x at he
  have hgraph : e'.graph = (x.1.invalidateAll x.2.1).1 := congrArg Engine.graph he
  have hlog : e'.log = e.log ++ ([.nodeRemoved id (e.graph.wiring.removeNode id).2]
      ++ Event.stateChanges x.2.1 ++ Event.invalidated (x.2.2 ++ (x.1.invalidateAll x.2.1).2)) :=
    congrArg Engine.log he
  refine ⟨_, ?_, _, hlog, Event.filter_isInvalidation _ _ _ rfl⟩
  rw [hgraph] at hclosed ⊢
  exact impact_afterRemoval hr hw hx hclosed

theorem impacts_markStale (hw : e.graph.wiring.Sound) {id : NodeId} {ids : List NodeId}
    (h : e.markStale id = .ok (e', ids)) (hclosed : e'.graph.Closed) :
    e.Impacts e.graph.wiring (· = id) ids e' := by
  obtain ⟨rfl, rfl⟩ := markStale_accounts h
  have hwiring := (follows_invalidate e.registry e.graph hw id).wiring
  refine ⟨impact_of_told (told_invalidate e.graph id) (fun _ _ hn => hn) (fun _ _ _ _ => rfl)
    (fun m hm => ⟨id, rfl, reach_of_invalidate hw hm⟩) ?_, _, rfl,
    Event.filter_isInvalidation [] [] _ rfl⟩
  rintro m u rfl hpath
  exact hclosed.reflTransGen (hwiring.symm ▸ hpath) (isFresh_invalidate e.graph hw u)

theorem impacts_replaceState (hr : e.registry.Steady) (hw : e.graph.wiring.Sound)
    {id : NodeId} {n : Node σ} {d : Definition σ} {state : σ} {ids : List NodeId}
    (hn : e.graph.node? id = some n) (ht : NodeState.typeName state = n.typeName)
    (h : e.replaceState id n d state = .ok (e', ids)) (hclosed : e'.graph.Closed) :
    e.Impacts e.graph.wiring (fun m => m = id ∨ (e.graph.setState id state).Rewrites e.registry
      false (bothEnds (e.graph.lostEdges d id n.state state)) m) ids e' := by
  obtain ⟨g, changed, others, hdrop, rfl, he⟩ := replaceState_accounts h
  obtain rfl : e'.graph = g := congrArg Engine.graph he
  have hset : Told [id] [] e.graph (e.graph.setState id state) := by
    refine .modify (fun n' hn' => ?_) fun _ _ => .inr List.mem_cons_self
    rw [hn] at hn'
    cases hn'
    exact congrArg (Face.mk · n.stale) ht
  have htold := told_invalidate (e.graph.setState id state) id
  have hsame : ((e.graph.setState id state).invalidate id).1.wiring = e.graph.wiring :=
    (follows_invalidate e.registry (e.graph.setState id state) hw id).wiring
  have hself := isFresh_invalidate (e.graph.setState id state) hw id
  have hreach : ∀ m ∈ ((e.graph.setState id state).invalidate id).2,
      ReflTransGen e.graph.wiring.Feeds id m :=
    fun m => reach_of_invalidate (g := e.graph.setState id state) hw
  have hlost : ((e.graph.setState id state).invalidate id).1.lostEdges d id n.state state =
      e.graph.lostEdges d id n.state state := by
    rw [lostEdges, hsame, lostEdges]
  rw [hlost] at hdrop he
  have hrewrites : ∀ m, ((e.graph.setState id state).invalidate id).1.Rewrites e.registry false
      (bothEnds (e.graph.lostEdges d id n.state state)) m ↔
      (e.graph.setState id state).Rewrites e.registry false
        (bothEnds (e.graph.lostEdges d id n.state state)) m := fun m => rewrites_invalidate id
  generalize (e.graph.setState id state).invalidate id = x
    at hdrop he htold hsame hself hreach hrewrites ⊢
  have hw₁ : x.1.wiring.Sound := hsame.symm ▸ hw
  have hdropped := dropped_dropEdges hr hw₁ hdrop
  obtain ⟨htold', -⟩ := told_dropEdges hr hdrop
  obtain ⟨-, -, -, hcut⟩ := dropEdges_eq_ok hr hw₁ hdrop
  refine ⟨impact_of_told ((hset.trans htold).trans htold') (fun _ _ hn => hn)
    (fun _ _ _ _ => rfl) (fun m hm => ?_) (fun m u hu hpath => ?_), _,
    congrArg Engine.log he, Event.filter_isInvalidation _ _ _ ?_⟩
  · rcases List.mem_append.1 hm with hm | hm
    · exact ⟨id, .inl rfl, hreach m hm⟩
    · obtain ⟨u, hu, hpath⟩ := hdropped.reach m hm
      rw [hsame] at hpath
      rcases hu with ⟨c, hc, rfl⟩ | hu
      · exact ⟨id, .inl rfl, (reach_of_lostEdges hw hc).trans hpath⟩
      · exact ⟨u, .inr ((hrewrites u).1 hu), hpath⟩
  · refine hdropped.stale_along hclosed hcut (hsame.symm ▸ hpath) ?_
    rcases hu with rfl | hu
    · exact htold'.isFresh_of_stale hself
    · exact hdropped.stale u (.inr ((hrewrites u).2 hu))
  · simp [Event.isInvalidation]

end Engine

namespace World

open Patchbay.Engine

variable {r : Registry σ} {w : World σ}

/-- Staleness is closed downstream after an operation that succeeds. -/
theorem closed_of_edit (hr : r.Steady) (h : Sound r w.engine w.frames) {m : Move σ}
    {result : Except Error (Engine σ)} {e' : Engine σ} (hm : w.next m = w.edit result)
    (hresult : result = .ok e') : e'.graph.Closed := by
  have hclosed := (sound_next hr h m).closed
  rw [hm, hresult] at hclosed
  exact hclosed

/-- Every edit makes stale exactly what it affects. Whatever happened before, the nodes that become
stale are the fresh nodes that depend on the sink's node after a connection came or went, on a node
that read from a removed one, or on a node that was edited or marked, and besides these what
depends on a node whose state was rewritten by a reaction. After a connection came or went, or a
node was removed, the connections are those that are left, otherwise those that were there. No node
becomes fresh, and each one that becomes stale is reported once. -/
theorem impact_exact (hr : r.Steady) (p : Policy) (moves : List (Move σ)) :
    let e := (after r p moves).engine
    (∀ source sink e' c, e.connect source sink = .ok (e', c) → ∃ flips,
      e.Impacts e'.graph.wiring
        (fun m => m = sink.node ∨ e.graph.Rewrites r true [source, sink] m) flips e') ∧
    (∀ source sink e' c, e.disconnect source sink = .ok (e', c) → ∃ flips,
      e.Impacts e'.graph.wiring
        (fun m => m = sink.node ∨ e.graph.Rewrites r false [source, sink] m) flips e') ∧
    (∀ id e' cs, e.remove id = .ok (e', cs) → ∃ flips,
      e.Impacts e'.graph.wiring (fun m => e.graph.wiring.Feeds id m ∨
        e.graph.Rewrites r false (cs.map (·.otherEnd id)) m) flips e') ∧
    (∀ id e' ids, e.markStale id = .ok (e', ids) → e.Impacts e.graph.wiring (· = id) ids e') ∧
    ∀ id edit e' ids, e.update id edit = .ok (e', ids) → ∃ n d,
      e.graph.node? id = some n ∧ r.of? n.state = some d ∧
        ((edit n.state == n.state) = false → e.Impacts e.graph.wiring
          (fun m => m = id ∨ (e.graph.setState id (edit n.state)).Rewrites r false
            (Graph.bothEnds (e.graph.lostEdges d id n.state (edit n.state))) m) ids e') := by
  intro e
  have h := sound_after hr p moves
  have hregistry : e.registry = r := h.registry
  have hr' : e.registry.Steady := hregistry ▸ hr
  have hw : e.graph.wiring.Sound := h.whole.wiring
  rw [← hregistry]
  refine ⟨fun source sink e' c he => ?_, fun source sink e' c he => ?_, fun id e' cs he => ?_,
    fun id e' ids he => ?_, fun id edit e' ids he => ?_⟩
  · refine impacts_connect hr' hw he (closed_of_edit hr h (m := .connect source sink) rfl ?_)
    exact congrArg (Except.map Prod.fst) he
  · refine impacts_disconnect hr' hw he
      (closed_of_edit hr h (m := .disconnect source sink) rfl ?_)
    exact congrArg (Except.map Prod.fst) he
  · refine impacts_remove hr' hw he (closed_of_edit hr h (m := .remove id) rfl ?_)
    exact congrArg (Except.map Prod.fst) he
  · refine impacts_markStale hw he (closed_of_edit hr h (m := .markStale id) rfl ?_)
    exact congrArg (Except.map Prod.fst) he
  · obtain ⟨n, d, hn, hd, hcases⟩ := update_eq_ok he
    refine ⟨n, d, hn, hd, fun hchanged => ?_⟩
    rcases hcases with ⟨hequal, -⟩ | ⟨htype, hreplace⟩
    · exact absurd (hchanged.symm.trans hequal) Bool.false_ne_true
    · refine impacts_replaceState hr' hw hn htype hreplace
        (closed_of_edit hr h (m := .update id edit) rfl ?_)
      exact congrArg (Except.map Prod.fst) he

end World

namespace Bench

/-- Two labels have been executed, and both remember the connections at both of their ports. -/
def labelling : List (Move BenchNode) :=
  [.create "u" "label", .create "v" "label", .start "u"] ++ List.replicate 10 (.step 0) ++
    [.start "v"] ++ List.replicate 10 (.step 1)

/-- They are connected to each other. One of them gains an input, and the state of the other one is
rewritten, so both are stale. -/
theorem impact_exact_labelling :
    let e := (World.after (registry { hookedLabel := true }) {} labelling).engine
    ∃ e' c flips, e.connect ⟨"u", "output"⟩ ⟨"v", "text"⟩ = .ok (e', c) ∧
      e.Impacts e'.graph.wiring (fun m => m = "v" ∨ e.graph.Rewrites (registry
        { hookedLabel := true }) true [⟨"u", "output"⟩, ⟨"v", "text"⟩] m) flips e' ∧
      "u" ∈ flips ∧ "v" ∈ flips := by
  intro e
  obtain ⟨⟨e', c⟩, he⟩ : ∃ x, e.connect ⟨"u", "output"⟩ ⟨"v", "text"⟩ = .ok x := by
    cases hx : e.connect ⟨"u", "output"⟩ ⟨"v", "text"⟩ with
    | ok x => exact ⟨x, rfl⟩
    | error err =>
      have hok : (e.connect ⟨"u", "output"⟩ ⟨"v", "text"⟩).isOk = true := by decide +kernel
      rw [hx] at hok
      cases hok
  obtain ⟨flips, himpacts⟩ := (World.impact_exact (steady_registry { hookedLabel := true }) {}
    labelling).1 _ _ e' c he
  obtain ⟨n, hn, hreacts⟩ : ∃ n, e.graph.node? "u" = some n ∧
      (registry { hookedLabel := true }).reacts true n.state ["output"] = true :=
    Option.map_eq_some_iff.1 (by decide +kernel)
  refine ⟨e', c, flips, he, himpacts, ?_, ?_⟩
  · exact (himpacts.graph.named _).2 ((himpacts.graph.exact _).2
      ⟨by decide +kernel, "u", .inr ⟨n, hn, hreacts⟩, .refl⟩)
  · exact (himpacts.graph.named _).2 ((himpacts.graph.exact _).2
      ⟨by decide +kernel, "v", .inl rfl, .refl⟩)

end Bench

end Patchbay
