import Patchbay.Proofs.Recursion

/-!
# How a run comes forward

While nobody edits the graph, every node has one value that the recursion gives for it, and the
steps of the runs only ever bring the graph nearer to these values. A node is settled if it is
fresh, or if the recursion says that it does not complete. Settled nodes stay settled, whatever
other runs do; that is why a run may look at its producers one after another.

What is proved here:
  1. `Advance.of_confined`: a step that touches a node and what is stale below it takes nothing
     from any other run.
  2. `advance_complete`, `advance_failed`, `advance_block`: so do the ends of a run.
-/

namespace Patchbay

open Relation

variable {σ : Type}

/-! ## Settled nodes -/

namespace Graph

def ClaimedBy (g : Graph σ) (id : NodeId) (run : Nat) : Prop :=
  ∃ n, g.node? id = some n ∧ n.claimed = true ∧ n.run = run

def IsClaimed (g : Graph σ) (id : NodeId) : Prop := ∃ run, g.ClaimedBy id run

def Settled (g : Graph σ) (v : NodeId → Ending) (id : NodeId) : Prop :=
  g.isFresh id = true ∨ ¬ (v id).IsCompleted

def Fed (g : Graph σ) (id : NodeId) : Prop := ∀ u, g.wiring.Feeds u id → g.isFresh u = true

variable [NodeState σ]

/-- The type of each node is registered, and so a run that has a node does not lose it. -/
theorem Whole.not_lost {r : Registry σ} {g : Graph σ} {id : NodeId} {run : Nat} (h : g.Whole r)
    (hclaim : g.ClaimedBy id run)
    (hlost : ∀ n, g.node? id = some n → n.run = run → n.claimed = true → r.of? n.state = none) :
    False := by
  obtain ⟨n, hn, hclaimed, hrun⟩ := hclaim
  obtain ⟨d, hd⟩ := h.types id n hn
  rw [hlost n hn hrun hclaimed] at hd
  cases hd

theorem evaluate_congr {r : Registry σ} {g g' : Graph σ} (hw : g'.wiring = g.wiring)
    (hs : g'.state? = g.state?) (h : WellFounded g.wiring.Feeds)
    (h' : WellFounded g'.wiring.Feeds) : g'.evaluate r h' = g.evaluate r h := by
  have heq : ∀ (w w' : Wiring) (h : WellFounded w.Feeds) (h' : WellFounded w'.Feeds), w' = w →
      Patchbay.evaluate r g.state? w' h' = Patchbay.evaluate r g.state? w h := by
    intro w _ h h' heq
    subst heq
    rfl
  funext id
  rw [Graph.evaluate, Graph.evaluate, hs, heq _ _ h h' hw]

end Graph

theorem Ending.value?_eq_none {ending : Ending} (h : ¬ ending.IsCompleted) (port : PortId) :
    ending.value? port = none := by
  unfold Ending.value?
  split
  · rename_i outputs
    exact absurd ⟨outputs, rfl⟩ h
  · rfl

/-- A node that is settled gives what the recursion gives there, or nothing in either case. -/
theorem Graph.Settled.beq_freshValue? [NodeState σ] {r : Registry σ} {g : Graph σ}
    {h : WellFounded g.wiring.Feeds} {source : PortRef} (hcorrect : g.CorrectAt r h source.node)
    (hsettled : g.Settled (g.evaluate r h) source.node) :
    ((g.evaluate r h source.node).value? source.port == g.freshValue? source) = true := by
  rcases hsettled with hfresh | hnot
  · exact hcorrect.beq_freshValue? hfresh
  · have hnone : g.freshValue? source = none := by
      cases hv : g.freshValue? source with
      | none => rfl
      | some x =>
        obtain ⟨n, hn, hs⟩ := isFresh_iff.1 (isFresh_of_freshValue? hv)
        obtain ⟨outputs, heval, -⟩ := hcorrect n hn hs
        exact absurd ⟨outputs, heval⟩ hnot
    rw [Ending.value?_eq_none hnot, hnone]
    rfl

/-! ## What a step does to the others -/

namespace Graph

/-- The recursion cannot tell one graph from the other. -/
structure Congruent (g g' : Graph σ) : Prop where
  wiring : g'.wiring = g.wiring
  states : g'.state? = g.state?

/-- What steps of one run do to the graph, seen from the others: they keep their claims, their
computations stay valid, and what is settled stays settled. -/
structure Advance (v : NodeId → Ending) (run : Option Nat) (g g' : Graph σ) : Prop
    extends Congruent g g' where
  claimer : ∀ m n, g.node? m = some n → n.claimed = true → run ≠ some n.run →
    ∃ n', g'.node? m = some n' ∧ n'.claimed = true ∧ n'.run = n.run ∧
      (g.Fed m → n'.epoch = n.epoch)
  unclaimed : ∀ m k, run ≠ some k → g'.ClaimedBy m k → g.ClaimedBy m k
  settled : ∀ m, g.Settled v m → g'.Settled v m
  released : ∀ m, g.IsClaimed m → g'.IsClaimed m ∨ g'.Settled v m

variable {v : NodeId → Ending} {run : Option Nat} {g g' g₁ g₂ : Graph σ}

theorem Advance.refl (v : NodeId → Ending) (run : Option Nat) (g : Graph σ) :
    Advance v run g g where
  wiring := rfl
  states := rfl
  claimer _ n hn hclaimed _ := ⟨n, hn, hclaimed, rfl, fun _ => rfl⟩
  unclaimed _ _ _ h := h
  settled _ h := h
  released _ h := .inl h

/-! ## Changes of one node and of what is below it -/

/-- The change touches the node, and if the node is stale what is below it. -/
structure Confined (g : Graph σ) (id : NodeId) (g' : Graph σ) : Prop where
  wiring : g'.wiring = g.wiring
  node? : ∀ m, m ≠ id → ∃ f : Node σ → Node σ, g'.node? m = (g.node? m).map f ∧
    (∀ n, (f n).state = n.state ∧ (f n).claimed = n.claimed ∧ (f n).run = n.run) ∧
    ((∀ n, (f n).epoch = n.epoch ∧ (f n).stale = n.stale) ∨
      g.isFresh id = false ∧ TransGen g.wiring.Feeds id m)

namespace Confined

variable {id : NodeId}

theorem modify (g : Graph σ) (id : NodeId) (f : Node σ → Node σ) :
    Confined g id (g.modify id f) where
  wiring := rfl
  node? m hm := by
    refine ⟨fun n => n, ?_, fun n => ⟨rfl, rfl, rfl⟩, .inl fun n => ⟨rfl, rfl⟩⟩
    rw [node?_modify, if_neg (Ne.symm hm), Option.map_id']

theorem visited (h : Confined g id g₁) {ids : List NodeId} {visits : NodeId → Nat}
    (hv : Visited g₁ ids visits g₂)
    (hbelow : ∀ m, m ≠ id → 0 < visits m → g.isFresh id = false ∧ TransGen g.wiring.Feeds id m) :
    Confined g id g₂ where
  wiring := hv.wiring.trans h.wiring
  node? m hm := by
    obtain ⟨f, hf, hkeep, hcase⟩ := h.node? m hm
    refine ⟨fun n => (f n).aged (visits m), ?_, hkeep, ?_⟩
    · rw [hv.node?, hf, Option.map_map]
      rfl
    · by_cases hpos : 0 < visits m
      · exact .inr (hbelow m hm hpos)
      · have hzero : visits m = 0 := by omega
        apply hcase.imp_left
        intro hcalm n
        simp only [hzero, Node.aged_zero]
        exact hcalm n

theorem halted (h : Confined g id g₁) {S : List NodeId} (hh : Halted g₁ (· ∈ S) g₂)
    (hfresh : g.isFresh id = false) (hbelow : ∀ m ∈ S, TransGen g.wiring.Feeds id m) :
    Confined g id g₂ where
  wiring := hh.wiring.trans h.wiring
  node? m hm := by
    obtain ⟨f, hf, hkeep, hcase⟩ := h.node? m hm
    by_cases hS : m ∈ S
    · refine ⟨fun n => (f n).stopped, ?_, hkeep, .inr ⟨hfresh, hbelow m hS⟩⟩
      rw [hh.node?, if_pos hS, hf, Option.map_map]
      rfl
    · refine ⟨f, ?_, hkeep, hcase⟩
      rw [hh.node?, if_neg hS, hf]

end Confined

theorem Closed.not_fed {id m : NodeId} (h : g.Closed) (hstale : g.isFresh id = false)
    (hpath : TransGen g.wiring.Feeds id m) : ¬ g.Fed m := by
  intro hfed
  obtain ⟨u, hpath, hfeeds⟩ := TransGen.tail'_iff.1 hpath
  have hfresh : g.isFresh id = true := by
    rcases reflTransGen_iff_eq_or_transGen.1 hpath with rfl | hpath
    · exact hfed u hfeeds
    · exact h.transGen hpath (hfed u hfeeds)
  rw [hstale] at hfresh
  cases hfresh

theorem not_claimedBy {id : NodeId} {n : Node σ} (hn : g.node? id = some n)
    (hfree : n.claimed = false) (k : Nat) : ¬ g.ClaimedBy id k := by
  intro hclaimed
  obtain ⟨o, ho, hc, -⟩ := hclaimed
  rw [hn] at ho
  cases ho
  rw [hfree] at hc
  cases hc

/-- What a change does to its node decides what it is to the other runs: what was stale below the
node does not complete, and has a stale producer. -/
theorem Advance.of_confined {id : NodeId} (hclosed : g.Closed) (h : Confined g id g')
    (hstate : g'.state? id = g.state? id)
    (hclaimer : ∀ n, g.node? id = some n → n.claimed = true → run ≠ some n.run →
      ∃ n', g'.node? id = some n' ∧ n'.claimed = true ∧ n'.run = n.run ∧ n'.epoch = n.epoch)
    (hunclaimed : ∀ k, run ≠ some k → g'.ClaimedBy id k → g.ClaimedBy id k)
    (hsettled : g.Settled v id → g'.Settled v id)
    (hreleased : g.IsClaimed id → g'.IsClaimed id ∨ g'.Settled v id) : Advance v run g g' where
  wiring := h.wiring
  states := by
    funext m
    by_cases hm : m = id
    · rw [hm, hstate]
    · obtain ⟨f, hf, hkeep, -⟩ := h.node? m hm
      rw [state?, state?, hf, Option.map_map]
      congr 1
      exact funext fun o => (hkeep o).1
  claimer m o ho hclaimed hrun := by
    by_cases hm : m = id
    · subst hm
      obtain ⟨n', hn', hc, hr, he⟩ := hclaimer o ho hclaimed hrun
      exact ⟨n', hn', hc, hr, fun _ => he⟩
    · obtain ⟨f, hf, hkeep, hcase⟩ := h.node? m hm
      obtain ⟨-, hc, hr⟩ := hkeep o
      refine ⟨f o, by rw [hf, ho, Option.map_some], hc.trans hclaimed, hr, fun hfed => ?_⟩
      rcases hcase with hcalm | ⟨hstale, hpath⟩
      · exact (hcalm o).1
      · exact absurd hfed (hclosed.not_fed hstale hpath)
  unclaimed m k hk hc := by
    by_cases hm : m = id
    · subst hm
      exact hunclaimed k hk hc
    · obtain ⟨o', ho', hc', hr'⟩ := hc
      obtain ⟨f, hf, hkeep, -⟩ := h.node? m hm
      rw [hf, Option.map_eq_some_iff] at ho'
      obtain ⟨o, ho, rfl⟩ := ho'
      exact ⟨o, ho, (hkeep o).2.1.symm.trans hc', (hkeep o).2.2.symm.trans hr'⟩
  settled m hm := by
    by_cases hid : m = id
    · subst hid
      exact hsettled hm
    · apply hm.imp_left
      intro hfresh
      obtain ⟨o, ho, hs⟩ := isFresh_iff.1 hfresh
      obtain ⟨f, hf, -, hcase⟩ := h.node? m hid
      rcases hcase with hcalm | ⟨hstale, hpath⟩
      · refine isFresh_iff.2 ⟨f o, by rw [hf, ho, Option.map_some], ?_⟩
        rw [(hcalm o).2, hs]
      · rw [hclosed.transGen hpath hfresh] at hstale
        cases hstale
  released m hm := by
    by_cases hid : m = id
    · subst hid
      exact hreleased hm
    · obtain ⟨k, o, ho, hc, hr⟩ := hm
      obtain ⟨f, hf, hkeep, -⟩ := h.node? m hid
      refine .inl ⟨k, f o, by rw [hf, ho, Option.map_some], ?_, ?_⟩
      · exact (hkeep o).2.1.trans hc
      · exact (hkeep o).2.2.trans hr

/-- A change of one node that concerns neither its claim nor its freshness. -/
theorem Advance.modify {id : NodeId} {f : Node σ → Node σ} (hclosed : g.Closed)
    (h : ∀ n, g.node? id = some n → (f n).state = n.state ∧ (f n).claimed = n.claimed ∧
      (f n).run = n.run ∧ (f n).epoch = n.epoch ∧ (f n).stale = n.stale) :
    Advance v run g (g.modify id f) := by
  have hself := g.node?_modify_self id f
  cases hn : g.node? id with
  | none =>
    have hgone : (g.modify id f).node? id = g.node? id := by rw [hself, hn, Option.map_none]
    refine .of_confined hclosed (.modify g id f) ?_ ?_ ?_ ?_ ?_
    · rw [state?, state?, hgone]
    · intro o ho
      rw [hn] at ho
      cases ho
    · intro k _ hc
      rwa [ClaimedBy, hgone] at hc
    · intro hsettled
      rwa [Settled, isFresh, hgone]
    · intro hclaimed
      obtain ⟨k, hc⟩ := hclaimed
      exact .inl ⟨k, by rwa [ClaimedBy, hgone]⟩
  | some n =>
    rw [hn, Option.map_some] at hself
    obtain ⟨hs, hc, hr, he, hstale⟩ := h n hn
    have hclaimedBy : ∀ k, (g.modify id f).ClaimedBy id k ↔ g.ClaimedBy id k := by
      intro k
      simp only [ClaimedBy, hself, hn, Option.some.injEq, exists_eq_left', hc, hr]
    refine .of_confined hclosed (.modify g id f) ?_ ?_ ?_ ?_ ?_
    · rw [state?, state?, hself, hn, Option.map_some, Option.map_some, hs]
    · intro o ho hclaimed _
      rw [hn] at ho
      cases ho
      exact ⟨f n, hself, hc.trans hclaimed, hr, he⟩
    · intro k _
      exact (hclaimedBy k).1
    · apply Or.imp_left
      intro hfresh
      rw [isFresh, hn] at hfresh
      rw [isFresh, hself]
      simpa [hstale] using hfresh
    · intro hclaimed
      obtain ⟨k, hk⟩ := hclaimed
      exact .inl ⟨k, (hclaimedBy k).2 hk⟩

theorem Advance.taken {id : NodeId} {k : Nat} {n : Node σ} (hclosed : g.Closed)
    (hn : g.node? id = some n) (hfree : n.claimed = false) :
    Advance v (some k) g (g.modify id (·.taken k)) := by
  have hself : (g.modify id (·.taken k)).node? id = some (n.taken k) := by
    rw [node?_modify_self, hn, Option.map_some]
  refine .of_confined hclosed (.modify g id _) ?_ ?_ ?_ ?_ ?_
  · rw [state?, state?, hself, hn]
    rfl
  · intro o ho hclaimed
    exact absurd ⟨o, ho, hclaimed, rfl⟩ (not_claimedBy hn hfree o.run)
  · intro k' hk hc
    obtain ⟨n', hn', -, hr'⟩ := hc
    rw [hself] at hn'
    cases hn'
    exact absurd (congrArg some hr') hk
  · intro hsettled
    rwa [Settled, isFresh_taken]
  · intro _
    exact .inl ⟨k, _, hself, rfl, rfl⟩

/-! ## The end of a run -/

theorem Advance.givenUp {id : NodeId} {n n' : Node σ} (hclosed : g.Closed)
    (h : Confined g id g') (hn : g.node? id = some n) (hn' : g'.node? id = some n')
    (hstate : n'.state = n.state) (hfree : n'.claimed = false) (hsettled : g'.Settled v id) :
    Advance v (some n.run) g g' := by
  refine .of_confined hclosed h ?_ ?_ ?_ (fun _ => hsettled) (fun _ => .inr hsettled)
  · rw [state?, state?, hn, hn', Option.map_some, Option.map_some, hstate]
  · intro o ho _ hrun
    rw [hn] at ho
    cases ho
    exact absurd rfl hrun
  · intro k _ hc
    exact absurd hc (not_claimedBy hn' hfree k)

/-- What is visited from a node lies below it, unless it is the node. -/
theorem Visited.below {ids : List NodeId} {visits : NodeId → Nat} {id : NodeId}
    (hv : Visited g₁ ids visits g₂) (hids : ∀ m ∈ ids, m = id ∨ g₁.wiring.Feeds id m)
    {m : NodeId} (hm : m ≠ id) (hpos : 0 < visits m) : TransGen g₁.wiring.Feeds id m := by
  obtain ⟨u, hu, hpath⟩ := hv.reach m hpos
  rcases hids u hu with rfl | hfeeds
  · exact (reflTransGen_iff_eq_or_transGen.1 hpath).resolve_left hm
  · exact TransGen.head' hfeeds hpath

/-- The end of a computation writes to its node. What is visited is below the node, and that only
if the outputs differ from the old ones or the policy asks for it. -/
theorem visited_complete (hw : g.wiring.Sound) (p : Policy) (id : NodeId) (n : Node σ) (state : σ)
    (outputs : Outputs) (upToDate : Bool) : ∃ ids visits,
      Visited (g.modify id (·.completed state outputs upToDate)) ids visits
        (g.complete p id n state outputs upToDate).1 ∧
      ∀ m, 0 < visits m →
        (n.outputs != outputs || p.propagateUnchanged) = true ∧ TransGen g.wiring.Feeds id m := by
  unfold complete
  split
  · rename_i hasked
    obtain ⟨visits, hv⟩ := visited_invalidateAll
      (g.modify id (·.completed state outputs upToDate)) hw (g.wiring.downstream id)
    refine ⟨_, visits, hv, fun m hpos => ⟨hasked, ?_⟩⟩
    obtain ⟨u, hu, hpath⟩ := hv.reach m hpos
    exact TransGen.head' (hw.mem_downstream.1 hu) hpath
  · exact ⟨[], _, .nil _, fun m hpos => absurd hpos (Nat.lt_irrefl 0)⟩

theorem node?_complete (hw : g.wiring.Sound) {id : NodeId} {n : Node σ}
    (hn : g.node? id = some n) (p : Policy) (state : σ) (outputs : Outputs) (upToDate : Bool) :
    (g.complete p id n state outputs upToDate).1.node? id =
      some (n.completed state outputs upToDate) := by
  obtain ⟨ids, visits, hv, hbelow⟩ := visited_complete hw p id n state outputs upToDate
  have hzero : visits id = 0 := by
    by_contra hne
    exact hw.acyclic.transGen.irrefl.irrefl id (hbelow id (Nat.pos_of_ne_zero hne)).2
  rw [hv.node?, node?_modify_self, hn, hzero, Option.map_some, Option.map_some, Node.aged_zero]

/-- Under the epoch in which the computation began it is fresh. -/
theorem isFresh_complete (hw : g.wiring.Sound) {id : NodeId} {n : Node σ}
    (hn : g.node? id = some n) (p : Policy) (state : σ) (outputs : Outputs) :
    (g.complete p id n state outputs true).1.isFresh id = true :=
  isFresh_iff.2 ⟨_, node?_complete hw hn p state outputs true, by simp [Node.completed]⟩

theorem congruent_complete (hw : g.wiring.Sound) {id : NodeId} {n : Node σ}
    (hn : g.node? id = some n) (p : Policy) (outputs : Outputs) (upToDate : Bool) :
    Congruent g (g.complete p id n n.state outputs upToDate).1 := by
  obtain ⟨ids, visits, hv, -⟩ := visited_complete hw p id n n.state outputs upToDate
  refine ⟨hv.wiring, funext fun m => ?_⟩
  rw [state?, state?, hv.node?, Option.map_map, node?_modify]
  split
  · rename_i heq
    subst heq
    rw [hn]
    rfl
  · rfl

/-- Others lose nothing by it, unless equal outputs of a fresh node are propagated. -/
theorem advance_complete {id : NodeId} {n : Node σ} (hw : g.wiring.Sound) (hclosed : g.Closed)
    (hn : g.node? id = some n) {outputs : Outputs}
    (hsame : n.stale = false → (n.outputs == outputs) = true) {p : Policy}
    (hp : p.propagateUnchanged = false ∨ n.stale = true) :
    Advance v (some n.run) g (g.complete p id n n.state outputs true).1 := by
  obtain ⟨ids, visits, hv, hbelow⟩ := visited_complete hw p id n n.state outputs true
  refine .givenUp hclosed ?_ hn (node?_complete hw hn p n.state outputs true) rfl rfl
    (.inl (isFresh_complete hw hn p n.state outputs))
  refine (Confined.modify g id _).visited hv fun m _ hpos => ?_
  obtain ⟨hasked, hpath⟩ := hbelow m hpos
  refine ⟨?_, hpath⟩
  cases hs : n.stale with
  | true => simp [isFresh, hn, hs]
  | false =>
    rw [hs] at hp
    simp [bne, hsame hs, hp.resolve_right Bool.false_ne_true] at hasked

theorem advance_failed {id : NodeId} {n : Node σ} (hw : g.wiring.Sound) (hclosed : g.Closed)
    (hn : g.node? id = some n) (hstale : n.stale = true) (hnot : ¬ (v id).IsCompleted)
    (message : String) :
    let g' := ((g.modify id (·.failed message)).invalidate id).1
    Advance v (some n.run) g g' ∧ ∀ k, ¬ g'.ClaimedBy id k := by
  have hfresh : g.isFresh id = false := by simp [isFresh, hn, hstale]
  obtain ⟨visits, hv⟩ := visited_invalidate (g.modify id (·.failed message)) hw id
  have hnode := hv.node? id
  rw [node?_modify_self, hn, Option.map_some, Option.map_some] at hnode
  have hconf := (Confined.modify g id (·.failed message)).visited hv fun m hm hpos =>
    ⟨hfresh, hv.below (by simp) hm hpos⟩
  exact ⟨.givenUp hclosed hconf hn hnode rfl rfl (.inr hnot), not_claimedBy hnode rfl⟩

theorem advance_block {id : NodeId} {n : Node σ} (hw : g.wiring.Sound) (hclosed : g.Closed)
    (hn : g.node? id = some n) (hstale : n.stale = true) (hnot : ¬ (v id).IsCompleted)
    (ports : List Port) :
    let g' := (g.block id ports).1
    Advance v (some n.run) g g' ∧ ∀ k, ¬ g'.ClaimedBy id k := by
  have hfresh : g.isFresh id = false := by simp [isFresh, hn, hstale]
  obtain ⟨visits, hv⟩ := visited_invalidate (g.modify id (·.blocked ports)) hw id
  have hwire : ((g.modify id (·.blocked ports)).invalidate id).1.wiring = g.wiring := hv.wiring
  obtain ⟨S, hh, -, hbelow⟩ := halted_blockBelow
    ((g.modify id (·.blocked ports)).invalidate id).1 (by rw [hwire]; exact hw) id
  rw [hwire] at hbelow
  have hid : id ∉ S := fun hS => hw.acyclic.transGen.irrefl.irrefl id (hbelow id hS)
  have hnode := hh.node? id
  rw [if_neg hid, hv.node?, node?_modify_self, hn, Option.map_some, Option.map_some] at hnode
  have hconf := ((Confined.modify g id (·.blocked ports)).visited hv fun m hm hpos =>
    ⟨hfresh, hv.below (by simp) hm hpos⟩).halted hh hfresh hbelow
  exact ⟨.givenUp hclosed hconf hn hnode rfl rfl (.inr hnot), not_claimedBy hnode rfl⟩

end Graph

end Patchbay
