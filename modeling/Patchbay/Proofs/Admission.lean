import Patchbay.Proofs.EdgeSet
import Patchbay.Proofs.Restore

/-!
# Which connections are admitted

A wiring looks for circles by a search that begins anew for each connection, and refuses a
connection at once, without a look at those that may still come. Nothing is lost by that: the
connections that can be admitted are those that keep the set proper, with one source for each sink
and no circle, and a proper set can be built up in whatever order its connections come.

What is proved here:
  1. `exists_search`, `Sound.load_le`: the search ends, and each connection queues at most one node.
  2. `Sound.proper`: the connections of a sound wiring are a proper set.
  3. `Sound.insert_iff`, `Sound.insert_bound`, `Sound.insert_circle`: the answer to one insertion.
  4. `Sound.exists_insertAll`: what keeps the set proper is admitted in every order.
  5. `admits_proper`: all of it, for the wirings that changes can lead to.
-/

namespace Patchbay.Wiring

open Relation

/-- Each sink has one source, and no connections lead in a circle. -/
structure Proper (E : Finset Connection) : Prop where
  single : ∀ c ∈ E, ∀ c' ∈ E, c.sink = c'.sink → c = c'
  acyclic : ∀ v, ¬ TransGen (Leads E) v v

/-! ## The search -/

/-- The course of a search for a node, which has expanded the nodes of the first list and queued
those of the second. The number tells how many nodes it still takes from the queue. -/
inductive Searches (w : Wiring) (target : NodeId) : List NodeId → List NodeId → Nat → Bool → Prop
  | missed (visited : List NodeId) : Searches w target visited [] 0 false
  | met (visited queue : List NodeId) : Searches w target visited (target :: queue) 1 true
  | skipped {visited queue : List NodeId} {node : NodeId} {n : Nat} {found : Bool}
    (hne : node ≠ target) (hmem : node ∈ visited) (h : Searches w target visited queue n found) :
    Searches w target visited (node :: queue) (n + 1) found
  | expanded {visited queue : List NodeId} {node : NodeId} {n : Nat} {found : Bool}
    (hne : node ≠ target) (hnew : node ∉ visited)
    (h : Searches w target (node :: visited) (queue ++ w.downstream node) n found) :
    Searches w target visited (node :: queue) (n + 1) found

/-- Every search ends: a node is expanded once, and then its connections are off the load. -/
theorem exists_search (w : Wiring) (target : NodeId) (visited queue : List NodeId) :
    ∃ n ≤ queue.length + w.load (fun m => !visited.contains m),
      w.Searches target visited queue n (w.walk target visited queue) := by
  fun_induction walk w target visited queue with
  | case1 visited => exact ⟨0, Nat.zero_le _, .missed visited⟩
  | case2 visited queue =>
    exact ⟨1, by simp only [List.length_cons]; omega, .met visited queue⟩
  | case3 visited node queue hne hmem ih =>
    obtain ⟨n, hn, hsearch⟩ := ih
    refine ⟨n + 1, ?_, .skipped hne (List.contains_iff_mem.1 hmem) hsearch⟩
    simp only [List.length_cons]
    omega
  | case4 visited node queue hne hmem ih =>
    obtain ⟨n, hn, hsearch⟩ := ih
    have hnew : node ∉ visited := fun h => hmem (List.contains_iff_mem.2 h)
    have hclose := w.load_close (fun m => !visited.contains m)
      (fun m => !(node :: visited).contains m) node (by simpa using hnew) (by simp) (by simp)
    refine ⟨n + 1, ?_, .expanded hne hnew hsearch⟩
    simp only [List.length_cons, List.length_append] at hn ⊢
    omega

variable {w : Wiring}

theorem Sound.load_le (h : w.Sound) (isOpen : NodeId → Bool) : w.load isOpen ≤ w.edges.card := by
  let listed := (w.consumers.entries.filter fun e => isOpen e.1.node).flatMap
    fun e => e.2.toList.map fun sink => (⟨e.1, sink⟩ : Connection)
  have hlength : listed.length = w.load isOpen := by
    simp only [listed, load, List.length_flatMap, List.length_map]
  have hnodup : listed.Nodup := w.nodup_leaving _
  have hsub : listed.toFinset ⊆ w.edges := by
    intro c hc
    obtain ⟨e, he, hmem⟩ := List.mem_flatMap.1 (List.mem_toFinset.1 hc)
    obtain ⟨sink, hsink, rfl⟩ := List.mem_map.1 hmem
    have hget := Dict.mem_entries.1 (List.mem_of_mem_filter he)
    exact mem_edges.2 ((h.mirrored e.1 sink).1 (contains_sinksOf.2 ⟨e.2, hget, hsink⟩))
  have hcard := Finset.card_le_card hsub
  rwa [List.toFinset_card_of_nodup hnodup, hlength] at hcard

/-- A search takes one node more from the queue than there are connections, at most. -/
theorem Sound.exists_search_reaches (h : w.Sound) (start target : NodeId) :
    ∃ n ≤ w.edges.card + 1, w.Searches target [] [start] n (w.reaches start target) := by
  obtain ⟨n, hn, hsearch⟩ := exists_search w target [] [start]
  have hload := h.load_le fun m => !([] : List NodeId).contains m
  refine ⟨n, ?_, hsearch⟩
  rw [List.length_singleton] at hn
  omega

/-! ## One connection -/

theorem Sound.proper (h : w.Sound) : Proper w.edges where
  single c hc c' hc' hsink := by
    rw [mem_edges] at hc hc'
    rw [hsink, hc'] at hc
    exact Connection.ext (Option.some.inj hc).symm hsink
  acyclic v hcircle := by
    have hfeeds : TransGen w.Feeds v v := TransGen.mono (fun _ _ => leads_edges.1) _ _ hcircle
    exact h.acyclic.transGen.irrefl.irrefl v hfeeds

theorem Sound.reaches_iff_leads (h : w.Sound) (u v : NodeId) :
    w.reaches u v = true ↔ ReflTransGen (Leads w.edges) u v :=
  h.reaches_iff.trans reaches_leads.symm

theorem edges_insert {w' : Wiring} {c : Connection} (hinsert : w.insert c = .ok w') :
    c.source.node ≠ c.sink.node ∧ w'.edges = w.edges ∪ {c} := by
  obtain ⟨hfree, hne, -, rfl⟩ := insert_eq_ok hinsert
  exact ⟨hne, edges_link hfree⟩

theorem Sound.insert_iff (h : w.Sound) (c : Connection) :
    (∃ w', w.insert c = .ok w') ↔
      (∀ c' ∈ w.edges, c'.sink ≠ c.sink) ∧
        ¬ ReflTransGen (Leads w.edges) c.sink.node c.source.node := by
  constructor
  · rintro ⟨w', hinsert⟩
    obtain ⟨hfree, -, hreach, -⟩ := insert_eq_ok hinsert
    exact ⟨producerOf_eq_none.1 hfree, fun hpath => h.not_reaches hreach (reaches_leads.1 hpath)⟩
  · rintro ⟨hfree, hopen⟩
    exact ⟨_, h.insert_eq_link (producerOf_eq_none.2 hfree) (mt reaches_leads.2 hopen)⟩

theorem Sound.insert_bound (h : w.Sound) {c c' : Connection} (hc' : c' ∈ w.edges)
    (hsink : c'.sink = c.sink) :
    w.apply (.insert c) = (w, .refused (.sinkAlreadyBound c.sink)) := by
  cases hinsert : w.insert c with
  | ok w' => exact absurd hsink (((h.insert_iff c).1 ⟨w', hinsert⟩).1 c' hc')
  | error error =>
    rcases insert_eq_error h hinsert with ⟨-, -, rfl⟩ | ⟨hfree, -, -⟩
    · simp only [apply, hinsert]
    · exact absurd hsink (producerOf_eq_none.1 hfree c' hc')

theorem Sound.insert_circle (h : w.Sound) {c : Connection} (hfree : ∀ c' ∈ w.edges, c'.sink ≠ c.sink)
    (hclosed : ReflTransGen (Leads w.edges) c.sink.node c.source.node) :
    w.apply (.insert c) = (w, .refused (.cycle c.source.node c.sink.node)) := by
  cases hinsert : w.insert c with
  | ok w' => exact absurd hclosed ((h.insert_iff c).1 ⟨w', hinsert⟩).2
  | error error =>
    rcases insert_eq_error h hinsert with ⟨source, hsource, -⟩ | ⟨-, -, rfl⟩
    · exact absurd rfl (hfree ⟨source, c.sink⟩ (mem_edges.2 hsource))
    · simp only [apply, hinsert]

/-! ## Many connections -/

theorem foldl_apply_insert {cs : List Connection} {w w' : Wiring}
    (h : cs.foldlM insert w = .ok w') :
    (cs.map Change.insert).foldl (fun w change => (w.apply change).1) w = w' := by
  induction cs generalizing w with
  | nil =>
    cases h
    rfl
  | cons c rest ih =>
    rw [List.foldlM_cons] at h
    cases hinsert : w.insert c with
    | error error =>
      rw [hinsert] at h
      cases h
    | ok w₁ =>
      rw [hinsert] at h
      simp only [List.map_cons, List.foldl_cons, apply, hinsert]
      exact ih h

/-- Connections that keep the set proper are admitted one after another, in whatever order. -/
theorem Sound.exists_insertAll (h : w.Sound) {cs : List Connection} (hnodup : cs.Nodup)
    (hnew : ∀ c ∈ cs, c ∉ w.edges) (hproper : Proper (w.edges ∪ cs.toFinset)) :
    ∃ w', cs.foldlM Wiring.insert w = .ok w' ∧ w'.edges = w.edges ∪ cs.toFinset := by
  have hin : ∀ c ∈ cs, c ∈ w.edges ∪ cs.toFinset := fun c hc =>
    Finset.mem_union_right _ (List.mem_toFinset.2 hc)
  have hsinks : (cs.map (·.sink)).Nodup :=
    hnodup.map_on fun c hc c' hc' => hproper.single c (hin c hc) c' (hin c' hc')
  have hfree : ∀ c ∈ cs, w.producerOf c.sink = none := by
    refine fun c hc => producerOf_eq_none.2 fun c' hc' hsink => hnew c hc ?_
    rwa [← hproper.single c' (Finset.mem_union_left _ hc') c (hin c hc) hsink]
  have hfeeds : ∀ u v, w.Feeds u v → Leads (w.edges ∪ cs.toFinset) u v := by
    intro u v huv
    obtain ⟨c, hc, hends⟩ := leads_edges.2 huv
    exact ⟨c, Finset.mem_union_left _ hc, hends⟩
  obtain ⟨w', hw'⟩ := Snapshot.exists_insertConnections h hproper.acyclic hfeeds
    (fun c hc => ⟨c, hin c hc, rfl, rfl⟩) hsinks hfree
  refine ⟨w', hw', edges_eq fun c => ?_⟩
  rw [(Snapshot.insertConnections_eq_ok h hw').2, Finset.mem_union, mem_edges, List.mem_toFinset]

/-- After any changes, the search ends and tells whether connections lead from one node to the
other. A connection is admitted if its sink is unbound and no connections lead from its sink's node
to its source's, and then the two nodes differ and the set stays proper; a refusal names the first
of these that fails, and leaves the wiring as it is. Every set that is proper together with what
is there already can be added in any order. -/
theorem admits_proper (changes : List Change) :
    let w := after changes
    (∀ a b, (w.reaches a b = true ↔ ReflTransGen (Leads w.edges) a b) ∧
      ∃ n ≤ w.edges.card + 1, w.Searches b [] [a] n (w.reaches a b)) ∧
    Proper w.edges ∧
    (∀ c, ((∃ w', w.insert c = .ok w') ↔
        (∀ c' ∈ w.edges, c'.sink ≠ c.sink) ∧ w.reaches c.sink.node c.source.node = false) ∧
      (∀ w', w.insert c = .ok w' →
        c.source.node ≠ c.sink.node ∧ w'.edges = w.edges ∪ {c} ∧ Proper w'.edges) ∧
      ((∃ c' ∈ w.edges, c'.sink = c.sink) →
        w.apply (.insert c) = (w, .refused (.sinkAlreadyBound c.sink))) ∧
      ((∀ c' ∈ w.edges, c'.sink ≠ c.sink) → w.reaches c.sink.node c.source.node = true →
        w.apply (.insert c) = (w, .refused (.cycle c.source.node c.sink.node)))) ∧
    ∀ E, Disjoint w.edges E → Proper (w.edges ∪ E) → ∀ cs : List Connection, cs.Nodup →
      cs.toFinset = E →
      cs.foldlM insert w = .ok (after (changes ++ cs.map Change.insert)) ∧
        (after (changes ++ cs.map Change.insert)).edges = w.edges ∪ E := by
  intro w
  have h : w.Sound := (kept_after changes).1
  refine ⟨fun a b => ⟨h.reaches_iff_leads a b, h.exists_search_reaches a b⟩, h.proper,
    fun c => ⟨?_, fun w' hinsert => ?_, ?_, fun hfree hreach => ?_⟩, ?_⟩
  · rw [h.insert_iff, ← h.reaches_iff_leads, Bool.not_eq_true]
  · obtain ⟨hne, hedges⟩ := edges_insert hinsert
    exact ⟨hne, hedges, (h.insert hinsert).proper⟩
  · rintro ⟨c', hc', hsink⟩
    exact h.insert_bound hc' hsink
  · exact h.insert_circle hfree ((h.reaches_iff_leads _ _).1 hreach)
  · rintro E hapart hproper cs hnodup rfl
    have hnew : ∀ c ∈ cs, c ∉ w.edges := fun c hc hmem =>
      Finset.disjoint_left.1 hapart hmem (List.mem_toFinset.2 hc)
    obtain ⟨w', hw', hedges⟩ := h.exists_insertAll hnodup hnew hproper
    have hafter : after (changes ++ cs.map Change.insert) = w' := by
      rw [after, List.foldl_append]
      exact foldl_apply_insert hw'
    rw [hafter]
    exact ⟨hw', hedges⟩

/-- A diamond with two connections between the same nodes is no circle, whichever connection comes
last. -/
example :
    let cs : List Connection := [⟨⟨"a", "x"⟩, ⟨"b", "x"⟩⟩, ⟨⟨"a", "y"⟩, ⟨"b", "y"⟩⟩,
      ⟨⟨"a", "x"⟩, ⟨"c", "x"⟩⟩, ⟨⟨"b", "x"⟩, ⟨"d", "x"⟩⟩, ⟨⟨"c", "x"⟩, ⟨"d", "y"⟩⟩]
    let w := after (cs.map .insert)
    w = after (cs.reverse.map .insert) ∧ w.size = 5 ∧ w.wouldCycle "d" "a" = true := by
  decide +kernel

end Patchbay.Wiring
