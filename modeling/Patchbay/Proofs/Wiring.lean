import Mathlib.Data.List.Nodup
import Mathlib.Logic.Relation
import Mathlib.Order.WellFounded
import Mathlib.Tactic.ByContra
import Mathlib.Tactic.Tauto
import Patchbay.Wiring

/-!
# Sound wirings

A wiring is sound if its two directions tell the same connections and no chain of connections
leads in a circle. The empty wiring is sound, and every change keeps a wiring sound.

What is proved here:
  1. `mem_incoming`, `mem_outgoing`, `mem_downstream`, `mem_feeders`: what the listings list.
  2. `Sound.reaches_iff`: the breadth-first walk tells whether connections lead to a node.
  3. `Sound.insert_eq_link`: a connection that breaks no rule is accepted.
  4. `Sound.insert`, `Sound.remove`, `Sound.removeNode`: each change keeps a wiring sound, with
     the connections that it leaves.
-/

namespace Patchbay.Wiring

open Relation

/-- Some connection leads from one node to the other. -/
def Feeds (w : Wiring) (u v : NodeId) : Prop :=
  ∃ c : Connection, w.producerOf c.sink = some c.source ∧ c.source.node = u ∧ c.sink.node = v

/-- The two directions tell the same connections, and none of them lie on a circle. -/
structure Sound (w : Wiring) : Prop where
  mirrored : ∀ source sink,
    (w.sinksOf source).contains sink = true ↔ w.producerOf sink = some source
  acyclic : WellFounded w.Feeds

/-! ## Listings -/

theorem contains_iff {w : Wiring} {c : Connection} :
    w.contains c = true ↔ w.producerOf c.sink = some c.source := by
  rw [contains, beq_iff_eq]

theorem mem_connections {w : Wiring} {c : Connection} :
    c ∈ w.connections ↔ w.producerOf c.sink = some c.source := by
  rw [connections, List.mem_map]
  constructor
  · intro hex
    obtain ⟨⟨sink, source⟩, hmem, rfl⟩ := hex
    exact Dict.mem_entries.1 hmem
  · intro h
    exact ⟨(c.sink, c.source), Dict.mem_entries.2 h, rfl⟩

theorem mem_incoming {w : Wiring} {node : NodeId} {c : Connection} :
    c ∈ w.incoming node ↔ w.producerOf c.sink = some c.source ∧ c.sink.node = node := by
  rw [incoming, scan_eq_filter, List.mem_map]
  constructor
  · intro hex
    obtain ⟨⟨sink, source⟩, hmem, rfl⟩ := hex
    obtain ⟨hmem, hnode⟩ := List.mem_filter.1 hmem
    exact ⟨Dict.mem_entries.1 hmem, by simpa using hnode⟩
  · intro hex
    obtain ⟨h, rfl⟩ := hex
    exact ⟨(c.sink, c.source), List.mem_filter.2 ⟨Dict.mem_entries.2 h, by simp⟩, rfl⟩

theorem contains_sinksOf {w : Wiring} {source sink : PortRef} :
    (w.sinksOf source).contains sink = true ↔
      ∃ sinks, w.consumers.get? source = some sinks ∧ sink ∈ sinks.toList := by
  rw [sinksOf]
  cases h : w.consumers.get? source with
  | none => simp [Dict.contains]
  | some sinks => simp [Roster.mem_toList]

theorem mem_outgoing {w : Wiring} {node : NodeId} {c : Connection} :
    c ∈ w.outgoing node ↔
      (w.sinksOf c.source).contains c.sink = true ∧ c.source.node = node := by
  rw [outgoing, scan_eq_filter, List.mem_flatMap, contains_sinksOf]
  constructor
  · intro hex
    obtain ⟨⟨source, sinks⟩, hmem, hc⟩ := hex
    obtain ⟨sink, hsink, rfl⟩ := List.mem_map.1 hc
    obtain ⟨hmem, hnode⟩ := List.mem_filter.1 hmem
    exact ⟨⟨sinks, Dict.mem_entries.1 hmem, hsink⟩, by simpa using hnode⟩
  · intro hex
    obtain ⟨⟨sinks, hget, hsink⟩, rfl⟩ := hex
    refine ⟨(c.source, sinks), List.mem_filter.2 ⟨Dict.mem_entries.2 hget, by simp⟩, ?_⟩
    exact List.mem_map.2 ⟨c.sink, hsink, rfl⟩

theorem mem_feeders {w : Wiring} {u v : NodeId} : u ∈ w.feeders v ↔ w.Feeds u v := by
  rw [feeders, Roster.mem_ofList, List.mem_map]
  constructor
  · intro hex
    obtain ⟨c, hc, rfl⟩ := hex
    obtain ⟨h, hv⟩ := mem_incoming.1 hc
    exact ⟨c, h, rfl, hv⟩
  · intro hex
    obtain ⟨c, h, rfl, hv⟩ := hex
    exact ⟨c, mem_incoming.2 ⟨h, hv⟩, rfl⟩

theorem sorted_feeders (w : Wiring) (v : NodeId) :
    (w.feeders v).Pairwise fun a b => compare a b = .lt :=
  List.pairwise_map.2 (Dict.sorted _)

theorem nodup_incoming (w : Wiring) (node : NodeId) : (w.incoming node).Nodup := by
  rw [incoming, scan_eq_filter]
  refine (w.producers.nodup_entries.filter _).map_on fun a _ b _ hab => ?_
  obtain ⟨hsource, hsink⟩ := Connection.ext_iff.1 hab
  exact Prod.ext hsink hsource

/-- The connections that leave some sources, listed for one source after another. -/
theorem nodup_leaving (w : Wiring) (p : PortRef × Roster PortRef → Bool) :
    ((w.consumers.entries.filter p).flatMap fun e =>
      e.2.toList.map fun sink => (⟨e.1, sink⟩ : Connection)).Nodup := by
  rw [List.nodup_flatMap]
  constructor
  · intro e _
    exact e.2.nodup_keys.map fun a b hab => (Connection.ext_iff.1 hab).2
  · refine (w.consumers.sorted.filter _).imp fun {a b} hlt c hca hcb => ?_
    obtain ⟨_, _, ha⟩ := List.mem_map.1 hca
    obtain ⟨_, _, hb⟩ := List.mem_map.1 hcb
    have hsame : a.1 = b.1 := (Connection.ext_iff.1 (ha.trans hb.symm)).1
    rw [hsame, Std.ReflOrd.compare_self] at hlt
    cases hlt

theorem nodup_outgoing (w : Wiring) (node : NodeId) : (w.outgoing node).Nodup := by
  rw [outgoing, scan_eq_filter]
  exact w.nodup_leaving _

/-- What is downstream in the listing of the sinks of each source. -/
theorem mem_downstream_iff {w : Wiring} {u v : NodeId} :
    v ∈ w.downstream u ↔ ∃ c : Connection,
      (w.sinksOf c.source).contains c.sink = true ∧ c.source.node = u ∧ c.sink.node = v := by
  rw [downstream, Roster.mem_ofList, List.mem_map]
  constructor
  · intro hex
    obtain ⟨c, hc, rfl⟩ := hex
    obtain ⟨h, hu⟩ := mem_outgoing.1 hc
    exact ⟨c, h, hu, rfl⟩
  · intro hex
    obtain ⟨c, h, hu, rfl⟩ := hex
    exact ⟨c, mem_outgoing.2 ⟨h, hu⟩, rfl⟩

theorem not_feeds_empty {u v : NodeId} : ¬ Wiring.empty.Feeds u v := by
  rintro ⟨c, hc, -⟩
  cases hc

namespace Sound

theorem mem_downstream {w : Wiring} (hw : w.Sound) {u v : NodeId} :
    v ∈ w.downstream u ↔ w.Feeds u v := by
  rw [mem_downstream_iff]
  constructor
  · intro hex
    obtain ⟨c, h, hc⟩ := hex
    exact ⟨c, (hw.mirrored _ _).1 h, hc⟩
  · intro hex
    obtain ⟨c, h, hc⟩ := hex
    exact ⟨c, (hw.mirrored _ _).2 h, hc⟩

theorem not_feeds_self {w : Wiring} (hw : w.Sound) (u : NodeId) : ¬ w.Feeds u u :=
  fun h => hw.acyclic.irrefl.irrefl u h

theorem empty : Wiring.empty.Sound where
  mirrored source sink := by
    simp [Wiring.empty, sinksOf, producerOf, Dict.contains]
  acyclic := by
    exact ⟨fun v => ⟨v, fun u hu => absurd hu not_feeds_empty⟩⟩

end Sound

/-! ## Reachability -/

/-- A walk that misses its target has found a set closed under connections without it. -/
theorem exists_closed_of_walk {w : Wiring} {target : NodeId} (visited queue : List NodeId)
    (h : w.walk target visited queue = false) (hv : target ∉ visited)
    (hnext : ∀ u ∈ visited, ∀ v ∈ w.downstream u, v ∈ visited ∨ v ∈ queue) :
    ∃ S : NodeId → Prop, ¬ S target ∧ (∀ u, S u → ∀ v ∈ w.downstream u, S v) ∧
      (∀ u ∈ visited, S u) ∧ ∀ u ∈ queue, S u := by
  fun_induction walk w target visited queue with
  | case1 visited =>
    refine ⟨(· ∈ visited), hv, fun u hu v hd => ?_, fun u hu => hu, by simp⟩
    exact (hnext u hu v hd).resolve_right (by simp)
  | case2 => exact absurd h (by simp)
  | case3 visited node queue hne hmem ih =>
    have hmem : node ∈ visited := by simpa using hmem
    obtain ⟨S, ht, hS, hin, hq⟩ := ih h hv fun u hu v hd => by
      rcases hnext u hu v hd with hx | hx
      · exact .inl hx
      · rcases List.mem_cons.1 hx with rfl | hx
        · exact .inl hmem
        · exact .inr hx
    refine ⟨S, ht, hS, hin, fun u hu => ?_⟩
    rcases List.mem_cons.1 hu with rfl | hu
    · exact hin u hmem
    · exact hq u hu
  | case4 visited node queue hne hmem ih =>
    obtain ⟨S, ht, hS, hin, hq⟩ := ih h (by simp [hv, Ne.symm hne]) fun u hu v hd => by
      rcases List.mem_cons.1 hu with rfl | hu
      · exact .inr (List.mem_append_right _ hd)
      · rcases hnext u hu v hd with hx | hx
        · exact .inl (List.mem_cons_of_mem _ hx)
        · rcases List.mem_cons.1 hx with rfl | hx
          · exact .inl List.mem_cons_self
          · exact .inr (List.mem_append_left _ hx)
    refine ⟨S, ht, hS, fun u hu => hin u (List.mem_cons_of_mem _ hu), fun u hu => ?_⟩
    rcases List.mem_cons.1 hu with rfl | hu
    · exact hin u List.mem_cons_self
    · exact hq u (List.mem_append_left _ hu)

theorem Sound.not_reaches {w : Wiring} (hw : w.Sound) {start target : NodeId}
    (h : w.reaches start target = false) : ¬ ReflTransGen w.Feeds start target := by
  obtain ⟨S, ht, hS, -, hq⟩ := exists_closed_of_walk [] [start] h (by simp) (by simp)
  intro hpath
  refine ht (hpath.head_induction_on (motive := fun u _ => S u → S target) id ?_ ?_)
  · intro u v huv _ ih hu
    exact ih (hS u hu v (hw.mem_downstream.2 huv))
  · exact hq start (by simp)

/-- A walk that meets its target has followed connections from a queued node. -/
theorem exists_path_of_walk {w : Wiring} {target : NodeId} (visited queue : List NodeId)
    (h : w.walk target visited queue = true) :
    ∃ u ∈ queue, ReflTransGen (fun u v => v ∈ w.downstream u) u target := by
  fun_induction walk w target visited queue with
  | case1 => exact absurd h (by simp)
  | case2 visited queue => exact ⟨target, List.mem_cons_self, .refl⟩
  | case3 visited node queue hne hmem ih =>
    obtain ⟨u, hu, hpath⟩ := ih h
    exact ⟨u, List.mem_cons_of_mem _ hu, hpath⟩
  | case4 visited node queue hne hmem ih =>
    obtain ⟨u, hu, hpath⟩ := ih h
    rcases List.mem_append.1 hu with hu | hu
    · exact ⟨u, List.mem_cons_of_mem _ hu, hpath⟩
    · exact ⟨node, List.mem_cons_self, .head hu hpath⟩

/-- The walk tells whether connections lead from one node to the other. -/
theorem Sound.reaches_iff {w : Wiring} (hw : w.Sound) {start target : NodeId} :
    w.reaches start target = true ↔ ReflTransGen w.Feeds start target := by
  constructor
  · intro h
    obtain ⟨u, hu, hpath⟩ := exists_path_of_walk [] [start] h
    rw [List.mem_singleton.1 hu] at hpath
    exact ReflTransGen.mono (fun _ _ => hw.mem_downstream.1) _ _ hpath
  · intro hpath
    by_contra h
    exact hw.not_reaches (Bool.not_eq_true _ ▸ h) hpath

/-! ## One more connection -/

theorem producerOf_link (w : Wiring) (c : Connection) (sink : PortRef) :
    (w.link c).producerOf sink = if c.sink = sink then some c.source else w.producerOf sink := by
  simp only [producerOf, link, Dict.get?_insert, Std.compare_eq_iff_eq]

theorem contains_sinksOf_link (w : Wiring) (c : Connection) (source sink : PortRef) :
    ((w.link c).sinksOf source).contains sink = true ↔
      c = ⟨source, sink⟩ ∨ (w.sinksOf source).contains sink = true := by
  simp only [sinksOf, link, Dict.get?_insert, Std.compare_eq_iff_eq]
  split
  · rename_i h
    subst h
    rw [Option.getD_some, Roster.contains_add, Connection.ext_iff]
    simp
  · rename_i h
    rw [Connection.ext_iff]
    simp [h]

theorem feeds_link {w : Wiring} {c : Connection} {u v : NodeId}
    (h : (w.link c).Feeds u v) : (u = c.source.node ∧ v = c.sink.node) ∨ w.Feeds u v := by
  obtain ⟨d, hd, rfl, rfl⟩ := h
  rw [producerOf_link] at hd
  split at hd
  · rename_i he
    exact .inl ⟨by rw [Option.some.inj hd], by rw [he]⟩
  · exact .inr ⟨d, hd, rfl, rfl⟩

/-- One more connection closes no circle if its source does not depend on its sink. -/
theorem acyclic_link {w : Wiring} (hw : WellFounded w.Feeds) (c : Connection)
    (hc : ¬ ReflTransGen w.Feeds c.sink.node c.source.node) :
    WellFounded (w.link c).Feeds := by
  -- Nodes that do not depend on the sink keep their producers.
  have hapart : ∀ v, ¬ ReflTransGen w.Feeds c.sink.node v → Acc (w.link c).Feeds v := by
    intro v
    induction v using hw.induction with
    | _ v ih =>
      intro hv
      refine ⟨v, fun u hu => ?_⟩
      rcases feeds_link hu with ⟨-, rfl⟩ | hu
      · exact absurd .refl hv
      · exact ih u hu fun h => hv (h.tail hu)
  refine ⟨fun v => ?_⟩
  induction v using hw.induction with
  | _ v ih =>
    refine ⟨v, fun u hu => ?_⟩
    rcases feeds_link hu with ⟨rfl, -⟩ | hu
    · exact hapart _ hc
    · exact ih u hu

theorem Sound.link {w : Wiring} (hw : w.Sound) {c : Connection}
    (hfree : w.producerOf c.sink = none)
    (hc : ¬ ReflTransGen w.Feeds c.sink.node c.source.node) : (w.link c).Sound where
  mirrored source sink := by
    rw [contains_sinksOf_link, producerOf_link, hw.mirrored]
    constructor
    · intro hor
      rcases hor with rfl | h
      · simp
      · rw [if_neg]
        · exact h
        · intro heq
          subst heq
          rw [hfree] at h
          exact absurd h (by simp)
    · split
      · intro h
        rename_i he
        cases h
        exact .inl (by rw [← he])
      · exact .inr
  acyclic := acyclic_link hw.acyclic c hc

theorem insert_eq_ok {w w' : Wiring} {c : Connection} (h : w.insert c = .ok w') :
    w.producerOf c.sink = none ∧ c.source.node ≠ c.sink.node ∧
      w.reaches c.sink.node c.source.node = false ∧ w' = w.link c := by
  unfold insert at h
  split at h
  · cases h
  · rename_i hfree
    split at h
    · cases h
    · rename_i hcycle
      cases h
      simp only [wouldCycle, Bool.or_eq_true, beq_iff_eq, not_or, Bool.not_eq_true] at hcycle
      refine ⟨?_, hcycle.1, hcycle.2, rfl⟩
      simpa [Dict.contains, producerOf] using hfree

theorem Sound.insert {w w' : Wiring} (hw : w.Sound) {c : Connection}
    (h : w.insert c = .ok w') : w'.Sound := by
  obtain ⟨hfree, -, hreach, rfl⟩ := insert_eq_ok h
  exact hw.link hfree (hw.not_reaches hreach)

/-- A connection to an unbound sink that closes no circle is accepted. -/
theorem Sound.insert_eq_link {w : Wiring} (hw : w.Sound) {c : Connection}
    (hfree : w.producerOf c.sink = none)
    (hc : ¬ ReflTransGen w.Feeds c.sink.node c.source.node) : w.insert c = .ok (w.link c) := by
  have hunbound : w.producers.contains c.sink = false := by
    rw [Dict.contains, ← producerOf, hfree]
    rfl
  have hne : c.source.node ≠ c.sink.node := fun he => hc (he ▸ .refl)
  have hreach : w.reaches c.sink.node c.source.node = false :=
    Bool.eq_false_iff.2 fun h => hc (hw.reaches_iff.1 h)
  rw [Wiring.insert, hunbound, wouldCycle, hreach, beq_eq_false_iff_ne.2 hne]
  rfl

/-! ## Fewer connections -/

/-- Every connection of the one wiring is one of the other. -/
def Within (w' w : Wiring) : Prop :=
  ∀ c : Connection, w'.producerOf c.sink = some c.source → w.producerOf c.sink = some c.source

theorem Within.refl (w : Wiring) : w.Within w := fun _ hc => hc

theorem Within.trans {w₁ w₂ w₃ : Wiring} (h : w₁.Within w₂) (h' : w₂.Within w₃) : w₁.Within w₃ :=
  fun c hc => h' c (h c hc)

theorem Within.feeds {w w' : Wiring} (h : w'.Within w) {u v : NodeId} (huv : w'.Feeds u v) :
    w.Feeds u v := by
  obtain ⟨c, hc, hu, hv⟩ := huv
  exact ⟨c, h c hc, hu, hv⟩

/-- A wiring that has lost connections and gained none has no new circle. -/
theorem acyclic_of_le {w w' : Wiring} (hw : WellFounded w.Feeds)
    (h : ∀ sink source, w'.producerOf sink = some source → w.producerOf sink = some source) :
    WellFounded w'.Feeds :=
  Subrelation.wf (fun ⟨c, hc, hu⟩ => ⟨c, h _ _ hc, hu⟩) hw

theorem producerOf_cut (w : Wiring) (c : Connection) (sink : PortRef) :
    (w.cut c).producerOf sink = if c.sink = sink then none else w.producerOf sink := by
  simp only [producerOf, cut, Dict.get?_erase, Std.compare_eq_iff_eq]

theorem contains_sinksOf_cut (w : Wiring) (c : Connection) (source sink : PortRef) :
    ((w.cut c).sinksOf source).contains sink = true ↔
      c ≠ ⟨source, sink⟩ ∧ (w.sinksOf source).contains sink = true := by
  have hrest : ((w.sinksOf c.source).erase c.sink).isEmpty = true →
      ∀ sink, (w.sinksOf c.source).contains sink = true → c.sink = sink := by
    intro h sink hs
    by_contra hne
    have hmem := Roster.mem_toList.2 ((Roster.contains_erase _ _ _).2 ⟨hne, hs⟩)
    simp [Dict.isEmpty] at h
    simp [Roster.toList, Dict.keys, h] at hmem
  have hconn : c = ⟨source, sink⟩ ↔ c.source = source ∧ c.sink = sink := Connection.ext_iff
  by_cases hs : c.source = source
  · subst hs
    have herase := Roster.contains_erase (w.sinksOf c.source) c.sink sink
    by_cases he : ((w.sinksOf c.source).erase c.sink).isEmpty = true
    · have hgone := hrest he sink
      rw [sinksOf, cut]
      simp only [he, if_true, Dict.get?_erase, Std.compare_eq_iff_eq]
      simp only [Option.getD_none, Dict.contains, Dict.get?_empty, Option.isSome_none,
        Bool.false_eq_true, false_iff, not_and]
      intro hne hsome
      exact hne (hconn.2 ⟨rfl, hgone hsome⟩)
    · rw [sinksOf, cut]
      simp only [he, Bool.false_eq_true, if_false, Dict.get?_insert_self, Option.getD_some]
      rw [herase, Ne, Ne, hconn]
      simp
  · have hne : c ≠ ⟨source, sink⟩ := fun e => hs (hconn.1 e).1
    rw [sinksOf, cut]
    simp only [hne, ne_eq, not_false_eq_true, true_and]
    split
    · simp only [Dict.get?_erase, Std.compare_eq_iff_eq, hs, if_false, sinksOf]
    · simp only [Dict.get?_insert, Std.compare_eq_iff_eq, hs, if_false, sinksOf]

theorem producerOf_cut_iff {w : Wiring} {a c : Connection}
    (ha : w.producerOf a.sink = some a.source) :
    (w.cut a).producerOf c.sink = some c.source ↔
      w.producerOf c.sink = some c.source ∧ c ≠ a := by
  rw [producerOf_cut]
  constructor
  · intro h
    split at h
    · cases h
    · rename_i hs
      exact ⟨h, fun e => hs (by rw [e])⟩
  · intro h
    rw [if_neg]
    · exact h.1
    · intro hs
      rw [hs, h.1] at ha
      exact h.2 (Connection.ext (Option.some.inj ha) hs.symm)

theorem Sound.cut {w : Wiring} (hw : w.Sound) {c : Connection}
    (hc : w.producerOf c.sink = some c.source) : (w.cut c).Sound where
  mirrored source sink := by
    have hcut := producerOf_cut_iff (c := ⟨source, sink⟩) hc
    rw [contains_sinksOf_cut, hw.mirrored, hcut, and_comm, ne_comm]
  acyclic := acyclic_of_le hw.acyclic fun sink source h =>
    ((producerOf_cut_iff (c := ⟨source, sink⟩) hc).1 h).1

theorem remove_eq_ok {w w' : Wiring} {c : Connection} (h : w.remove c = .ok w') :
    w.producerOf c.sink = some c.source ∧ w' = w.cut c := by
  unfold remove at h
  split at h
  · rename_i hc
    cases h
    exact ⟨contains_iff.1 hc, rfl⟩
  · cases h

theorem within_remove {w w' : Wiring} {c : Connection} (h : w.remove c = .ok w') :
    w'.Within w := by
  obtain ⟨hc, rfl⟩ := remove_eq_ok h
  exact fun c' hc' => ((producerOf_cut_iff hc).1 hc').1

theorem Sound.remove {w w' : Wiring} (hw : w.Sound) {c : Connection}
    (h : w.remove c = .ok w') : w'.Sound := by
  obtain ⟨hc, rfl⟩ := remove_eq_ok h
  exact hw.cut hc

/-- Taking away all of a list leaves the connections outside of it. -/
theorem Sound.removeAll {w : Wiring} (hw : w.Sound) (cs : List Connection) :
    let w' := cs.foldl (fun w c => (w.remove c).toOption.getD w) w
    w'.Sound ∧ ∀ c : Connection, w'.producerOf c.sink = some c.source ↔
      w.producerOf c.sink = some c.source ∧ c ∉ cs := by
  induction cs generalizing w with
  | nil => exact ⟨hw, by simp⟩
  | cons a rest ih =>
    rw [List.foldl_cons]
    by_cases ha : w.producerOf a.sink = some a.source
    · have hrem : (w.remove a).toOption.getD w = w.cut a := by
        rw [Wiring.remove, if_pos (contains_iff.2 ha)]
        rfl
      rw [hrem]
      obtain ⟨hsound, hmem⟩ := ih (hw.cut ha)
      refine ⟨hsound, fun c => ?_⟩
      rw [hmem, producerOf_cut_iff ha, List.mem_cons, not_or, and_assoc]
    · have hrem : (w.remove a).toOption.getD w = w := by
        rw [Wiring.remove, if_neg fun h => ha (contains_iff.1 h)]
        rfl
      rw [hrem]
      obtain ⟨hsound, hmem⟩ := ih hw
      refine ⟨hsound, fun c => ?_⟩
      rw [hmem, List.mem_cons, not_or]
      constructor
      · intro hex
        obtain ⟨h, hc⟩ := hex
        exact ⟨h, fun e => ha (e ▸ h), hc⟩
      · intro hex
        obtain ⟨h, -, hc⟩ := hex
        exact ⟨h, hc⟩

/-- A connection of a node to itself would be listed twice, but there is none. -/
theorem Sound.nodup_around {w : Wiring} (hw : w.Sound) (node : NodeId) :
    (w.incoming node ++ w.outgoing node).Nodup := by
  refine List.nodup_append'.2 ⟨w.nodup_incoming node, w.nodup_outgoing node, fun c hin hout => ?_⟩
  obtain ⟨h, hsink⟩ := mem_incoming.1 hin
  obtain ⟨-, hsource⟩ := mem_outgoing.1 hout
  exact hw.not_feeds_self node ⟨c, h, hsource, hsink⟩

theorem mem_removed {w : Wiring} (hw : w.Sound) {node : NodeId} {c : Connection} :
    c ∈ (w.removeNode node).2 ↔ w.producerOf c.sink = some c.source ∧
      (c.source.node = node ∨ c.sink.node = node) := by
  rw [removeNode, List.mem_append, mem_incoming, mem_outgoing, hw.mirrored]
  tauto

theorem Sound.removeNode {w : Wiring} (hw : w.Sound) (node : NodeId) :
    (w.removeNode node).1.Sound ∧
      ∀ c : Connection, (w.removeNode node).1.producerOf c.sink = some c.source ↔
        w.producerOf c.sink = some c.source ∧ c.source.node ≠ node ∧ c.sink.node ≠ node := by
  obtain ⟨hsound, hmem⟩ := hw.removeAll (w.removeNode node).2
  refine ⟨hsound, fun c => ?_⟩
  rw [show (w.removeNode node).1 = (w.removeNode node).2.foldl
    (fun w c => (w.remove c).toOption.getD w) w from rfl, hmem, mem_removed hw]
  tauto

theorem Sound.within_removeNode {w : Wiring} (hw : w.Sound) (node : NodeId) :
    (w.removeNode node).1.Within w :=
  fun c hc => (((hw.removeNode node).2 c).1 hc).1

end Patchbay.Wiring
