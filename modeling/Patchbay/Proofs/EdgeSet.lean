import Mathlib.Data.Finset.Card
import Patchbay.Proofs.Wiring

/-!
# A wiring is a set of connections

A wiring holds its connections twice, and each question reads one of the two sides, most of them
by a scan that begins at a node and ends where the node ends. Seen from outside there is nothing
but a set of connections: every change changes the set by the connection that it names, or by
those of the node that it names, and every question asks for a part of the set.

`Shows` says that a wiring shows a set, `Acts` what a change does to a set. An insertion is
refused for two reasons only, and then nothing is changed.

What is proved here:
  1. `Trim.link`, `Trim.cut`: no source without sinks stays in the wiring.
  2. `Sound.shows`: the answer to each question, in order and without repeats.
  3. `acts_insert`, `acts_remove`, `acts_removeNode`: what each change does to the set.
  4. `refines_set`: after any changes a wiring shows a set, and goes on as the set does.
-/

namespace Patchbay.Wiring

open Relation

/-! ## Changes and sets -/

/-- A change of the connections. -/
inductive Change where
  | insert (c : Connection)
  | remove (c : Connection)
  | removeNode (node : NodeId)

inductive Reply where
  | inserted
  | gone (cs : List Connection)
  | refused (error : Error)

/-- The wiring after a change, which leaves it as it is if it is refused. -/
def apply (w : Wiring) : Change → Wiring × Reply
  | .insert c =>
    match w.insert c with
    | .ok w' => (w', .inserted)
    | .error error => (w, .refused error)
  | .remove c =>
    match w.remove c with
    | .ok w' => (w', .gone [c])
    | .error error => (w, .refused error)
  | .removeNode node => ((w.removeNode node).1, .gone (w.removeNode node).2)

/-- The wiring after some changes of the empty one. -/
def after (changes : List Change) : Wiring :=
  changes.foldl (fun w change => (w.apply change).1) .empty

def SinkBefore (c d : Connection) : Prop := compare c.sink d.sink = .lt

/-- Smaller sources first, and for one source smaller sinks. -/
def SourceBefore (c d : Connection) : Prop :=
  compare c.source d.source = .lt ∨ c.source = d.source ∧ compare c.sink d.sink = .lt

/-- The list has those members of which `P` holds, each once and in order. -/
structure Lists {α : Type} (before : α → α → Prop) (P : α → Prop) (l : List α) : Prop where
  mem : ∀ a, a ∈ l ↔ P a
  ordered : l.Pairwise before

/-- Some connection of the set leads from one node to the other. -/
def Leads (E : Finset Connection) (u v : NodeId) : Prop :=
  ∃ c ∈ E, c.source.node = u ∧ c.sink.node = v

def Trim (w : Wiring) : Prop :=
  ∀ source sinks, w.consumers.get? source = some sinks → sinks.isEmpty = false

/-- The answers of the wiring are those of the set. -/
structure Shows (w : Wiring) (E : Finset Connection) : Prop where
  inverse : ∀ source sink, w.producers.get? sink = some source ↔
    ∃ sinks, w.consumers.get? source = some sinks ∧ sinks.contains sink = true
  trim : w.Trim
  producerOf : ∀ source sink, w.producerOf sink = some source ↔ ⟨source, sink⟩ ∈ E
  consumersOf : ∀ source,
    Lists (fun a b => compare a b = .lt) (fun sink => ⟨source, sink⟩ ∈ E) (w.consumersOf source)
  incoming : ∀ node, Lists SinkBefore (fun c => c ∈ E ∧ c.sink.node = node) (w.incoming node)
  outgoing : ∀ node, Lists SourceBefore (fun c => c ∈ E ∧ c.source.node = node) (w.outgoing node)
  feeders : ∀ v, Lists (fun a b => compare a b = .lt) (fun u => Leads E u v) (w.feeders v)
  downstream : ∀ u, Lists (fun a b => compare a b = .lt) (fun v => Leads E u v) (w.downstream u)
  connections : Lists SinkBefore (· ∈ E) w.connections
  contains : ∀ c, w.contains c = true ↔ c ∈ E
  size : w.size = E.card
  isEmpty : w.isEmpty = true ↔ E = ∅

/-- What a change does to a set of connections, and what it gives. -/
inductive Acts (E : Finset Connection) : Change → Reply → Finset Connection → Prop
  | inserted (c : Connection) (hfree : ∀ c' ∈ E, c'.sink ≠ c.sink)
    (hopen : ¬ ReflTransGen (Leads E) c.sink.node c.source.node) :
    Acts E (.insert c) .inserted (E ∪ {c})
  | bound (c c' : Connection) (hc' : c' ∈ E) (hsink : c'.sink = c.sink) :
    Acts E (.insert c) (.refused (.sinkAlreadyBound c.sink)) E
  | circle (c : Connection) (hfree : ∀ c' ∈ E, c'.sink ≠ c.sink)
    (hclosed : ReflTransGen (Leads E) c.sink.node c.source.node) :
    Acts E (.insert c) (.refused (.cycle c.source.node c.sink.node)) E
  | removed (c : Connection) (hc : c ∈ E) : Acts E (.remove c) (.gone [c]) (E.erase c)
  | absent (c : Connection) (hc : c ∉ E) :
    Acts E (.remove c) (.refused (.connectionNotFound c)) E
  | cleared (node : NodeId) (ins outs : List Connection)
    (hins : Lists SinkBefore (fun c => c ∈ E ∧ c.sink.node = node) ins)
    (houts : Lists SourceBefore (fun c => c ∈ E ∧ c.source.node = node) outs)
    (honce : (ins ++ outs).Nodup) :
    Acts E (.removeNode node) (.gone (ins ++ outs))
      (E.filter fun c => c.source.node ≠ node ∧ c.sink.node ≠ node)

/-! ## No source without sinks -/

theorem trim_empty : Wiring.empty.Trim := fun _ _ h => nomatch h

theorem isEmpty_add (s : Roster PortRef) (sink : PortRef) : (s.add sink).isEmpty = false := by
  have hmem : sink ∈ (s.add sink).toList :=
    Roster.mem_toList.2 ((Roster.contains_add s sink sink).2 (.inl rfl))
  cases h : (s.add sink).isEmpty with
  | false => rfl
  | true =>
    rw [Dict.isEmpty, List.isEmpty_iff] at h
    rw [Roster.toList, Dict.keys, h] at hmem
    cases hmem

variable {w : Wiring}

theorem Trim.link (h : w.Trim) (c : Connection) : (w.link c).Trim := by
  intro source sinks hget
  rw [Wiring.link, Dict.get?_insert] at hget
  split at hget
  · cases hget
    exact isEmpty_add _ _
  · exact h source sinks hget

theorem Trim.cut (h : w.Trim) (c : Connection) : (w.cut c).Trim := by
  intro source sinks hget
  simp only [Wiring.cut] at hget
  split at hget
  · rw [Dict.get?_erase] at hget
    split at hget
    · cases hget
    · exact h source sinks hget
  · rename_i hrest
    rw [Dict.get?_insert] at hget
    split at hget
    · cases hget
      exact Bool.eq_false_iff.2 hrest
    · exact h source sinks hget

theorem Trim.insert {w' : Wiring} {c : Connection} (h : w.Trim) (hinsert : w.insert c = .ok w') :
    w'.Trim := by
  obtain ⟨-, -, -, rfl⟩ := insert_eq_ok hinsert
  exact h.link c

theorem Trim.remove {w' : Wiring} {c : Connection} (h : w.Trim) (hremove : w.remove c = .ok w') :
    w'.Trim := by
  obtain ⟨-, rfl⟩ := remove_eq_ok hremove
  exact h.cut c

theorem Trim.removeAll (h : w.Trim) (cs : List Connection) :
    (cs.foldl (fun w c => (w.remove c).toOption.getD w) w).Trim := by
  induction cs generalizing w with
  | nil => exact h
  | cons c rest ih =>
    rw [List.foldl_cons]
    refine ih ?_
    cases hremove : w.remove c with
    | error error => exact h
    | ok w' => exact h.remove hremove

/-! ## Questions -/

/-- The connections of a wiring as a set. -/
def edges (w : Wiring) : Finset Connection := w.connections.toFinset

theorem mem_edges {c : Connection} : c ∈ w.edges ↔ w.producerOf c.sink = some c.source := by
  rw [edges, List.mem_toFinset, mem_connections]

theorem leads_edges {u v : NodeId} : Leads w.edges u v ↔ w.Feeds u v :=
  exists_congr fun _ => and_congr_left' mem_edges

theorem ordered_connections (w : Wiring) : w.connections.Pairwise SinkBefore :=
  List.pairwise_map.2 w.producers.sorted

theorem nodup_connections (w : Wiring) : w.connections.Nodup := by
  refine w.ordered_connections.imp fun {c d} hlt heq => ?_
  rw [SinkBefore, heq, Std.ReflOrd.compare_self] at hlt
  cases hlt

theorem ordered_incoming (w : Wiring) (node : NodeId) : (w.incoming node).Pairwise SinkBefore := by
  rw [incoming, scan_eq_filter]
  exact List.pairwise_map.2 (w.producers.sorted.filter _)

theorem ordered_outgoing (w : Wiring) (node : NodeId) :
    (w.outgoing node).Pairwise SourceBefore := by
  rw [outgoing, scan_eq_filter, List.pairwise_flatMap]
  constructor
  · intro e _
    refine List.pairwise_map.2 ?_
    exact (List.pairwise_map.2 e.2.sorted : e.2.toList.Pairwise _).imp fun hlt => .inr ⟨rfl, hlt⟩
  · refine (w.consumers.sorted.filter _).imp fun {a b} hlt c hc d hd => ?_
    obtain ⟨_, _, rfl⟩ := List.mem_map.1 hc
    obtain ⟨_, _, rfl⟩ := List.mem_map.1 hd
    exact .inl hlt

theorem Sound.shows (h : w.Sound) (htrim : w.Trim) : w.Shows w.edges where
  inverse source sink := by
    rw [← Wiring.producerOf, ← h.mirrored, contains_sinksOf]
    exact exists_congr fun sinks => and_congr_right fun _ => Roster.mem_toList
  trim := htrim
  producerOf source sink := (mem_edges (c := ⟨source, sink⟩)).symm
  consumersOf source := by
    refine ⟨fun sink => ?_, List.pairwise_map.2 (Dict.sorted _)⟩
    rw [Wiring.consumersOf, Roster.mem_toList, h.mirrored]
    exact (mem_edges (c := ⟨source, sink⟩)).symm
  incoming node :=
    ⟨fun c => mem_incoming.trans (and_congr_left' mem_edges.symm), w.ordered_incoming node⟩
  outgoing node := by
    refine ⟨fun c => mem_outgoing.trans (and_congr_left' ?_), w.ordered_outgoing node⟩
    rw [h.mirrored]
    exact mem_edges.symm
  feeders v := ⟨fun u => mem_feeders.trans leads_edges.symm, w.sorted_feeders v⟩
  downstream u :=
    ⟨fun v => h.mem_downstream.trans leads_edges.symm, List.pairwise_map.2 (Dict.sorted _)⟩
  connections := ⟨fun c => mem_connections.trans mem_edges.symm, w.ordered_connections⟩
  contains c := contains_iff.trans mem_edges.symm
  size := by
    rw [edges, List.toFinset_card_of_nodup w.nodup_connections, Wiring.connections,
      List.length_map]
    rfl
  isEmpty := by
    rw [edges, List.toFinset_eq_empty_iff, Wiring.connections, List.map_eq_nil_iff,
      Wiring.isEmpty, Dict.isEmpty, List.isEmpty_iff]

/-! ## Changes -/

/-- A set is known by the connections that a wiring with it has. -/
theorem edges_eq {E : Finset Connection}
    (h : ∀ c : Connection, w.producerOf c.sink = some c.source ↔ c ∈ E) : w.edges = E :=
  Finset.ext fun c => mem_edges.trans (h c)

theorem producerOf_eq_none {c : Connection} :
    w.producerOf c.sink = none ↔ ∀ c' ∈ w.edges, c'.sink ≠ c.sink := by
  constructor
  · intro hnone c' hc' hsink
    rw [mem_edges, hsink, hnone] at hc'
    cases hc'
  · intro hfree
    cases hsource : w.producerOf c.sink with
    | none => rfl
    | some source => exact absurd rfl (hfree ⟨source, c.sink⟩ (mem_edges.2 hsource))

theorem edges_link {c : Connection} (hfree : w.producerOf c.sink = none) :
    (w.link c).edges = w.edges ∪ {c} := by
  refine edges_eq fun d => ?_
  rw [Finset.mem_union, Finset.mem_singleton, mem_edges, producerOf_link]
  split
  · rename_i hsink
    rw [← hsink, hfree]
    constructor
    · intro hsource
      exact .inr (Connection.ext (Option.some.inj hsource).symm hsink.symm)
    · rintro (hsource | rfl)
      · cases hsource
      · rfl
  · rename_i hsink
    exact ⟨.inl, fun hor => hor.resolve_right fun heq => hsink (heq ▸ rfl)⟩

theorem edges_cut {c : Connection} (hc : w.producerOf c.sink = some c.source) :
    (w.cut c).edges = w.edges.erase c := by
  refine edges_eq fun d => ?_
  rw [Finset.mem_erase, mem_edges, producerOf_cut_iff hc, and_comm]

theorem insert_eq_error (h : w.Sound) {c : Connection} {error : Error}
    (herror : w.insert c = .error error) :
    (∃ source, w.producerOf c.sink = some source ∧ error = .sinkAlreadyBound c.sink) ∨
      w.producerOf c.sink = none ∧ ReflTransGen w.Feeds c.sink.node c.source.node ∧
        error = .cycle c.source.node c.sink.node := by
  cases hsource : w.producerOf c.sink with
  | some source =>
    have hbound : w.producers.contains c.sink = true := by
      rw [Dict.contains, ← Wiring.producerOf, hsource]
      rfl
    rw [Wiring.insert, if_pos hbound] at herror
    cases herror
    exact .inl ⟨source, rfl, rfl⟩
  | none =>
    refine .inr ⟨rfl, ?_, ?_⟩
    · by_contra hopen
      rw [h.insert_eq_link hsource hopen] at herror
      cases herror
    · have hunbound : ¬ w.producers.contains c.sink = true := by
        rw [Dict.contains, ← Wiring.producerOf, hsource]
        decide
      rw [Wiring.insert, if_neg hunbound] at herror
      split at herror
      · cases herror
        rfl
      · cases herror

theorem reaches_leads {u v : NodeId} :
    ReflTransGen (Leads w.edges) u v ↔ ReflTransGen w.Feeds u v := by
  have heq : Leads w.edges = w.Feeds := funext fun u => funext fun v => propext leads_edges
  rw [heq]

theorem acts_insert (h : w.Sound) (c : Connection) :
    Acts w.edges (.insert c) (w.apply (.insert c)).2 (w.apply (.insert c)).1.edges := by
  cases hinsert : w.insert c with
  | ok w' =>
    obtain ⟨hfree, -, hreach, rfl⟩ := insert_eq_ok hinsert
    simp only [apply, hinsert, edges_link hfree]
    refine .inserted c (producerOf_eq_none.1 hfree) fun hclosed => ?_
    exact h.not_reaches hreach (reaches_leads.1 hclosed)
  | error error =>
    simp only [apply, hinsert]
    rcases insert_eq_error h hinsert with ⟨source, hsource, rfl⟩ | ⟨hfree, hclosed, rfl⟩
    · exact .bound c ⟨source, c.sink⟩ (mem_edges.2 hsource) rfl
    · exact .circle c (producerOf_eq_none.1 hfree) (reaches_leads.2 hclosed)

theorem acts_remove (w : Wiring) (c : Connection) :
    Acts w.edges (.remove c) (w.apply (.remove c)).2 (w.apply (.remove c)).1.edges := by
  by_cases hc : w.contains c = true
  · have hsource := contains_iff.1 hc
    simp only [apply, Wiring.remove, if_pos hc, edges_cut hsource]
    exact .removed c (mem_edges.2 hsource)
  · simp only [apply, Wiring.remove, if_neg hc]
    exact .absent c fun hmem => hc (contains_iff.2 (mem_edges.1 hmem))

theorem acts_removeNode (h : w.Sound) (htrim : w.Trim) (node : NodeId) :
    Acts w.edges (.removeNode node) (w.apply (.removeNode node)).2
      (w.apply (.removeNode node)).1.edges := by
  have hshows := h.shows htrim
  have hedges : (w.removeNode node).1.edges =
      w.edges.filter fun c => c.source.node ≠ node ∧ c.sink.node ≠ node :=
    edges_eq fun c => by rw [(h.removeNode node).2 c, Finset.mem_filter, mem_edges]
  rw [apply, hedges]
  exact .cleared node _ _ (hshows.incoming node) (hshows.outgoing node) (h.nodup_around node)

/-! ## Any changes -/

theorem kept_apply (h : w.Sound) (htrim : w.Trim) (change : Change) :
    (w.apply change).1.Sound ∧ (w.apply change).1.Trim := by
  cases change with
  | insert c =>
    rw [apply]
    split
    · rename_i w' hinsert
      exact ⟨h.insert hinsert, htrim.insert hinsert⟩
    · exact ⟨h, htrim⟩
  | remove c =>
    rw [apply]
    split
    · rename_i w' hremove
      exact ⟨h.remove hremove, htrim.remove hremove⟩
    · exact ⟨h, htrim⟩
  | removeNode node => exact ⟨(h.removeNode node).1, htrim.removeAll _⟩

theorem kept_after (changes : List Change) : (after changes).Sound ∧ (after changes).Trim := by
  suffices hfold : ∀ w : Wiring, w.Sound → w.Trim →
      (changes.foldl (fun w change => (w.apply change).1) w).Sound ∧
        (changes.foldl (fun w change => (w.apply change).1) w).Trim from
    hfold .empty .empty trim_empty
  induction changes with
  | nil => exact fun w h htrim => ⟨h, htrim⟩
  | cons change rest ih =>
    intro w h htrim
    obtain ⟨h', htrim'⟩ := kept_apply h htrim change
    exact ih _ h' htrim'

/-- The empty wiring shows the empty set, and after any changes a wiring shows some set. The next
change, whatever it is, gives what it gives of that set, and then the wiring shows the set that
comes out of it. -/
theorem refines_set : Wiring.empty.Shows ∅ ∧ ∀ changes : List Change,
    ∃ E : Finset Connection, (after changes).Shows E ∧
      ∀ change, ∃ E' : Finset Connection, Acts E change ((after changes).apply change).2 E' ∧
        (after (changes ++ [change])).Shows E' := by
  refine ⟨Sound.empty.shows trim_empty, fun changes => ?_⟩
  obtain ⟨h, htrim⟩ := kept_after changes
  refine ⟨(after changes).edges, h.shows htrim, fun change => ?_⟩
  obtain ⟨h', htrim'⟩ := kept_apply h htrim change
  refine ⟨((after changes).apply change).1.edges, ?_, ?_⟩
  · cases change with
    | insert c => exact acts_insert h c
    | remove c => exact acts_remove _ c
    | removeNode node => exact acts_removeNode h htrim node
  · rw [after, List.foldl_append]
    exact h'.shows htrim'

/-- Neighbours in the order are told apart: the empty identity, one that another begins with, and
ports of all of them. -/
example :
    let w := after [.insert ⟨⟨"", ""⟩, ⟨"a", ""⟩⟩, .insert ⟨⟨"", "b"⟩, ⟨"ab", ""⟩⟩,
      .insert ⟨⟨"a", "b"⟩, ⟨"ab", "c"⟩⟩, .insert ⟨⟨"ab", ""⟩, ⟨"a", "c"⟩⟩]
    (w.incoming "a", w.incoming "ab", w.outgoing "") =
      ([⟨⟨"", ""⟩, ⟨"a", ""⟩⟩], [⟨⟨"", "b"⟩, ⟨"ab", ""⟩⟩, ⟨⟨"a", "b"⟩, ⟨"ab", "c"⟩⟩],
        [⟨⟨"", ""⟩, ⟨"a", ""⟩⟩, ⟨⟨"", "b"⟩, ⟨"ab", ""⟩⟩]) := by
  decide +kernel

end Patchbay.Wiring
