import Patchbay.Error

/-!
# Wiring

The connections of a graph, held in both directions: the source that feeds each sink, and the
sinks that each source feeds. A sink has at most one source, and no chain of connections leads
from a node back to itself; `insert` refuses a connection that would break either rule.

Whether the ports exist is not known here: a wiring sees identities only.

What is proved here:
  1. `scan_eq_filter`: the entries at ports of one node stand together, and a scan that begins at
     the first of them finds them all.
  2. `load_close`, which bounds every traversal of a wiring by the number of connections that
     leave the nodes it has not expanded yet.
-/

namespace Patchbay

/-- The connections of a graph, twice: the source of each bound sink, and the sinks of each source
that feeds any. -/
structure Wiring where
  producers : Dict PortRef PortRef
  consumers : Dict PortRef (Roster PortRef)
  deriving DecidableEq

namespace Wiring

def empty : Wiring := ⟨.empty, .empty⟩

instance : Inhabited Wiring := ⟨empty⟩

def producerOf (w : Wiring) (sink : PortRef) : Option PortRef := w.producers.get? sink

def sinksOf (w : Wiring) (source : PortRef) : Roster PortRef :=
  (w.consumers.get? source).getD .empty

def consumersOf (w : Wiring) (source : PortRef) : List PortRef := (w.sinksOf source).toList

def connections (w : Wiring) : List Connection := w.producers.entries.map fun e => ⟨e.2, e.1⟩

def contains (w : Wiring) (c : Connection) : Bool := w.producerOf c.sink == some c.source

def size (w : Wiring) : Nat := w.producers.size

def isEmpty (w : Wiring) : Bool := w.producers.isEmpty

/-- The entries at ports of one node. They begin at the least port that the node could have and go
on as long as the ports are its own. -/
def scan {ν : Type} (d : Dict PortRef ν) (node : NodeId) : List (PortRef × ν) :=
  (d.entriesFrom ⟨node, ""⟩).takeWhile (·.1.node == node)

/-- The connections that end on a node, in the order of the sinks. -/
def incoming (w : Wiring) (node : NodeId) : List Connection :=
  (scan w.producers node).map fun e => ⟨e.2, e.1⟩

/-- The connections that start on a node, in the order of the sources, then of the sinks. -/
def outgoing (w : Wiring) (node : NodeId) : List Connection :=
  (scan w.consumers node).flatMap fun e => e.2.toList.map fun sink => ⟨e.1, sink⟩

/-- The nodes that read an output of a node, in order, each once. -/
def downstream (w : Wiring) (node : NodeId) : List NodeId :=
  (Roster.ofList ((w.outgoing node).map (·.sink.node))).toList

def feeders (w : Wiring) (node : NodeId) : List NodeId :=
  (Roster.ofList ((w.incoming node).map (·.source.node))).toList

/-! ## Scans -/

theorem compare_empty_ne_lt (s : String) : compare s "" ≠ .lt := by
  intro h
  have hlt : s < "" := compareOfLessAndEq_eq_lt.1 h
  exact List.not_lt_nil _ (String.lt_iff.1 hlt)

theorem compare_portRef (a b : PortRef) :
    compare a b = (compare a.node b.node).then (compare a.port b.port) := rfl

theorem compare_first_eq_lt {p : PortRef} {node : NodeId} :
    compare p ⟨node, ""⟩ = .lt ↔ compare p.node node = .lt := by
  rw [compare_portRef]
  cases h : compare p.node node with
  | lt => simp
  | eq => simpa using compare_empty_ne_lt p.port
  | gt => simp

/-- Once the ports of a node are over in a sorted list, none follow. -/
theorem takeWhile_eq_filter {ν : Type} {node : NodeId} {l : List (PortRef × ν)}
    (hl : l.Pairwise fun a b => compare a.1 b.1 = .lt)
    (hfrom : ∀ e ∈ l, compare e.1.node node ≠ .lt) :
    l.takeWhile (·.1.node == node) = l.filter (·.1.node == node) := by
  induction l with
  | nil => rfl
  | cons e rest ih =>
    obtain ⟨he, hrest⟩ := List.pairwise_cons.1 hl
    by_cases hn : e.1.node = node
    · have ih := ih hrest fun e he => hfrom e (List.mem_cons_of_mem _ he)
      simp [hn, ih]
    · have hgt : compare node e.1.node = .lt := by
        have hle := hfrom e List.mem_cons_self
        have hne : compare e.1.node node ≠ .eq := fun h => hn (Std.compare_eq_iff_eq.1 h)
        rw [Std.OrientedOrd.eq_swap (a := node)]
        cases h : compare e.1.node node <;> simp_all
      have hnone : rest.filter (·.1.node == node) = [] := by
        refine List.filter_eq_nil_iff.2 fun e' he' h => ?_
        have hlt := he e' he'
        rw [compare_portRef, eq_of_beq h, Std.OrientedOrd.eq_swap (a := e.1.node), hgt] at hlt
        cases hlt
      simp [hn, hnone]

/-- The entries at ports of one node are those that a scan finds. -/
theorem scan_eq_filter {ν : Type} (d : Dict PortRef ν) (node : NodeId) :
    scan d node = d.entries.filter (·.1.node == node) := by
  have hbelow : (d.entries.takeWhile fun e => compare e.1 ⟨node, ""⟩ == .lt).filter
      (·.1.node == node) = [] := by
    refine List.filter_eq_nil_iff.2 fun e he h => ?_
    have hlt := List.all_eq_true.1 List.all_takeWhile e he
    rw [beq_iff_eq, compare_first_eq_lt, eq_of_beq h, Std.ReflOrd.compare_self] at hlt
    cases hlt
  have hfrom : scan d node = (d.entriesFrom ⟨node, ""⟩).filter (·.1.node == node) :=
    takeWhile_eq_filter (d.sorted_entriesFrom _) fun e he hlt =>
      Dict.ne_lt_of_mem_entriesFrom he (compare_first_eq_lt.2 hlt)
  rw [hfrom, Dict.entriesFrom, ← List.nil_append (List.filter _ _), ← hbelow, ← List.filter_append,
    List.takeWhile_append_dropWhile]

/-! ## The cost of a traversal -/

/-- How many connections leave the nodes that are still open. -/
def load (w : Wiring) (isOpen : NodeId → Bool) : Nat :=
  ((w.consumers.entries.filter fun e => isOpen e.1.node).flatMap fun e => e.2.toList).length

theorem length_outgoing (w : Wiring) (node : NodeId) :
    (w.outgoing node).length = w.load (· == node) := by
  simp only [outgoing, load, scan_eq_filter]
  induction w.consumers.entries.filter (·.1.node == node) with
  | nil => rfl
  | cons e rest ih => simp only [List.flatMap_cons, List.length_append, List.length_map, ih]

theorem length_downstream (w : Wiring) (node : NodeId) :
    (w.downstream node).length ≤ w.load (· == node) := by
  have h := Roster.length_toList_ofList ((w.outgoing node).map (·.sink.node))
  rw [List.length_map, length_outgoing] at h
  exact h

theorem load_close (w : Wiring) (isOpen closed : NodeId → Bool) (node : NodeId)
    (hopen : isOpen node = true) (hclosed : closed node = false)
    (hle : ∀ m, closed m = true → isOpen m = true) :
    w.load closed + (w.downstream node).length ≤ w.load isOpen := by
  apply Nat.le_trans (Nat.add_le_add_left (w.length_downstream node) _)
  simp only [load]
  induction w.consumers.entries with
  | nil => simp
  | cons e rest ih =>
    have hm := hle e.1.node
    by_cases hn : e.1.node = node
    · simp only [List.filter_cons, hn, hclosed, hopen, beq_self_eq_true, if_true,
        Bool.false_eq_true, if_false, List.flatMap_cons, List.length_append]
      omega
    · have hne : (e.1.node == node) = false := by simpa using hn
      cases hc : closed e.1.node
      · cases ho : isOpen e.1.node <;>
          simp only [List.filter_cons, hne, hc, ho, if_true, Bool.false_eq_true, if_false,
            List.flatMap_cons, List.length_append] <;> omega
      · simp only [List.filter_cons, hne, hc, hm hc, if_true, Bool.false_eq_true, if_false,
          List.flatMap_cons, List.length_append]
        omega

/-! ## Reachability -/

/-- Whether a breadth-first walk from the queued nodes meets `target`; nodes in `visited` are
expanded already. -/
def walk (w : Wiring) (target : NodeId) (visited : List NodeId) : List NodeId → Bool
  | [] => false
  | node :: queue =>
    if node = target then true
    else if _h : visited.contains node then walk w target visited queue
    else walk w target (node :: visited) (queue ++ w.downstream node)
termination_by queue => queue.length + w.load fun m => !visited.contains m
decreasing_by
  · simp only [List.length_cons]
    omega
  · have h := w.load_close (fun m => !visited.contains m)
      (fun m => !(node :: visited).contains m) node (by simpa using _h) (by simp)
      (by simp)
    simp only [List.length_cons, List.length_append]
    omega

def reaches (w : Wiring) (start target : NodeId) : Bool := w.walk target [] [start]

def wouldCycle (w : Wiring) (source sink : NodeId) : Bool :=
  source == sink || w.reaches sink source

/-! ## Changes -/

def link (w : Wiring) (c : Connection) : Wiring where
  producers := w.producers.insert c.sink c.source
  consumers := w.consumers.insert c.source ((w.sinksOf c.source).add c.sink)

/-- Take a connection away. A source that feeds no sink any more has no entry. -/
def cut (w : Wiring) (c : Connection) : Wiring where
  producers := w.producers.erase c.sink
  consumers :=
    let rest := (w.sinksOf c.source).erase c.sink
    if rest.isEmpty then w.consumers.erase c.source else w.consumers.insert c.source rest

/-- Add a connection, unless its sink is bound or it would close a circle. -/
def insert (w : Wiring) (c : Connection) : Except Error Wiring :=
  if w.producers.contains c.sink then .error (.sinkAlreadyBound c.sink)
  else if w.wouldCycle c.source.node c.sink.node then
    .error (.cycle c.source.node c.sink.node)
  else .ok (w.link c)

def remove (w : Wiring) (c : Connection) : Except Error Wiring :=
  if w.contains c then .ok (w.cut c) else .error (.connectionNotFound c)

/-- Take every connection of a node away, and list them: the incoming ones first. -/
def removeNode (w : Wiring) (node : NodeId) : Wiring × List Connection :=
  let removed := w.incoming node ++ w.outgoing node
  (removed.foldl (fun w c => (w.remove c).toOption.getD w) w, removed)

end Wiring

end Patchbay
