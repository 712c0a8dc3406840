import Patchbay.Event

/-!
# Mirrors

What a host knows of a graph if all it has is the log: the nodes with their types, which of them
are stale, and the connections. A mirror is made from the announcements alone, one after another.
-/

namespace Patchbay

/-- The side of a node that announcements tell of. -/
structure Face where
  type : String
  stale : Bool
  deriving DecidableEq, Repr

/-- A graph as the announcements tell it. -/
structure Mirror where
  nodes : Dict NodeId Face
  connections : List Connection

namespace Mirror

def empty : Mirror := ⟨.empty, []⟩

def flag (m : Mirror) (stale : Bool) (id : NodeId) : Mirror :=
  { m with nodes := m.nodes.modify id ({ · with stale := stale }) }

def flagAll (m : Mirror) (stale : Bool) (ids : List NodeId) : Mirror :=
  ids.foldl (fun m id => m.flag stale id) m

def apply (m : Mirror) : Event → Mirror
  | .nodeCreated id type => { m with nodes := m.nodes.insert id ⟨type, true⟩ }
  | .nodeRemoved id cs =>
    { nodes := m.nodes.erase id, connections := m.connections.filter (!cs.contains ·) }
  | .connected c => { m with connections := c :: m.connections }
  | .disconnected c => { m with connections := m.connections.filter (· != c) }
  | .nodesInvalidated ids => m.flagAll true ids
  | .nodeCompleted id _ upToDate => if upToDate then m.flag false id else m
  | .nodeStateChanged _ | .nodeStarted _ | .nodeFailed _ _ | .nodesBlocked _
  | .resultDiscarded _ => m

def applyAll (m : Mirror) (events : List Event) : Mirror := events.foldl apply m

def ofLog (log : List Event) : Mirror := empty.applyAll log

theorem applyAll_append (m : Mirror) (a b : List Event) :
    m.applyAll (a ++ b) = (m.applyAll a).applyAll b :=
  List.foldl_append

/-- A change of state is of no concern to a mirror. -/
theorem applyAll_stateChanges (m : Mirror) (ids : List NodeId) :
    m.applyAll (Event.stateChanges ids) = m := by
  induction ids with
  | nil => rfl
  | cons id rest ih => exact ih

theorem connections_flagAll (m : Mirror) (stale : Bool) (ids : List NodeId) :
    (m.flagAll stale ids).connections = m.connections := by
  induction ids generalizing m with
  | nil => rfl
  | cons id rest ih => exact ih (m.flag stale id)

theorem get?_flag (m : Mirror) (stale : Bool) (id k : NodeId) :
    (m.flag stale id).nodes.get? k =
      if id = k then (m.nodes.get? k).map ({ · with stale := stale }) else m.nodes.get? k := by
  simp only [flag, Dict.get?_modify, Std.compare_eq_iff_eq]

theorem get?_flagAll (m : Mirror) (ids : List NodeId) (k : NodeId) :
    (m.flagAll true ids).nodes.get? k =
      (m.nodes.get? k).map fun f => { f with stale := f.stale || decide (k ∈ ids) } := by
  induction ids generalizing m with
  | nil => simp [flagAll]
  | cons id rest ih =>
    have hcons : m.flagAll true (id :: rest) = (m.flag true id).flagAll true rest := rfl
    rw [hcons, ih, get?_flag]
    split
    · rename_i h
      subst h
      cases m.nodes.get? id <;> simp
    · rename_i h
      have hmem : k ∈ id :: rest ↔ k ∈ rest := by simp [Ne.symm h]
      simp only [hmem]

theorem applyAll_invalidated (m : Mirror) (ids : List NodeId) :
    m.applyAll (Event.invalidated ids) = m.flagAll true ids := by
  cases ids <;> rfl

/-- Connections that are reported gone one after another are gone, and nothing else is. -/
theorem applyAll_disconnected (m : Mirror) (cs : List Connection) :
    (m.applyAll (cs.map .disconnected)).nodes = m.nodes ∧
      ∀ c, c ∈ (m.applyAll (cs.map .disconnected)).connections ↔ c ∈ m.connections ∧ c ∉ cs := by
  induction cs generalizing m with
  | nil => simp [applyAll]
  | cons a rest ih =>
    obtain ⟨hnodes, hconns⟩ := ih (m.apply (.disconnected a))
    refine ⟨hnodes, fun c => (hconns c).trans ?_⟩
    simp only [apply, List.mem_filter, List.mem_cons, bne_iff_ne, not_or, and_assoc]

end Mirror

end Patchbay
