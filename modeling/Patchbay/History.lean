import Patchbay.Snapshot

/-!
# History

The snapshots between which a user goes back and forth. They are kept as texts, oldest first,
with the place of the present one. A new snapshot replaces all that lie after the present, and of
too many the oldest are forgotten.
-/

namespace Patchbay

open Json

/-- The texts of snapshots, at most `limit`, with the place of the present one. -/
structure History (σ : Type) where
  limit : Nat
  entries : List String
  index : Nat

namespace History

variable {σ : Type}

/-- A history without snapshots. At least one snapshot can be kept. -/
def new (limit : Nat) : History σ := ⟨max limit 1, [], 0⟩

def defaultLimit : Nat := 100

def size (h : History σ) : Nat := h.entries.length

def isEmpty (h : History σ) : Bool := h.entries.isEmpty

def canUndo (h : History σ) : Bool := 0 < h.index

def canRedo (h : History σ) : Bool := h.index + 1 < h.size

def clear (h : History σ) : History σ := { h with entries := [], index := 0 }

variable [NodeState σ]

def push (h : History σ) (s : Snapshot σ) : History σ :=
  let kept := h.entries.take (h.index + 1) ++ [(encode s).compact]
  let entries := kept.drop (kept.length - h.limit)
  { h with entries := entries, index := entries.length - 1 }

def entry? (h : History σ) (i : Nat) : Option (Except Error (Snapshot σ)) :=
  (h.entries[i]?).map Snapshot.ofText

def current? (h : History σ) : Option (Except Error (Snapshot σ)) := h.entry? h.index

/-- Go back one snapshot. At the first one nothing happens. -/
def undo (h : History σ) : History σ × Option (Except Error (Snapshot σ)) :=
  if h.canUndo then
    let h := { h with index := h.index - 1 }
    (h, h.current?)
  else (h, none)

/-- Go forward one snapshot. At the last one nothing happens. -/
def redo (h : History σ) : History σ × Option (Except Error (Snapshot σ)) :=
  if h.canRedo then
    let h := { h with index := h.index + 1 }
    (h, h.current?)
  else (h, none)

end History

end Patchbay
