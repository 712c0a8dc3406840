import Patchbay.Proofs.Saving

/-!
# The saved format

The text of a snapshot says all that is saved of it. A snapshot need not be one of a graph: ids
may occur twice, connections may lead nowhere, and a status or a claim may be anything. What the
format has is a matter of the doubles and of the depth, and both can be checked.

What is proved here:
  1. `Snapshot.Legible` is decidable.
  2. `Snapshot.text_written`: the counters, which are left out, do not show in the text.
  3. `Snapshot.same_written_of_text_eq`: snapshots with one text differ in their counters only.
  4. `Snapshot.text_survives`: a text reads back to the snapshot that it was written from, for
     both node sets.
-/

namespace Patchbay

open Json Lossless

/-! ## What the format has -/

deriving instance DecidableEq for Json.Number, Json.Token

instance : DecidablePred Json.Number.Legible := fun n =>
  inferInstanceAs (Decidable (Token.next? n.text.toList = some (.number (some n), [])))

variable {σ : Type} [NodeState σ] [Lossless σ]

namespace Snapshot

theorem legible_iff {s : Snapshot σ} : s.Legible ↔ (∀ n ∈ s.nodes, Writable n.state) ∧
    (∀ n ∈ s.nodes, Writable n.outputs) ∧ (∀ x ∈ (encode s).numbers, x.Legible) ∧
    (encode s).depth ≤ Document.depthLimit :=
  ⟨fun h => ⟨h.states, h.outputs, h.numbers, h.depth⟩, fun ⟨hs, ho, hn, hd⟩ => ⟨hs, ho, hn, hd⟩⟩

instance : DecidablePred (Legible (σ := σ)) := fun _ => decidable_of_iff _ legible_iff.symm

end Snapshot

/-! ## What the text says -/

/-- The second node has all that is written of the first, and its counters are at zero. -/
structure Node.Kept (n n' : Node σ) : Prop extends n.Saved n' where
  claimed : n'.claimed = n.claimed
  epoch : n'.epoch = 0
  run : n'.run = 0

omit [NodeState σ] [Lossless σ] in
theorem Node.kept_written (n : Node σ) : n.Kept n.written :=
  ⟨⟨rfl, rfl, rfl, rfl, rfl, rfl⟩, rfl, rfl, rfl⟩

omit [Lossless σ] in
@[simp] theorem Node.encode_written (n : Node σ) : encode n.written = encode n := rfl

namespace Snapshot

variable {s s' : Snapshot σ}

omit [Lossless σ] in
theorem encode_written (s : Snapshot σ) : encode s.written = encode s := by
  have hnodes : encode s.written.nodes = encode s.nodes := by
    show Document.array ((s.nodes.map Node.written).map encode) = .array (s.nodes.map encode)
    rw [List.map_map]
    rfl
  show Document.object [("nodes", encode s.written.nodes), _] = .object [("nodes", _), _]
  rw [hnodes]
  rfl

omit [Lossless σ] in
theorem text_written (s : Snapshot σ) : s.written.text = s.text := by
  rw [text, encode_written, text]

/-- No two snapshots have the same text, their counters apart. -/
theorem same_written_of_text_eq (h : s.Legible) (h' : s'.Legible) (htext : s.text = s'.text) :
    s.written = s'.written := by
  have hread := ofText_text h
  rw [htext, ofText_text h'] at hread
  exact (Except.ok.inj hread).symm

/-- The text reads back to a snapshot with the same nodes, in the same order and with their
counters at zero, and with the same connections; and that one has the same text. -/
def Survives (s : Snapshot σ) : Prop :=
  ∃ s', ofText s.text = .ok s' ∧ List.Forall₂ Node.Kept s.nodes s'.nodes ∧
    s'.connections = s.connections ∧ s'.text = s.text

theorem Legible.survives (h : s.Legible) : s.Survives := by
  refine ⟨s.written, ofText_text h, ?_, rfl, s.text_written⟩
  show List.Forall₂ Node.Kept s.nodes (s.nodes.map Node.written)
  rw [List.forall₂_map_right_iff, List.forall₂_same]
  exact fun n _ => n.kept_written

/-- The saved format loses nothing, for either node set: whatever a snapshot holds, as long as the
format has it, the text of it reads back to what was saved. -/
theorem text_survives :
    (∀ s : Snapshot StudioNode, s.Legible → s.Survives) ∧
      ∀ s : Snapshot BenchNode, s.Legible → s.Survives :=
  ⟨fun _ h => h.survives, fun _ h => h.survives⟩

end Snapshot

/-- Two nodes of one id, one of them claimed, with a failure, a stop sign, null and nested values,
and a connection that leads nowhere. -/
def Studio.motley : Snapshot StudioNode where
  nodes :=
    [⟨"", .textGeneration { model := "m", prompt := "a \"b\"\n", temperature := 0.7 },
      false, .ofList [("text", .value .null), ("unused", .stop)], true, .failed, some "é", 3, 4⟩,
     ⟨"", .number (-0.0), true, .ofList [("output", .value (.array [.bool true,
      .object [("a", .number (.int (-7))), ("b", .string "x")]]))], false, .generating, none, 1, 2⟩]
  connections := [⟨⟨"", "text"⟩, ⟨"nowhere", ""⟩⟩]

/-- The same for the other node set. -/
def Bench.motley : Snapshot BenchNode where
  nodes :=
    [⟨"m", .merge 3, true, .ofList [("output", .stop)], true, .blocked, some "", 9, 9⟩,
     ⟨"c", .constant 1.5e-7, false, .ofList [("output", .value (.object [])), ("p", .value .null)],
      false, .succeeded, none, 5, 0⟩]
  connections := [⟨⟨"m", "output"⟩, ⟨"m", "in0"⟩⟩, ⟨⟨"m", "output"⟩, ⟨"m", "in0"⟩⟩]

theorem Snapshot.text_survives_motley :
    (Studio.motley.Legible ∧ Studio.motley.Survives) ∧
      Bench.motley.Legible ∧ Bench.motley.Survives := by
  have hstudio : Studio.motley.Legible := by decide +kernel
  have hbench : Bench.motley.Legible := by decide +kernel
  exact ⟨⟨hstudio, text_survives.1 _ hstudio⟩, hbench, text_survives.2 _ hbench⟩

end Patchbay
