import Patchbay.Bench
import Patchbay.Proofs.Reading
import Patchbay.Proofs.Restore
import Patchbay.Studio.State

/-!
# Records read back

What a record writes, the record reads. `Lossless` says so of a type, value by value: the format
has no infinities and no NaN, and it keeps the members of an object in key order. Every type that
is saved with a graph is lossless, the states of both node sets among them.

Of a node only the counters are not written, so they start again at zero.

What is proved here:
  1. `record?_object`, `tagged?_object`: records are taken apart as they were put together.
  2. The instances of `Lossless`.
  3. `Snapshot.ofText_text`: the text of a snapshot reads back to the snapshot.
-/

namespace Patchbay.Json

/-- Types of which every value that the format has reads back to the same value. -/
class Lossless (α : Type) [Codec α] where
  Writable : α → Prop
  decidable : DecidablePred Writable := by infer_instance
  readable : ∀ a : α, (encode a).isReadable = true
  decode?_encode : ∀ {a : α}, Writable a → decode? (encode a) = some a

attribute [reducible, instance] Lossless.decidable

namespace Document

theorem isReadable_array {items : List Document} (h : ∀ d ∈ items, d.isReadable = true) :
    (array items).isReadable = true := by
  rw [isReadable, value?, Option.isSome_map]
  induction items with
  | nil => rfl
  | cons d rest ih =>
    obtain ⟨hd, hrest⟩ := List.forall_mem_cons.1 h
    exact isSome_values?_cons.2 ⟨hd, ih hrest⟩

theorem isReadable_object {members : List (String × Document)}
    (h : ∀ m ∈ members, m.2.isReadable = true) : (object members).isReadable = true := by
  rw [isReadable, value?, Option.isSome_map]
  induction members with
  | nil => rfl
  | cons m rest ih =>
    obtain ⟨hm, hrest⟩ := List.forall_mem_cons.1 h
    exact isSome_memberValues?_cons.2 ⟨hm, ih hrest⟩

theorem record?_object {names : List String} {members : List (String × Document)}
    (hnames : ∀ m ∈ members, m.1 ∈ names) (hnodup : (members.map (·.1)).Nodup) :
    record? names (.object members) = some members := by
  have hknown : members.filter (fun m => names.contains m.1) = members :=
    List.filter_eq_self.2 fun m hm => List.contains_iff_mem.2 (hnames m hm)
  have hcount : ∀ n, members.countP (·.1 == n) ≤ 1 := by
    intro n
    have h := List.nodup_iff_count.1 hnodup n
    rwa [List.count, List.countP_map] at h
  rw [record?, hknown, if_pos]
  simp [hcount]

end Document

open Lossless

/-! ## Members of records -/

section Members

variable {α : Type} [Codec α] {r : List (String × Document)} {k name : String} {d : Document}
  {default : α}

@[simp] theorem required?_head : required? (α := α) ((name, d) :: r) name = decode? d := by
  simp [required?]

@[simp] theorem required?_tail (h : name ≠ k) :
    required? (α := α) ((k, d) :: r) name = required? r name := by
  rw [required?, List.lookup_cons, beq_false_of_ne h]
  rfl

@[simp] theorem defaulted?_nil : defaulted? [] name default = some default := rfl

@[simp] theorem defaulted?_head : defaulted? ((name, d) :: r) name default = decode? d := by
  simp [defaulted?]

@[simp] theorem defaulted?_tail (h : name ≠ k) :
    defaulted? ((k, d) :: r) name default = defaulted? r name default := by
  rw [defaulted?, List.lookup_cons, beq_false_of_ne h]
  rfl

end Members

/-! ## Plain types -/

instance : Lossless String where
  Writable _ := True
  decidable _ := instDecidableTrue
  readable _ := rfl
  decode?_encode _ := rfl

instance : Lossless Bool where
  Writable _ := True
  decidable _ := instDecidableTrue
  readable _ := rfl
  decode?_encode _ := rfl

theorem encode_float {x : Float} (h : x.isFinite = true) :
    encode x = .number (.float x h) := by
  show Document.ofValue (((Number.ofFloat? x).map Value.number).getD .null) = _
  rw [Number.ofFloat?, dif_pos h]
  rfl

instance : Lossless Float where
  Writable x := x.isFinite = true
  decidable _ := inferInstance
  readable x := by
    show (Document.ofValue (((Number.ofFloat? x).map Value.number).getD .null)).isReadable = true
    cases Number.ofFloat? x <;> rfl
  decode?_encode h := by
    rw [encode_float h]
    rfl

theorem natBelow?_number {n bound : Nat} (h : n < bound) :
    natBelow? bound (.number (.int n)) = some n := by
  show Option.filter (· < bound) (some n) = some n
  rw [Option.filter_some, decide_eq_true h]
  rfl

instance : Lossless UInt32 where
  Writable _ := True
  decidable _ := instDecidableTrue
  readable _ := rfl
  decode?_encode {n} _ := by
    show (natBelow? (Nat.pow 2 32) (.number (.int n.toNat))).map UInt32.ofNat = some n
    rw [natBelow?_number n.toNat_lt, Option.map_some, UInt32.ofNat_toNat]

instance : Lossless UInt64 where
  Writable _ := True
  decidable _ := instDecidableTrue
  readable _ := rfl
  decode?_encode {n} _ := by
    show (natBelow? (Nat.pow 2 64) (.number (.int n.toNat))).map UInt64.ofNat = some n
    rw [natBelow?_number n.toNat_lt, Option.map_some, UInt64.ofNat_toNat]

theorem mapM_map_eq_some {α β γ : Type} (f : α → β) (g : β → Option γ) (k : α → γ) {l : List α}
    (h : ∀ a ∈ l, g (f a) = some (k a)) : (l.map f).mapM g = some (l.map k) := by
  induction l with
  | nil => rfl
  | cons a rest ih =>
    obtain ⟨ha, hrest⟩ := List.forall_mem_cons.1 h
    rw [List.map_cons, List.mapM_cons, ha, ih hrest]
    rfl

instance {α : Type} [Codec α] [Lossless α] : Lossless (List α) where
  Writable items := ∀ a ∈ items, Writable a
  decidable _ := inferInstance
  readable items := by
    refine Document.isReadable_array fun d hd => ?_
    obtain ⟨a, -, rfl⟩ := List.mem_map.1 hd
    exact readable a
  decode?_encode {items} h := by
    have hitems := mapM_map_eq_some encode decode? id fun a ha => decode?_encode (h a ha)
    rw [List.map_id] at hitems
    exact hitems

@[simp] theorem writable_string (s : String) : Writable s := trivial
@[simp] theorem writable_bool (b : Bool) : Writable b := trivial
@[simp] theorem writable_uint32 (n : UInt32) : Writable n := trivial
@[simp] theorem writable_uint64 (n : UInt64) : Writable n := trivial
@[simp] theorem writable_float (x : Float) : Writable x ↔ x.isFinite = true := .rfl
@[simp] theorem writable_list {α : Type} [Codec α] [Lossless α] (l : List α) :
    Writable l ↔ ∀ a ∈ l, Writable a := .rfl

attribute [simp] decode?_encode readable

/-! ## Fields of states -/

instance : Lossless TextInput where
  Writable _ := True
  decidable _ := instDecidableTrue
  readable t := Document.isReadable_object (by simp)
  decode?_encode {t} _ := by
    unfold decode? encode TextInput.instCodec
    simp [Document.record?_object]

instance : Lossless FileInput where
  Writable _ := True
  decidable _ := instDecidableTrue
  readable t := Document.isReadable_object (by simp)
  decode?_encode {t} _ := by
    unfold decode? encode FileInput.instCodec
    simp [Document.record?_object]

instance : Lossless Operator where
  Writable _ := True
  decidable _ := instDecidableTrue
  readable _ := rfl
  decode?_encode {o} _ := by cases o <;> rfl

instance : Lossless Arithmetic where
  Writable s := s.a.isFinite = true ∧ s.b.isFinite = true
  readable t := Document.isReadable_object (by simp)
  decode?_encode {t} h := by
    have ho : Writable t.operator := trivial
    unfold decode? encode instCodecArithmetic
    simp [Document.record?_object, h, ho]

instance : Lossless ImageGeneration where
  Writable _ := True
  decidable _ := instDecidableTrue
  readable t := Document.isReadable_object (by simp)
  decode?_encode {t} h := by
    unfold decode? encode instCodecImageGeneration
    simp [Document.record?_object]

instance : Lossless VideoMode where
  Writable _ := True
  decidable _ := instDecidableTrue
  readable _ := rfl
  decode?_encode {m} _ := by cases m <;> rfl

instance : Lossless VideoGeneration where
  Writable _ := True
  decidable _ := instDecidableTrue
  readable t := Document.isReadable_object (by simp)
  decode?_encode {t} h := by
    have hm : Writable t.mode := trivial
    unfold decode? encode instCodecVideoGeneration
    simp [Document.record?_object, hm]

instance : Lossless TextGeneration where
  Writable s := s.temperature.isFinite = true
  readable t := Document.isReadable_object (by simp)
  decode?_encode {t} h := by
    unfold decode? encode instCodecTextGeneration
    simp [Document.record?_object, h]

/-! ## Tagged records -/

namespace Document

theorem isReadable_tagged {tag name : String} {fields : List (String × Document)}
    (h : (object fields).isReadable = true) :
    (object ((tag, .string name) :: fields)).isReadable = true := by
  rw [isReadable, value?, Option.isSome_map] at h ⊢
  exact isSome_memberValues?_cons.2 ⟨rfl, h⟩

theorem tagged?_object {tag name : String} {fields : List (String × Document)}
    (hreadable : (object fields).isReadable = true) (htag : ∀ m ∈ fields, m.1 ≠ tag) :
    tagged? tag (.object ((tag, .string name) :: fields)) = some (name, .object fields) := by
  have hnone : fields.filter (·.1 == tag) = [] := by
    simpa using htag
  have hothers : fields.filter (·.1 != tag) = fields := by
    simpa using htag
  rw [tagged?, if_pos (isReadable_tagged hreadable)]
  simp [hnone, hothers]

end Document

end Patchbay.Json

namespace Patchbay

open Json Lossless Std

/-! ## States -/

namespace StudioNode

/-- The fields are an object without a member that could be taken for the tag. -/
theorem exists_fields (s : StudioNode) : ∃ members, s.fields = .object members ∧
    (Document.object members).isReadable = true ∧ ∀ m ∈ members, m.1 ≠ "type" := by
  cases s <;> exact ⟨_, rfl, Document.isReadable_object (by simp), by simp⟩

theorem encode_eq {s : StudioNode} {members : List (String × Document)}
    (h : s.fields = .object members) :
    encode s = .object (("type", .string s.typeName) :: members) := by
  unfold encode instCodec
  dsimp only
  rw [h]

theorem tagged?_encode (s : StudioNode) :
    (encode s).tagged? "type" = some (s.typeName, s.fields) := by
  obtain ⟨members, hfields, hreadable, htag⟩ := s.exists_fields
  rw [encode_eq hfields, Document.tagged?_object hreadable htag, hfields]

instance : Lossless StudioNode where
  Writable
    | .number value => value.isFinite = true
    | .arithmetic s => Writable s
    | .textGeneration s => Writable s
    | _ => True
  decidable
    | .number value => inferInstanceAs (Decidable (value.isFinite = true))
    | .arithmetic s => inferInstanceAs (Decidable (Writable s))
    | .textGeneration s => inferInstanceAs (Decidable (Writable s))
    | .textInput _ | .fileInput _ | .conditional | .imageGeneration _ | .videoGeneration _ =>
      instDecidableTrue
  readable s := by
    obtain ⟨members, hfields, hreadable, -⟩ := s.exists_fields
    rw [encode_eq hfields]
    exact Document.isReadable_tagged hreadable
  decode?_encode {s} h := by
    have htag := s.tagged?_encode
    generalize encode s = d at htag ⊢
    unfold decode? instCodec
    cases s with
    | textInput s => simpa [htag, typeName, fields] using decode?_encode h
    | fileInput s => simpa [htag, typeName, fields] using decode?_encode h
    | number x =>
      have hx : decode? (encode x) = some x := decode?_encode h
      simp [htag, typeName, fields, Document.record?_object, hx]
    | arithmetic s => simpa [htag, typeName, fields] using decode?_encode h
    | conditional => simp [htag, typeName, fields, Document.record?_object]
    | imageGeneration s => simpa [htag, typeName, fields] using decode?_encode h
    | videoGeneration s => simpa [htag, typeName, fields] using decode?_encode h
    | textGeneration s => simpa [htag, typeName, fields] using decode?_encode h

end StudioNode

namespace BenchNode

def members : BenchNode → List (String × Document)
  | .constant value => [("value", encode value)]
  | .source value => [("value", encode value)]
  | .double fails => [("fail", encode fails)]
  | .gated => []
  | .label text => [("text", encode text)]
  | .switch isOpen => [("open", encode isOpen)]
  | .merge inputs => [("inputs", encode inputs)]

theorem encode_eq (s : BenchNode) :
    encode s = .object (("type", .string s.typeName) :: s.members) := by
  cases s <;> rfl

theorem isReadable_members (s : BenchNode) : (Document.object s.members).isReadable = true := by
  apply Document.isReadable_object
  cases s <;> simp [members]

theorem tagged?_encode (s : BenchNode) :
    (encode s).tagged? "type" = some (s.typeName, .object s.members) := by
  rw [encode_eq, Document.tagged?_object s.isReadable_members]
  cases s <;> simp [members]

instance : Lossless BenchNode where
  Writable
    | .constant value => value.isFinite = true
    | .source value => value.isFinite = true
    | _ => True
  decidable
    | .constant value => inferInstanceAs (Decidable (value.isFinite = true))
    | .source value => inferInstanceAs (Decidable (value.isFinite = true))
    | .double _ | .gated | .label _ | .switch _ | .merge _ => instDecidableTrue
  readable s := by
    rw [encode_eq]
    exact Document.isReadable_tagged s.isReadable_members
  decode?_encode {s} h := by
    have htag := s.tagged?_encode
    generalize encode s = d at htag ⊢
    unfold decode? instCodec
    cases s with
    | constant x | source x =>
      have hx : decode? (encode x) = some x := decode?_encode h
      simp [htag, typeName, members, Document.record?_object, hx]
    | gated => simp [htag, typeName, members, Document.record?_object]
    | _ => simp [htag, typeName, members, Document.record?_object]

end BenchNode

/-! ## Values -/

/-- A list that is in key order already is the list of entries of its dictionary. -/
theorem Dict.entries_ofList {κ ν : Type} [Ord κ] [TransOrd κ] [LawfulEqOrd κ] {l : List (κ × ν)}
    (h : l.Pairwise fun a b => compare a.1 b.1 = .lt) : (ofList l).entries = l := by
  refine eq_of_mem_iff (ofList l).sorted h fun ⟨k, v⟩ => ?_
  rw [mem_entries]
  constructor
  · exact mem_of_ofList
  · intro hmem
    obtain ⟨v', hv'⟩ := Option.isSome_iff_exists.1 (isSome_ofList (List.mem_map_of_mem hmem))
    have hfind := find_eq_some_of_mem h (mem_of_ofList hv')
    have hfind' := find_eq_some_of_mem h hmem
    rw [hv', ← hfind, hfind']

namespace Json.Value

mutual
/-- The members of every object in the value are in key order. -/
def Sorted : Value → Prop
  | .array items => SortedItems items
  | .object members =>
    members.Pairwise (fun a b => compare a.1 b.1 = .lt) ∧ SortedMembers members
  | _ => True
def SortedItems : List Value → Prop
  | [] => True
  | v :: rest => Sorted v ∧ SortedItems rest
def SortedMembers : List (String × Value) → Prop
  | [] => True
  | (_, v) :: rest => Sorted v ∧ SortedMembers rest
end

mutual
@[reducible] def decidableSorted : ∀ v : Value, Decidable v.Sorted
  | .array items => decidableSortedItems items
  | .object members =>
    have := decidableSortedMembers members
    inferInstanceAs (Decidable (_ ∧ _))
  | .null | .bool _ | .number _ | .string _ => instDecidableTrue
@[reducible] def decidableSortedItems : ∀ items : List Value, Decidable (SortedItems items)
  | [] => instDecidableTrue
  | v :: rest =>
    have := decidableSorted v
    have := decidableSortedItems rest
    inferInstanceAs (Decidable (_ ∧ _))
@[reducible] def decidableSortedMembers :
    ∀ members : List (String × Value), Decidable (SortedMembers members)
  | [] => instDecidableTrue
  | (_, v) :: rest =>
    have := decidableSorted v
    have := decidableSortedMembers rest
    inferInstanceAs (Decidable (_ ∧ _))
end

instance : DecidablePred Sorted := decidableSorted

mutual
theorem isReadable_ofValue : ∀ v : Value, (Document.ofValue v).isReadable = true
  | .null | .bool _ | .number _ | .string _ => rfl
  | .array items => by
    rw [Document.isReadable, Document.ofValue, Document.value?, Option.isSome_map]
    exact isSome_ofValues items
  | .object members => Document.isReadable_object (isReadable_ofMemberValues members)
theorem isSome_ofValues : ∀ vs : List Value,
    (Document.values? (Document.ofValues vs)).isSome = true
  | [] => rfl
  | v :: rest => Document.isSome_values?_cons.2 ⟨isReadable_ofValue v, isSome_ofValues rest⟩
theorem isReadable_ofMemberValues : ∀ ms : List (String × Value),
    ∀ m ∈ Document.ofMemberValues ms, m.2.isReadable = true
  | [] => List.forall_mem_nil _
  | (_, v) :: rest =>
    List.forall_mem_cons.2 ⟨isReadable_ofValue v, isReadable_ofMemberValues rest⟩
end

mutual
theorem value?_ofValue : ∀ v : Value, v.Sorted → (Document.ofValue v).value? = some v
  | .null, _ | .bool _, _ | .number _, _ | .string _, _ => rfl
  | .array items, h => by
    rw [Document.ofValue, Document.value?, values?_ofValues items h, Option.map_some]
  | .object members, h => by
    rw [Document.ofValue, Document.value?, memberValues?_ofMemberValues members h.2,
      Option.map_some, ofMembers, Dict.entries_ofList h.1]
theorem values?_ofValues : ∀ vs : List Value, SortedItems vs →
    Document.values? (Document.ofValues vs) = some vs
  | [], _ => rfl
  | v :: rest, h => by
    rw [Document.ofValues, Document.values?, value?_ofValue v h.1, values?_ofValues rest h.2]
    rfl
theorem memberValues?_ofMemberValues : ∀ ms : List (String × Value), SortedMembers ms →
    Document.memberValues? (Document.ofMemberValues ms) = some ms
  | [], _ => rfl
  | (k, v) :: rest, h => by
    rw [Document.ofMemberValues, Document.memberValues?, value?_ofValue v h.1,
      memberValues?_ofMemberValues rest h.2]
    rfl
end

end Json.Value

instance : Lossless Value where
  Writable := Value.Sorted
  readable := Value.isReadable_ofValue
  decode?_encode {v} h := v.value?_ofValue h

instance : Lossless PortValue where
  Writable
    | .value v => v.Sorted
    | .stop => True
  decidable
    | .value v => inferInstanceAs (Decidable v.Sorted)
    | .stop => instDecidableTrue
  readable v := by
    cases v with
    | value v => exact Document.isReadable_object (List.forall_mem_cons.2 ⟨rfl, by simp⟩)
    | stop => exact Document.isReadable_object (List.forall_mem_cons.2 ⟨rfl, List.forall_mem_nil _⟩)
  decode?_encode {v} h := by
    unfold decode? encode PortValue.instCodec
    cases v with
    | value v =>
      have hv : (encode v).value? = some v := v.value?_ofValue h
      simp [PortValue.read?, Document.record?_object, List.lookup_cons, Document.name?,
        PortValue.ofParts?, hv]
    | stop =>
      simp [PortValue.read?, Document.record?_object, List.lookup_cons, Document.name?,
        PortValue.ofParts?]

instance {α : Type} [Codec α] [Lossless α] : Lossless (Dict String α) where
  Writable d := ∀ e ∈ d.entries, Writable e.2
  readable d := by
    refine Document.isReadable_object fun m hm => ?_
    obtain ⟨e, -, rfl⟩ := List.mem_map.1 hm
    exact readable e.2
  decode?_encode {d} h := by
    have hmembers := mapM_map_eq_some (fun e : String × α => (e.1, encode e.2))
      (fun m : String × Document => (decode? m.2).map ((m.1, ·) : α → String × α)) id
      fun e he => congrArg (Option.map ((e.1, ·) : α → String × α)) (decode?_encode (h e he))
    rw [List.map_id] at hmembers
    unfold decode? encode instCodecDictString
    simp only [hmembers, Option.map_some]
    exact congrArg some (Dict.entries_inj (Dict.entries_ofList d.sorted))

/-! ## Nodes and connections -/

instance : Lossless Status where
  Writable _ := True
  decidable _ := instDecidableTrue
  readable _ := rfl
  decode?_encode {s} _ := by cases s <;> rfl

instance : Lossless PortRef where
  Writable _ := True
  decidable _ := instDecidableTrue
  readable _ := Document.isReadable_object (by simp)
  decode?_encode {p} _ := by
    unfold decode? encode instCodecPortRef
    simp [Document.record?_object]

@[simp] theorem writable_portRef (p : PortRef) : Writable p := trivial

instance : Lossless Connection where
  Writable _ := True
  decidable _ := instDecidableTrue
  readable _ := Document.isReadable_object (by simp)
  decode?_encode {c} _ := by
    unfold decode? encode instCodecConnection
    simp [Document.record?_object]

variable {σ : Type} [NodeState σ] [Lossless σ]

/-- The node as it is written: how often it was invalidated and which run claimed it last is left
out. -/
def Node.written (n : Node σ) : Node σ := { n with epoch := 0, run := 0 }

theorem Node.decode?_encode {n : Node σ} (hstate : Writable n.state)
    (houtputs : Writable n.outputs) : decode? (encode n) = some n.written := by
  have hs := Lossless.decode?_encode hstate
  have ho := Lossless.decode?_encode houtputs
  have hstatus : decode? (encode n.status) = some n.status := Lossless.decode?_encode trivial
  unfold decode? encode Node.instCodecOfNodeState
  cases he : n.lastError with
  | none =>
    simp [Document.record?_object, hs, ho, hstatus, Node.written, he]
  | some e =>
    have hmessage : decode? (encode e) = some (some e) := rfl
    simp [Document.record?_object, hs, ho, hstatus, hmessage, Node.written, he]

theorem Node.isReadable_encode (n : Node σ) : (encode n).isReadable = true := by
  refine Document.isReadable_object (List.forall_mem_append.2 ⟨by simp, fun m hm => ?_⟩)
  obtain ⟨e, -, rfl⟩ := Option.map_eq_some_iff.1 (Option.mem_toList.1 hm)
  exact readable e

namespace Snapshot

def written (s : Snapshot σ) : Snapshot σ := ⟨s.nodes.map Node.written, s.connections⟩

/-- The format has the snapshot. -/
structure Legible (s : Snapshot σ) : Prop where
  /-- The doubles of the states are finite; there is no literal for the others. -/
  states : ∀ n ∈ s.nodes, Writable n.state
  /-- The objects among the values are in key order, as all objects are that the library builds. -/
  outputs : ∀ n ∈ s.nodes, Writable n.outputs
  /-- Each number literal reads back to the same number. -/
  numbers : ∀ x ∈ (encode s).numbers, x.Legible
  /-- Arrays and objects do not lie deeper than the reader goes. -/
  depth : (encode s).depth ≤ Document.depthLimit

theorem decode?_encode {s : Snapshot σ} (hstates : ∀ n ∈ s.nodes, Writable n.state)
    (houtputs : ∀ n ∈ s.nodes, Writable n.outputs) : decode? (encode s) = some s.written := by
  have hnodes : decode? (encode s.nodes) = some (s.nodes.map Node.written) :=
    mapM_map_eq_some encode decode? Node.written fun n hn =>
      Node.decode?_encode (hstates n hn) (houtputs n hn)
  have hconnections : decode? (encode s.connections) = some s.connections :=
    Lossless.decode?_encode fun _ _ => trivial
  unfold decode? encode instCodecOfNodeState
  simp [Document.record?_object, hnodes, hconnections, written]

theorem isReadable_encode (s : Snapshot σ) : (encode s).isReadable = true := by
  have hnodes : (encode s.nodes).isReadable = true := by
    refine Document.isReadable_array fun d hd => ?_
    obtain ⟨n, -, rfl⟩ := List.mem_map.1 hd
    exact n.isReadable_encode
  exact Document.isReadable_object (by simp [hnodes])

theorem ofText_text {s : Snapshot σ} (h : s.Legible) : ofText s.text = .ok s.written := by
  rw [ofText, Json.ofText?, text, Document.ofText?_pretty s.isReadable_encode h.numbers h.depth,
    Option.bind_some, decode?_encode h.states h.outputs]

theorem ofText_compact {s : Snapshot σ} (h : s.Legible) :
    ofText (encode s).compact = .ok s.written := by
  rw [ofText, Json.ofText?, Document.ofText?_compact s.isReadable_encode h.numbers h.depth,
    Option.bind_some, decode?_encode h.states h.outputs]

end Snapshot

end Patchbay
