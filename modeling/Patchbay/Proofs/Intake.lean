import Patchbay.Proofs.Doubles
import Patchbay.Proofs.Lossless

/-!
# What is read can be written

The format has the values of a graph if the doubles in its states are finite and the objects in its
outputs are in key order. There is no literal for an infinite double or for NaN; a literal that
denotes a double beyond all finite ones denotes nothing, and the integers that are read have 64
bits. What is read is in key order, whatever order the text has. So whatever graph is read can be
written again.

What is proved here:
  1. `Document.fits_ofText?`: the numbers of a document that is read.
  2. `Document.sorted_value?`: the order of a value that is read.
  3. `Snapshot.expressed_ofText`, `Studio.writable_of_fits`: what the nodes hold that are read.
-/

namespace Patchbay

open Json Lossless

namespace Json

theorem mem_of_mapM {α β : Type} {f : α → Option β} {items : List α} {bs : List β}
    (h : items.mapM f = some bs) {b : β} (hb : b ∈ bs) : ∃ a ∈ items, f a = some b := by
  induction items generalizing bs with
  | nil =>
    cases h
    cases hb
  | cons a rest ih =>
    rw [List.mapM_cons] at h
    obtain ⟨b', hb', h⟩ := Option.bind_eq_some_iff.1 h
    obtain ⟨bs', hbs', h⟩ := Option.bind_eq_some_iff.1 h
    cases h
    rcases List.mem_cons.1 hb with rfl | hb
    · exact ⟨a, List.mem_cons_self, hb'⟩
    · obtain ⟨a', ha', hf⟩ := ih hbs' hb
      exact ⟨a', List.mem_cons_of_mem _ ha', hf⟩

/-! ## Numbers -/

def Number.Fits : Number → Prop
  | .int z => z.natAbs < 2 ^ 64
  | .float _ _ => True

theorem Number.isFinite_toFloat {n : Number} (h : n.Fits) : n.toFloat.isFinite = true := by
  cases n with
  | int z => exact Double.isFinite_ofInt h
  | float x hx => exact hx

theorem Number.fits_ofFloat? {x : Float} {n : Number} (h : ofFloat? x = some n) : n.Fits := by
  unfold ofFloat? at h
  split at h
  · cases h
    trivial
  · cases h

theorem NumberLiteral.fits_value? {l : NumberLiteral} {n : Number} (h : l.value? = some n) :
    n.Fits := by
  unfold value? at h
  have h64 : Nat.pow 2 64 = 2 ^ 64 := rfl
  have h63 : Nat.pow 2 63 = 2 ^ 63 := rfl
  dsimp only at h
  split at h
  · rename_i hplain
    simp only [Bool.and_eq_true, decide_eq_true_eq, h64] at hplain
    split at h
    · cases h
      exact hplain.2
    · split at h
      · rename_i hsmall
        simp only [Bool.and_eq_true, decide_eq_true_eq, h63] at hsmall
        cases h
        show (-(digitsValue l.whole : Int)).natAbs < 2 ^ 64
        omega
      · exact Number.fits_ofFloat? h
  · obtain ⟨x, -, h⟩ := Option.bind_eq_some_iff.1 h
    exact Number.fits_ofFloat? h

/-! ## Tokens -/

def Token.Fits : Token → Prop
  | .number (some n) => n.Fits
  | _ => True

theorem Token.fits_number {l : NumberLiteral} : (Token.number l.value?).Fits := by
  cases h : l.value? with
  | none => trivial
  | some n => exact NumberLiteral.fits_value? h

theorem Token.fits_next? {cs rest : List Char} {t : Token} (h : next? cs = some (t, rest)) :
    t.Fits := by
  unfold next? at h
  -- Strings and numbers are the only tokens whose text goes on; the last two cases are the numbers.
  split at h
  case h_10 =>
    split at h
    · cases h
      trivial
    · cases h
  case h_11 | h_12 =>
    split at h
    · cases h
      exact fits_number
    · cases h
  all_goals
    cases h
    trivial

theorem Token.fits_scan? {cs : List Char} {ts : List Token} (h : scan? cs = some ts) :
    ∀ t ∈ ts, t.Fits := by
  fun_induction scan? cs generalizing ts with
  | case1 =>
    cases h
    exact List.forall_mem_nil _
  | case2 c cs hblank ih => exact ih h
  | case3 => cases h
  | case4 c cs hblank t rest hnext ih =>
    obtain ⟨ts', hts', rfl⟩ := Option.map_eq_some_iff.1 h
    exact List.forall_mem_cons.2 ⟨fits_next? hnext, ih hts'⟩

/-! ## Documents -/

namespace Document

def Fits (d : Document) : Prop := ∀ n ∈ d.numbers, n.Fits

theorem fits_array {items : List Document} : (array items).Fits ↔ ∀ d ∈ items, d.Fits := by
  show (∀ n ∈ itemNumbers items, n.Fits) ↔ _
  induction items with
  | nil => exact ⟨fun _ => List.forall_mem_nil _, fun _ => List.forall_mem_nil _⟩
  | cons d rest ih => rw [itemNumbers, List.forall_mem_append, ih, List.forall_mem_cons, Fits]

theorem fits_object {members : List (String × Document)} :
    (object members).Fits ↔ ∀ m ∈ members, m.2.Fits := by
  show (∀ n ∈ memberNumbers members, n.Fits) ↔ _
  induction members with
  | nil => exact ⟨fun _ => List.forall_mem_nil _, fun _ => List.forall_mem_nil _⟩
  | cons m rest ih => rw [memberNumbers, List.forall_mem_append, ih, List.forall_mem_cons, Fits]

theorem fits_number {n : Number} : (number n).Fits ↔ n.Fits :=
  List.forall_mem_singleton

theorem fits_of_none {d : Document} (h : d.numbers = []) : d.Fits := by
  rw [Fits, h]
  exact List.forall_mem_nil _

mutual
theorem fits_within (depth : Nat) : ∀ d : Document, d.Fits → (d.within depth).Fits
  | .null, h | .bool _, h | .number _, h | .string _, h | .unreadable, h => h
  | .array items, h => by
    rw [within]
    split
    · exact fits_of_none rfl
    · exact fits_array.2 (fits_withinItems _ items (fits_array.1 h))
  | .object members, h => by
    rw [within]
    split
    · exact fits_of_none rfl
    · exact fits_object.2 (fits_withinMembers _ members (fits_object.1 h))
theorem fits_withinItems (depth : Nat) : ∀ items : List Document, (∀ d ∈ items, d.Fits) →
    ∀ d ∈ withinItems depth items, d.Fits
  | [], _ => List.forall_mem_nil _
  | d :: rest, h => by
    obtain ⟨hd, hrest⟩ := List.forall_mem_cons.1 h
    exact List.forall_mem_cons.2 ⟨fits_within depth d hd, fits_withinItems depth rest hrest⟩
theorem fits_withinMembers (depth : Nat) : ∀ members : List (String × Document),
    (∀ m ∈ members, m.2.Fits) → ∀ m ∈ withinMembers depth members, m.2.Fits
  | [], _ => List.forall_mem_nil _
  | (k, d) :: rest, h => by
    obtain ⟨hd, hrest⟩ := List.forall_mem_cons.1 h
    exact List.forall_mem_cons.2 ⟨fits_within depth d hd, fits_withinMembers depth rest hrest⟩
end

end Document

/-! ## The pass over the tokens -/

/-- The numbers of what an open array or object has so far. -/
def Level.Fits : Level → Prop
  | .items done => ∀ d ∈ done, d.Fits
  | .members done | .member done _ => ∀ m ∈ done, m.2.Fits

namespace Cursor

structure Fits (c : Cursor) : Prop where
  levels : ∀ l ∈ c.levels, l.Fits
  document : ∀ d, c.document? = some d → d.Fits

theorem fits_place? {d : Document} {levels : List Level} {c : Cursor}
    (hlevels : ∀ l ∈ levels, l.Fits) (h : place? d levels = some c) (hd : d.Fits) : c.Fits := by
  cases levels with
  | nil =>
    cases h
    refine ⟨List.forall_mem_nil _, fun d' hd' => ?_⟩
    cases hd'
    exact hd
  | cons level outer =>
    obtain ⟨hlevel, houter⟩ := List.forall_mem_cons.1 hlevels
    cases level with
    | items done =>
      cases h
      exact ⟨List.forall_mem_cons.2 ⟨List.forall_mem_cons.2 ⟨hd, hlevel⟩, houter⟩, nofun⟩
    | member done key =>
      cases h
      exact ⟨List.forall_mem_cons.2 ⟨List.forall_mem_cons.2 ⟨hd, hlevel⟩, houter⟩, nofun⟩
    | members done => cases h

theorem fits_begin? {levels : List Level} {t : Token} {c : Cursor} (ht : t.Fits)
    (hlevels : ∀ l ∈ levels, l.Fits) (h : begin? levels t = some c) : c.Fits := by
  cases t with
  | openArray =>
    cases h
    exact ⟨List.forall_mem_cons.2 ⟨List.forall_mem_nil _, hlevels⟩, nofun⟩
  | openObject =>
    cases h
    exact ⟨List.forall_mem_cons.2 ⟨List.forall_mem_nil _, hlevels⟩, nofun⟩
  | null => exact fits_place? hlevels h (Document.fits_of_none rfl)
  | bool b => exact fits_place? hlevels h (Document.fits_of_none rfl)
  | number n =>
    cases n with
    | none => exact fits_place? hlevels h (Document.fits_of_none rfl)
    | some n => exact fits_place? hlevels h (Document.fits_number.2 ht)
  | string s => cases s <;> exact fits_place? hlevels h (Document.fits_of_none rfl)
  | _ => cases h

theorem fits_members? {done : List (Option String × Document)}
    {members : List (String × Document)} (hdone : ∀ m ∈ done, m.2.Fits)
    (h : members? done = some members) : ∀ m ∈ members, m.2.Fits := by
  intro m hm
  obtain ⟨⟨key, d⟩, hmem, hkey⟩ := mem_of_mapM h hm
  obtain ⟨k, -, rfl⟩ := Option.map_eq_some_iff.1 hkey
  exact hdone _ (List.mem_reverse.1 hmem)

theorem fits_end? {levels : List Level} {t : Token} {c : Cursor}
    (hlevels : ∀ l ∈ levels, l.Fits) (h : end? levels t = some c) : c.Fits := by
  unfold end? at h
  split at h
  · rename_i done outer
    obtain ⟨hdone, houter⟩ := List.forall_mem_cons.1 hlevels
    exact fits_place? houter h
      (Document.fits_array.2 fun d hd => hdone d (List.mem_reverse.1 hd))
  · rename_i done outer
    obtain ⟨hdone, houter⟩ := List.forall_mem_cons.1 hlevels
    refine fits_place? houter h ?_
    cases hmembers : members? done with
    | none => exact Document.fits_of_none rfl
    | some members => exact Document.fits_object.2 (fits_members? hdone hmembers)
  · cases h

theorem fits_key? {levels : List Level} {t : Token} {c : Cursor}
    (hlevels : ∀ l ∈ levels, l.Fits) (h : key? levels t = some c) : c.Fits := by
  unfold key? at h
  split at h
  · cases h
    obtain ⟨hdone, houter⟩ := List.forall_mem_cons.1 hlevels
    exact ⟨List.forall_mem_cons.2 ⟨hdone, houter⟩, nofun⟩
  · cases h

theorem Fits.step? {c c' : Cursor} (h : c.Fits) {t : Token} (ht : t.Fits)
    (hstep : c.step? t = some c') : c'.Fits := by
  obtain ⟨levels, next⟩ := c
  have hlevels : ∀ l ∈ levels, l.Fits := h.levels
  cases next with
  | value => exact fits_begin? ht hlevels hstep
  | itemOrEnd => cases t <;> first | exact fits_end? hlevels hstep | exact fits_begin? ht hlevels hstep
  | memberOrEnd => cases t <;> first | exact fits_end? hlevels hstep | exact fits_key? hlevels hstep
  | member => exact fits_key? hlevels hstep
  | colon =>
    cases t with
    | colon =>
      cases hstep
      exact ⟨hlevels, nofun⟩
    | _ => cases hstep
  | separator =>
    unfold Cursor.step? at hstep
    dsimp only at hstep
    split at hstep
    · cases hstep
      exact ⟨hlevels, nofun⟩
    · cases hstep
      exact ⟨hlevels, nofun⟩
    · exact fits_end? hlevels hstep
  | nothing d => cases hstep

theorem Fits.foldlM {c c' : Cursor} (h : c.Fits) {ts : List Token} (hts : ∀ t ∈ ts, t.Fits)
    (hpass : ts.foldlM Cursor.step? c = some c') : c'.Fits := by
  induction ts generalizing c with
  | nil =>
    cases hpass
    exact h
  | cons t ts ih =>
    obtain ⟨ht, hts⟩ := List.forall_mem_cons.1 hts
    rw [List.foldlM_cons] at hpass
    obtain ⟨c₁, hstep, hpass⟩ := Option.bind_eq_some_iff.1 hpass
    exact ih (h.step? ht hstep) hts hpass

end Cursor

theorem Document.fits_ofText? {text : String} {d : Document} (h : ofText? text = some d) :
    d.Fits := by
  obtain ⟨d', hd', rfl⟩ := Option.map_eq_some_iff.1 h
  obtain ⟨tokens, htokens, hd'⟩ := Option.bind_eq_some_iff.1 hd'
  obtain ⟨c, hc, hd'⟩ := Option.bind_eq_some_iff.1 hd'
  have hstart : Cursor.start.Fits := ⟨List.forall_mem_nil _, nofun⟩
  have hfits := hstart.foldlM (Token.fits_scan? htokens) hc
  exact fits_within depthLimit d' (hfits.document d' hd')

/-! ## Order -/

namespace Value

theorem sortedItems_iff {items : List Value} : SortedItems items ↔ ∀ v ∈ items, v.Sorted := by
  induction items with
  | nil => exact ⟨fun _ => List.forall_mem_nil _, fun _ => trivial⟩
  | cons v rest ih => rw [SortedItems, ih, List.forall_mem_cons]

theorem sortedMembers_iff {members : List (String × Value)} :
    SortedMembers members ↔ ∀ m ∈ members, m.2.Sorted := by
  induction members with
  | nil => exact ⟨fun _ => List.forall_mem_nil _, fun _ => trivial⟩
  | cons m rest ih => rw [SortedMembers, ih, List.forall_mem_cons]

theorem sorted_ofMembers {members : List (String × Value)} (h : ∀ m ∈ members, m.2.Sorted) :
    (ofMembers members).Sorted :=
  ⟨(Dict.ofList members).sorted, sortedMembers_iff.2 fun m hm =>
    h m (Dict.mem_of_ofList (Dict.mem_entries.1 hm))⟩

theorem sorted_strings (items : List String) : (strings items).Sorted := by
  refine sortedItems_iff.2 fun v hv => ?_
  obtain ⟨s, -, rfl⟩ := List.mem_map.1 hv
  trivial

theorem sorted_ofFloat (x : Float) : (ofFloat x).Sorted := by
  rw [ofFloat]
  cases Number.ofFloat? x <;> trivial

end Value

namespace Document

mutual
theorem sorted_value? : ∀ (d : Document) (v : Value), d.value? = some v → v.Sorted
  | .null, _, h | .bool _, _, h | .number _, _, h | .string _, _, h => by
    cases h
    trivial
  | .array items, _, h => by
    obtain ⟨vs, hvs, rfl⟩ := Option.map_eq_some_iff.1 h
    exact Value.sortedItems_iff.2 (sorted_values? items vs hvs)
  | .object members, _, h => by
    obtain ⟨ms, hms, rfl⟩ := Option.map_eq_some_iff.1 h
    exact Value.sorted_ofMembers (sorted_memberValues? members ms hms)
  | .unreadable, _, h => by cases h
theorem sorted_values? : ∀ (items : List Document) (vs : List Value), values? items = some vs →
    ∀ v ∈ vs, v.Sorted
  | [], _, h => by
    cases h
    exact List.forall_mem_nil _
  | d :: rest, _, h => by
    obtain ⟨v, hv, h⟩ := Option.bind_eq_some_iff.1 h
    obtain ⟨vs, hvs, h⟩ := Option.bind_eq_some_iff.1 h
    cases h
    exact List.forall_mem_cons.2 ⟨sorted_value? d v hv, sorted_values? rest vs hvs⟩
theorem sorted_memberValues? : ∀ (members : List (String × Document)) (ms : List (String × Value)),
    memberValues? members = some ms → ∀ m ∈ ms, m.2.Sorted
  | [], _, h => by
    cases h
    exact List.forall_mem_nil _
  | (k, d) :: rest, _, h => by
    obtain ⟨v, hv, h⟩ := Option.bind_eq_some_iff.1 h
    obtain ⟨ms, hms, h⟩ := Option.bind_eq_some_iff.1 h
    cases h
    exact List.forall_mem_cons.2 ⟨sorted_value? d v hv, sorted_memberValues? rest ms hms⟩
end

end Document

/-! ## Records -/

namespace Document

theorem fits_record? {names : List String} {d : Document} {r : List (String × Document)}
    (hd : d.Fits) (h : d.record? names = some r) : ∀ m ∈ r, m.2.Fits := by
  unfold record? at h
  split at h
  · dsimp only at h
    split at h
    · cases h
      exact fun m hm => fits_object.1 hd m (List.mem_of_mem_filter hm)
    · cases h
  · split at h
    · cases h
      exact fun m hm => fits_array.1 hd m.2 (List.of_mem_zip hm).2
    · cases h
  · cases h

theorem fits_tagged? {tag name : String} {d rest : Document} (hd : d.Fits)
    (h : d.tagged? tag = some (name, rest)) : rest.Fits := by
  unfold tagged? at h
  split at h
  · split at h
    · split at h
      · cases h
        exact fits_object.2 fun m hm => fits_object.1 hd m (List.mem_of_mem_filter hm)
      · cases h
    · cases h
      exact fits_array.2 (List.forall_mem_cons.1 (fits_array.1 hd)).2
    · cases h
  · cases h

end Document

theorem mem_of_lookup {α : Type} {r : List (String × α)} {name : String} {a : α}
    (h : r.lookup name = some a) : (name, a) ∈ r := by
  obtain ⟨before, after, rfl, -⟩ := List.lookup_eq_some_iff.1 h
  exact List.mem_append_right _ List.mem_cons_self

theorem isFinite_decode? {d : Document} {x : Float} (hd : d.Fits) (h : decode? d = some x) :
    x.isFinite = true := by
  cases d with
  | number n =>
    cases h
    exact Number.isFinite_toFloat (Document.fits_number.1 hd)
  | _ => cases h

theorem isFinite_defaulted? {r : List (String × Document)} {name : String} {default x : Float}
    (hr : ∀ m ∈ r, m.2.Fits) (hdefault : default.isFinite = true)
    (h : defaulted? r name default = some x) : x.isFinite = true := by
  unfold defaulted? at h
  split at h
  · cases h
    exact hdefault
  · rename_i d hd
    exact isFinite_decode? (hr _ (mem_of_lookup hd)) h

end Json

/-! ## Graphs -/

theorem PortValue.writable_ofParts? {kind : String} {content : Option Document} {v : PortValue}
    (h : ofParts? kind content = some v) : Writable v := by
  unfold ofParts? at h
  split at h
  · obtain ⟨value, hvalue, rfl⟩ := Option.map_eq_some_iff.1 h
    exact Document.sorted_value? _ value hvalue
  · cases h
    trivial
  · cases h
    trivial
  · cases h

theorem PortValue.writable_decode? {d : Document} {v : PortValue} (h : decode? d = some v) :
    Writable v := by
  have h : PortValue.read? decode? Document.name? d = some v := h
  unfold PortValue.read? at h
  split at h
  · obtain ⟨kind, -, h⟩ := Option.bind_eq_some_iff.1 h
    exact writable_ofParts? h
  · cases h
  · obtain ⟨r, -, h⟩ := Option.bind_eq_some_iff.1 h
    obtain ⟨name, -, h⟩ := Option.bind_eq_some_iff.1 h
    obtain ⟨kind, -, h⟩ := Option.bind_eq_some_iff.1 h
    exact writable_ofParts? h

namespace Outputs

theorem writable_ofList {l : List (PortId × PortValue)} (h : ∀ e ∈ l, Writable e.2) :
    Writable (Dict.ofList l : Outputs) := fun e he => by
  obtain ⟨port, v⟩ := e
  exact h _ (Dict.mem_of_ofList (Dict.mem_entries.1 he))

theorem writable_insert {o : Outputs} (h : Writable o) {port : PortId} {v : PortValue}
    (hv : Writable v) : Writable (o.insert port v) := fun e he => by
  rcases Dict.mem_put he with rfl | he
  · exact hv
  · exact h e he

theorem writable_single {port : PortId} {v : Value} (h : v.Sorted) : Writable (single port v) :=
  writable_insert (List.forall_mem_nil _) h

theorem writable_stopped (ports : List PortId) : Writable (stopped ports) :=
  writable_ofList fun e he => by
    obtain ⟨port, -, rfl⟩ := List.mem_map.1 he
    trivial

theorem writable_allStopped (o : Outputs) : Writable o.allStopped := fun e he => by
  obtain ⟨_, -, rfl⟩ := List.mem_map.1 he
  trivial

theorem sorted_value? {o : Outputs} (h : Writable o) {port : PortId} {v : Value}
    (hv : o.value? port = some v) : v.Sorted := by
  obtain ⟨p, hp, hvalue⟩ := Option.bind_eq_some_iff.1 hv
  have hwritable := h (port, p) (Dict.mem_entries.2 hp)
  cases p with
  | value w =>
    cases hvalue
    exact hwritable
  | stop => cases hvalue

theorem writable_decode? {d : Document} {o : Outputs} (h : decode? d = some o) : Writable o := by
  cases d with
  | object members =>
    obtain ⟨l, hl, rfl⟩ := Option.map_eq_some_iff.1 h
    refine writable_ofList fun e he => ?_
    obtain ⟨m, -, hm⟩ := mem_of_mapM hl he
    obtain ⟨v, hv, rfl⟩ := Option.map_eq_some_iff.1 hm
    exact PortValue.writable_decode? hv
  | _ => cases h

end Outputs

variable {σ : Type} [NodeState σ]

variable [Lossless σ]

structure Node.Expressed (n : Node σ) : Prop where
  state : Writable n.state
  outputs : Writable n.outputs

/-- If states that are read can be written, so can what a node holds that is read. -/
theorem Node.expressed_of_fits (hstates : ∀ d (s : σ), d.Fits → decode? d = some s → Writable s)
    {d : Document} {n : Node σ} (hd : d.Fits) (h : decode? d = some n) : n.Expressed := by
  obtain ⟨r, hr, h⟩ := Option.bind_eq_some_iff.1 h
  obtain ⟨id, -, h⟩ := Option.bind_eq_some_iff.1 h
  obtain ⟨state, hstate, h⟩ := Option.bind_eq_some_iff.1 h
  obtain ⟨stale, -, h⟩ := Option.bind_eq_some_iff.1 h
  obtain ⟨outputs, houtputs, h⟩ := Option.bind_eq_some_iff.1 h
  obtain ⟨claimed, -, h⟩ := Option.bind_eq_some_iff.1 h
  obtain ⟨status, -, h⟩ := Option.bind_eq_some_iff.1 h
  obtain ⟨lastError, -, h⟩ := Option.bind_eq_some_iff.1 h
  cases h
  constructor
  · obtain ⟨d', hd', hstate⟩ := Option.bind_eq_some_iff.1 hstate
    exact hstates d' state (Document.fits_record? hd hr _ (mem_of_lookup hd')) hstate
  · unfold defaulted? at houtputs
    split at houtputs
    · cases houtputs
      exact List.forall_mem_nil _
    · exact Outputs.writable_decode? houtputs

/-- What the nodes hold of a graph that is read can be written. -/
theorem Snapshot.expressed_ofText
    (hstates : ∀ d (s : σ), d.Fits → decode? d = some s → Writable s) {text : String}
    {s : Snapshot σ} (h : ofText text = .ok s) : ∀ n ∈ s.nodes, n.Expressed := by
  unfold ofText at h
  split at h
  · rename_i s' hs
    cases h
    obtain ⟨d, hd, hs⟩ := Option.bind_eq_some_iff.1 hs
    obtain ⟨r, hr, hs⟩ := Option.bind_eq_some_iff.1 hs
    obtain ⟨nodes, hnodes, hs⟩ := Option.bind_eq_some_iff.1 hs
    obtain ⟨connections, -, hs⟩ := Option.bind_eq_some_iff.1 hs
    cases hs
    obtain ⟨d', hd', hnodes⟩ := Option.bind_eq_some_iff.1 hnodes
    have hfits := Document.fits_record? (Document.fits_ofText? hd) hr _ (mem_of_lookup hd')
    intro n hn
    cases d' with
    | array items =>
      obtain ⟨item, hitem, hread⟩ := mem_of_mapM hnodes hn
      exact Node.expressed_of_fits hstates (Document.fits_array.1 hfits item hitem) hread
    | _ => cases hnodes
  · cases h

/-! ## The studio -/

namespace Studio

theorem Arithmetic.writable_of_fits {d : Document} {s : Arithmetic} (hd : d.Fits)
    (h : decode? d = some s) : Writable s := by
  obtain ⟨r, hr, h⟩ := Option.bind_eq_some_iff.1 h
  obtain ⟨operator, -, h⟩ := Option.bind_eq_some_iff.1 h
  obtain ⟨a, ha, h⟩ := Option.bind_eq_some_iff.1 h
  obtain ⟨b, hb, h⟩ := Option.bind_eq_some_iff.1 h
  cases h
  have hfits := Document.fits_record? hd hr
  exact ⟨isFinite_defaulted? hfits rfl ha, isFinite_defaulted? hfits rfl hb⟩

theorem TextGeneration.writable_of_fits {d : Document} {s : TextGeneration} (hd : d.Fits)
    (h : decode? d = some s) : Writable s := by
  obtain ⟨r, hr, h⟩ := Option.bind_eq_some_iff.1 h
  obtain ⟨model, -, h⟩ := Option.bind_eq_some_iff.1 h
  obtain ⟨prompt, -, h⟩ := Option.bind_eq_some_iff.1 h
  obtain ⟨temperature, htemperature, h⟩ := Option.bind_eq_some_iff.1 h
  obtain ⟨maxTokens, -, h⟩ := Option.bind_eq_some_iff.1 h
  obtain ⟨generated, -, h⟩ := Option.bind_eq_some_iff.1 h
  cases h
  exact isFinite_defaulted? (Document.fits_record? hd hr) (by decide +kernel) htemperature

theorem writable_of_fits (d : Document) (s : StudioNode) (hd : d.Fits) (h : decode? d = some s) :
    Writable s := by
  obtain ⟨⟨type, fields⟩, htagged, h⟩ := Option.bind_eq_some_iff.1 h
  have hfields := Document.fits_tagged? hd htagged
  dsimp only at h
  split at h
  case h_3 =>
    obtain ⟨r, hr, h⟩ := Option.bind_eq_some_iff.1 h
    obtain ⟨value, hvalue, h⟩ := Option.bind_eq_some_iff.1 h
    cases h
    exact isFinite_defaulted? (Document.fits_record? hfields hr) rfl hvalue
  case h_4 =>
    obtain ⟨s, hs, rfl⟩ := Option.map_eq_some_iff.1 h
    exact Arithmetic.writable_of_fits hfields hs
  case h_8 =>
    obtain ⟨s, hs, rfl⟩ := Option.map_eq_some_iff.1 h
    exact TextGeneration.writable_of_fits hfields hs
  case h_9 => cases h
  all_goals
    obtain ⟨s, -, rfl⟩ := Option.map_eq_some_iff.1 h
    trivial

end Studio

end Patchbay
