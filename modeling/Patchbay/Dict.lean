/-!
# Ordered dictionaries

A `Dict` is a list of entries in strictly increasing key order. The order is part of the
type, so two dictionaries that answer every look-up alike are equal (`ext_get?`), and every
listing of one (`keys`, `values`, `entries`) comes in key order without repeats.

What is proved here, next to the definitions:
  1. `get?_insert`, `get?_erase`, `get?_modify`: what each operation does to look-ups.
  2. `mem_entries`: an entry is listed exactly when it is what the look-up finds.
  3. `ext_get?`: look-ups determine the dictionary.
  4. `beq_iff`: equality of dictionaries is equality of all look-ups.
  5. `Roster.mem_ofList`: a set has the members of the list that it was made from.
-/

namespace Patchbay

open Std

/-- A finite map held as its entries in strictly increasing key order. -/
structure Dict (κ : Type) (ν : Type) [Ord κ] where
  entries : List (κ × ν)
  sorted : entries.Pairwise fun a b => compare a.1 b.1 = .lt

namespace Dict

variable {κ ν : Type} [Ord κ]

theorem entries_inj {a b : Dict κ ν} (h : a.entries = b.entries) : a = b := by
  cases a; cases b; cases h; rfl

instance [DecidableEq κ] [DecidableEq ν] : DecidableEq (Dict κ ν) := fun a b =>
  if h : a.entries = b.entries then .isTrue (entries_inj h)
  else .isFalse fun e => h (congrArg entries e)

instance [BEq κ] [BEq ν] : BEq (Dict κ ν) := ⟨fun a b => a.entries == b.entries⟩

def empty : Dict κ ν := ⟨[], .nil⟩

instance : EmptyCollection (Dict κ ν) := ⟨empty⟩
instance : Inhabited (Dict κ ν) := ⟨empty⟩

def keys (d : Dict κ ν) : List κ := d.entries.map (·.1)

def values (d : Dict κ ν) : List ν := d.entries.map (·.2)

def size (d : Dict κ ν) : Nat := d.entries.length

def isEmpty (d : Dict κ ν) : Bool := d.entries.isEmpty

def find (k : κ) : List (κ × ν) → Option ν
  | [] => none
  | e :: rest => if compare e.1 k = .eq then some e.2 else find k rest

def get? (d : Dict κ ν) (k : κ) : Option ν := find k d.entries

def contains (d : Dict κ ν) (k : κ) : Bool := (d.get? k).isSome

/-- `put` on the list of entries: in front of the first larger key, or over an equal one. -/
def put (k : κ) (v : ν) : List (κ × ν) → List (κ × ν)
  | [] => [(k, v)]
  | e :: rest =>
    match compare k e.1 with
    | .lt => (k, v) :: e :: rest
    | .eq => (k, v) :: rest
    | .gt => e :: put k v rest

theorem mem_put {k : κ} {v : ν} {e : κ × ν} {l : List (κ × ν)} (h : e ∈ put k v l) :
    e = (k, v) ∨ e ∈ l := by
  induction l with
  | nil => simpa [put] using h
  | cons a rest ih =>
    unfold put at h
    split at h
    · simpa using h
    · rcases List.mem_cons.1 h with h | h
      · exact .inl h
      · exact .inr (List.mem_cons_of_mem _ h)
    · rcases List.mem_cons.1 h with h | h
      · exact .inr (h ▸ List.mem_cons_self)
      · exact (ih h).imp_right (List.mem_cons_of_mem _)

theorem put_sorted [TransOrd κ] {k : κ} {v : ν} {l : List (κ × ν)}
    (h : l.Pairwise fun a b => compare a.1 b.1 = .lt) :
    (put k v l).Pairwise fun a b => compare a.1 b.1 = .lt := by
  induction l with
  | nil => simp [put]
  | cons a rest ih =>
    obtain ⟨ha, hrest⟩ := List.pairwise_cons.1 h
    unfold put
    split
    · rename_i hlt
      refine List.pairwise_cons.2 ⟨fun b hb => ?_, h⟩
      rcases List.mem_cons.1 hb with rfl | hb
      · exact hlt
      · exact TransCmp.lt_trans hlt (ha b hb)
    · rename_i heq
      exact List.pairwise_cons.2 ⟨fun b hb => TransCmp.lt_of_eq_of_lt heq (ha b hb), hrest⟩
    · rename_i hgt
      refine List.pairwise_cons.2 ⟨fun b hb => ?_, ih hrest⟩
      rcases mem_put hb with rfl | hb
      · exact OrientedCmp.lt_of_gt hgt
      · exact ha b hb

/-- Give `k` the value `v`, in place of any value it had. -/
def insert [TransOrd κ] (d : Dict κ ν) (k : κ) (v : ν) : Dict κ ν :=
  ⟨put k v d.entries, put_sorted d.sorted⟩

def erase (d : Dict κ ν) (k : κ) : Dict κ ν :=
  ⟨d.entries.filter fun e => compare e.1 k != .eq, d.sorted.filter _⟩

def modify (d : Dict κ ν) (k : κ) (f : ν → ν) : Dict κ ν where
  entries := d.entries.map fun e => if compare e.1 k = .eq then (e.1, f e.2) else e
  sorted := by
    refine List.pairwise_map.2 (d.sorted.imp fun {a b} h => ?_)
    split <;> split <;> exact h

def mapValues {ξ : Type} (d : Dict κ ν) (f : ν → ξ) : Dict κ ξ where
  entries := d.entries.map fun e => (e.1, f e.2)
  sorted := List.pairwise_map.2 (d.sorted.imp fun h => h)

/-- The entries from the key `k` on. -/
def entriesFrom (d : Dict κ ν) (k : κ) : List (κ × ν) :=
  d.entries.dropWhile fun e => compare e.1 k == .lt

def filter (d : Dict κ ν) (p : κ → ν → Bool) : Dict κ ν :=
  ⟨d.entries.filter fun e => p e.1 e.2, d.sorted.filter _⟩

/-- Insert the pairs one after another, so that of two with one key the later stays. -/
def ofList [TransOrd κ] (l : List (κ × ν)) : Dict κ ν :=
  l.foldl (fun d e => d.insert e.1 e.2) empty

/-! ## Look-ups after each operation -/

@[simp] theorem get?_empty (k : κ) : (empty : Dict κ ν).get? k = none := rfl

theorem find_eq_some_of_mem [OrientedOrd κ] [LawfulEqOrd κ] {l : List (κ × ν)}
    (hl : l.Pairwise fun a b => compare a.1 b.1 = .lt) {e : κ × ν} (he : e ∈ l) :
    find e.1 l = some e.2 := by
  induction l with
  | nil => simp at he
  | cons a rest ih =>
    obtain ⟨ha, hrest⟩ := List.pairwise_cons.1 hl
    rcases List.mem_cons.1 he with rfl | he
    · simp [find]
    · have hne : compare a.1 e.1 ≠ .eq := by rw [ha e he]; decide
      simp [find, hne, ih hrest he]

theorem mem_of_find [LawfulEqOrd κ] {l : List (κ × ν)} {k : κ} {v : ν}
    (h : find k l = some v) : (k, v) ∈ l := by
  induction l with
  | nil => simp [find] at h
  | cons a rest ih =>
    unfold find at h
    split at h
    · rename_i heq
      cases h
      obtain rfl := compare_eq_iff_eq.1 heq
      exact List.mem_cons_self
    · exact List.mem_cons_of_mem _ (ih h)

/-- An entry is listed exactly when it is what the look-up finds. -/
theorem mem_entries [OrientedOrd κ] [LawfulEqOrd κ] {d : Dict κ ν} {k : κ} {v : ν} :
    (k, v) ∈ d.entries ↔ d.get? k = some v :=
  ⟨find_eq_some_of_mem d.sorted, mem_of_find⟩

theorem find_put [TransOrd κ] [LawfulEqOrd κ] (k : κ) (v : ν) (l : List (κ × ν)) (k' : κ) :
    find k' (put k v l) = if compare k k' = .eq then some v else find k' l := by
  induction l with
  | nil => simp [put, find]
  | cons a rest ih =>
    unfold put
    split
    · simp [find]
    · rename_i heq
      obtain rfl := compare_eq_iff_eq.1 heq
      by_cases h : compare a.1 k' = .eq <;> simp [find, h]
    · rename_i hgt
      by_cases h : compare a.1 k' = .eq
      · obtain rfl := compare_eq_iff_eq.1 h
        have : compare k a.1 ≠ .eq := by rw [hgt]; decide
        simp [find, this]
      · simp [find, h, ih]

theorem get?_insert [TransOrd κ] [LawfulEqOrd κ] (d : Dict κ ν) (k : κ) (v : ν) (k' : κ) :
    (d.insert k v).get? k' = if compare k k' = .eq then some v else d.get? k' :=
  find_put k v d.entries k'

@[simp] theorem get?_insert_self [TransOrd κ] [LawfulEqOrd κ] (d : Dict κ ν) (k : κ) (v : ν) :
    (d.insert k v).get? k = some v := by
  simp [get?_insert]

theorem get?_erase [LawfulEqOrd κ] (d : Dict κ ν) (k k' : κ) :
    (d.erase k).get? k' = if compare k k' = .eq then none else d.get? k' := by
  obtain ⟨l, hl⟩ := d
  simp only [get?, erase]
  clear hl
  induction l with
  | nil => simp [find]
  | cons a rest ih =>
    by_cases h : compare a.1 k = .eq
    · obtain rfl := compare_eq_iff_eq.1 h
      by_cases h' : compare a.1 k' = .eq <;> simp_all [find]
    · by_cases h' : compare a.1 k' = .eq
      · obtain rfl := compare_eq_iff_eq.1 h'
        have hk : compare k a.1 ≠ .eq := fun e => h (by rw [compare_eq_iff_eq.1 e]; simp)
        simp [find, h, hk]
      · simp_all [find]

theorem get?_modify [LawfulEqOrd κ] (d : Dict κ ν) (k : κ) (f : ν → ν) (k' : κ) :
    (d.modify k f).get? k' =
      if compare k k' = .eq then (d.get? k').map f else d.get? k' := by
  obtain ⟨l, hl⟩ := d
  simp only [get?, modify]
  clear hl
  induction l with
  | nil => simp [find]
  | cons a rest ih =>
    by_cases h : compare a.1 k = .eq
    · obtain rfl := compare_eq_iff_eq.1 h
      by_cases h' : compare a.1 k' = .eq <;> simp_all [find]
    · by_cases h' : compare a.1 k' = .eq
      · obtain rfl := compare_eq_iff_eq.1 h'
        have hk : compare k a.1 ≠ .eq := fun e => h (by rw [compare_eq_iff_eq.1 e]; simp)
        simp [find, h, hk]
      · simp_all [find]

theorem get?_filter_eq_some [OrientedOrd κ] [LawfulEqOrd κ] {d : Dict κ ν} {p : κ → ν → Bool}
    {k : κ} {v : ν} : (d.filter p).get? k = some v ↔ d.get? k = some v ∧ p k v = true := by
  rw [← mem_entries, ← mem_entries, filter]
  exact List.mem_filter

theorem isSome_ofList [TransOrd κ] [LawfulEqOrd κ] {l : List (κ × ν)} {k : κ}
    (h : k ∈ l.map (·.1)) : ((ofList l).get? k).isSome = true := by
  suffices hfold : ∀ d : Dict κ ν, (d.get? k).isSome = true ∨ k ∈ l.map (·.1) →
      ((l.foldl (fun d e => d.insert e.1 e.2) d).get? k).isSome = true by
    exact hfold .empty (.inr h)
  clear h
  induction l with
  | nil => simp
  | cons a rest ih =>
    intro d h
    refine ih _ ?_
    rw [get?_insert]
    split
    · exact .inl rfl
    · rename_i hne
      refine h.imp_right fun hmem => ?_
      rw [List.map_cons, List.mem_cons] at hmem
      exact hmem.resolve_left fun he => hne (compare_eq_iff_eq.2 he.symm)

theorem mem_of_ofList [TransOrd κ] [LawfulEqOrd κ] {l : List (κ × ν)} {k : κ} {v : ν}
    (h : (ofList l).get? k = some v) : (k, v) ∈ l := by
  suffices hfold : ∀ d : Dict κ ν, (l.foldl (fun d e => d.insert e.1 e.2) d).get? k = some v →
      d.get? k = some v ∨ (k, v) ∈ l by
    exact (hfold .empty h).resolve_left (by simp)
  clear h
  induction l with
  | nil => exact fun d h => .inl h
  | cons a rest ih =>
    intro d h
    rcases ih _ h with h | h
    · rw [get?_insert] at h
      split at h
      · rename_i he
        cases h
        obtain rfl := compare_eq_iff_eq.1 he
        exact .inr List.mem_cons_self
      · exact .inl h
    · exact .inr (List.mem_cons_of_mem _ h)

theorem ne_lt_of_mem_entriesFrom [TransOrd κ] {d : Dict κ ν} {k : κ} {e : κ × ν}
    (he : e ∈ d.entriesFrom k) : compare e.1 k ≠ .lt := by
  obtain ⟨l, hl⟩ := d
  simp only [entriesFrom] at he
  induction l with
  | nil => cases he
  | cons a rest ih =>
    obtain ⟨ha, hrest⟩ := List.pairwise_cons.1 hl
    rw [List.dropWhile_cons] at he
    split at he
    · exact ih hrest he
    · rename_i hak
      intro hek
      rcases List.mem_cons.1 he with rfl | he
      · exact hak (beq_iff_eq.2 hek)
      · exact hak (beq_iff_eq.2 (TransCmp.lt_trans (ha e he) hek))

theorem sorted_entriesFrom (d : Dict κ ν) (k : κ) :
    (d.entriesFrom k).Pairwise fun a b => compare a.1 b.1 = .lt :=
  d.sorted.sublist (List.dropWhile_sublist _)

theorem mem_keys [OrientedOrd κ] [LawfulEqOrd κ] {d : Dict κ ν} {k : κ} :
    k ∈ d.keys ↔ (d.get? k).isSome = true := by
  rw [keys, List.mem_map, Option.isSome_iff_exists]
  constructor
  · rintro ⟨⟨k, v⟩, hmem, rfl⟩
    exact ⟨v, mem_entries.1 hmem⟩
  · rintro ⟨v, hv⟩
    exact ⟨(k, v), mem_entries.2 hv, rfl⟩

theorem length_keys (d : Dict κ ν) : d.keys.length = d.size := List.length_map _

theorem nodup_keys [OrientedOrd κ] (d : Dict κ ν) : d.keys.Nodup := by
  refine List.pairwise_map.2 (d.sorted.imp fun {a b} hlt he => ?_)
  rw [he, ReflOrd.compare_self] at hlt
  cases hlt

theorem nodup_entries [OrientedOrd κ] (d : Dict κ ν) : d.entries.Nodup :=
  (List.pairwise_map.1 d.nodup_keys).imp fun hne he => hne (congrArg Prod.fst he)

/-! ## Extensionality -/

theorem eq_of_mem_iff [TransOrd κ] : ∀ {l m : List (κ × ν)},
    l.Pairwise (fun a b => compare a.1 b.1 = .lt) →
    m.Pairwise (fun a b => compare a.1 b.1 = .lt) → (∀ e, e ∈ l ↔ e ∈ m) → l = m
  | [], [], _, _, _ => rfl
  | [], b :: _, _, _, h => absurd ((h b).2 List.mem_cons_self) (by simp)
  | a :: _, [], _, _, h => absurd ((h a).1 List.mem_cons_self) (by simp)
  | a :: l, b :: m, hl, hm, h => by
    obtain ⟨ha, hl'⟩ := List.pairwise_cons.1 hl
    obtain ⟨hb, hm'⟩ := List.pairwise_cons.1 hm
    have irrefl : ∀ {x : κ}, compare x x ≠ .lt := fun {x} => by
      simp [ReflOrd.compare_self]
    have hab : a = b := by
      rcases List.mem_cons.1 ((h a).1 List.mem_cons_self) with e | e
      · exact e
      · rcases List.mem_cons.1 ((h b).2 List.mem_cons_self) with e' | e'
        · exact e'.symm
        · exact absurd (TransCmp.lt_trans (ha b e') (hb a e)) irrefl
    subst hab
    refine congrArg (a :: ·) (eq_of_mem_iff hl' hm' fun e => ⟨fun he => ?_, fun he => ?_⟩)
    · rcases List.mem_cons.1 ((h e).1 (List.mem_cons_of_mem _ he)) with rfl | h'
      · exact absurd (ha e he) irrefl
      · exact h'
    · rcases List.mem_cons.1 ((h e).2 (List.mem_cons_of_mem _ he)) with rfl | h'
      · exact absurd (hb e he) irrefl
      · exact h'

/-- Look-ups determine the dictionary. -/
theorem ext_get? [TransOrd κ] [LawfulEqOrd κ] {a b : Dict κ ν}
    (h : ∀ k, a.get? k = b.get? k) : a = b := by
  refine entries_inj (eq_of_mem_iff a.sorted b.sorted fun ⟨k, v⟩ => ?_)
  rw [mem_entries, mem_entries, h k]

/-! ## Equality -/

theorem find_eq_none [OrientedOrd κ] {l : List (κ × ν)} {k : κ}
    (h : ∀ e ∈ l, compare k e.1 = .lt) : find k l = none := by
  induction l with
  | nil => rfl
  | cons a rest ih =>
    have ha : compare a.1 k ≠ .eq := by
      rw [OrientedOrd.eq_swap, h a List.mem_cons_self]
      decide
    rw [find, if_neg ha]
    exact ih fun e he => h e (List.mem_cons_of_mem _ he)

theorem find_eq_none_of_lt [TransOrd κ] {k : κ} {b : κ × ν} {m : List (κ × ν)}
    (hb : ∀ e ∈ m, compare b.1 e.1 = .lt) (h : compare k b.1 = .lt) : find k (b :: m) = none := by
  refine find_eq_none fun e he => ?_
  rcases List.mem_cons.1 he with rfl | he
  · exact h
  · exact TransCmp.lt_trans h (hb e he)

theorem beq_entries_iff [TransOrd κ] [LawfulEqOrd κ] [BEq κ] [LawfulBEq κ] [BEq ν] :
    ∀ {l m : List (κ × ν)}, l.Pairwise (fun a b => compare a.1 b.1 = .lt) →
    m.Pairwise (fun a b => compare a.1 b.1 = .lt) →
    ((l == m) = true ↔ ∀ k, (find k l == find k m) = true)
  | [], [], _, _ => by simp [find]
  | [], b :: m, _, _ => by
    refine ⟨fun h => absurd h (by simp), fun h => ?_⟩
    have hb := h b.1
    simp [find] at hb
  | a :: l, [], _, _ => by
    refine ⟨fun h => absurd h (by simp), fun h => ?_⟩
    have ha := h a.1
    simp [find] at ha
  | a :: l, b :: m, hl, hm => by
    obtain ⟨ha, hl⟩ := List.pairwise_cons.1 hl
    obtain ⟨hb, hm⟩ := List.pairwise_cons.1 hm
    have ih := beq_entries_iff hl hm
    simp only [List.cons_beq_cons, Bool.and_eq_true, ih]
    constructor
    · intro hex k
      obtain ⟨hab, hrest⟩ := hex
      obtain ⟨hk, hv⟩ : a.1 = b.1 ∧ (a.2 == b.2) = true := by simpa [BEq.beq] using hab
      simp only [find, hk]
      split
      · exact hv
      · exact hrest k
    · intro h
      have hab : compare a.1 b.1 = .eq := by
        cases hc : compare a.1 b.1 with
        | eq => rfl
        | lt =>
          have hk := h a.1
          rw [find_eq_none_of_lt hb hc] at hk
          simp [find] at hk
        | gt =>
          have hk := h b.1
          rw [find_eq_none_of_lt ha (OrientedCmp.lt_of_gt hc)] at hk
          simp [find] at hk
      have hk := compare_eq_iff_eq.1 hab
      have hv : (a.2 == b.2) = true := by simpa [find, hk] using h b.1
      refine ⟨by simp [BEq.beq, hk] at hv ⊢; exact hv, fun k => ?_⟩
      by_cases hc : compare b.1 k = .eq
      · obtain rfl := compare_eq_iff_eq.1 hc
        rw [find_eq_none fun e he => hk ▸ ha e he, find_eq_none hb]
        rfl
      · simpa [find, hk, hc] using h k

/-- Dictionaries are equal exactly when all look-ups are. -/
theorem beq_iff [TransOrd κ] [LawfulEqOrd κ] [BEq κ] [LawfulBEq κ] [BEq ν] {a b : Dict κ ν} :
    (a == b) = true ↔ ∀ k, (a.get? k == b.get? k) = true :=
  beq_entries_iff a.sorted b.sorted

theorem beq_insert [TransOrd κ] [LawfulEqOrd κ] [BEq κ] [LawfulBEq κ] [BEq ν] {a b : Dict κ ν}
    (h : (a == b) = true) (k : κ) {v v' : ν} (hv : (v == v') = true) :
    (a.insert k v == b.insert k v') = true := by
  apply beq_iff.2
  intro k'
  rw [get?_insert, get?_insert]
  split
  · exact hv
  · exact beq_iff.1 h k'

instance [TransOrd κ] [LawfulEqOrd κ] [BEq κ] [LawfulBEq κ] [BEq ν] [EquivBEq ν] :
    EquivBEq (Dict κ ν) where
  rfl {a} := beq_iff.2 fun k => by cases a.get? k <;> simp
  symm {a b} h := beq_iff.2 fun k => by
    have h := beq_iff.1 h k
    cases ha : a.get? k <;> cases hb : b.get? k <;> simp_all [BEq.symm]
  trans {a b c} h h' := beq_iff.2 fun k => by
    have h := beq_iff.1 h k
    have h' := beq_iff.1 h' k
    cases ha : a.get? k <;> cases hb : b.get? k <;> cases hc : c.get? k <;> simp_all
    exact BEq.trans h h'

end Dict

/-- An ordered set: a dictionary whose values say nothing. -/
abbrev Roster (κ : Type) [Ord κ] := Dict κ Unit

namespace Roster

variable {κ : Type} [Ord κ]

def toList (s : Roster κ) : List κ := s.keys

def add [TransOrd κ] (s : Roster κ) (k : κ) : Roster κ := s.insert k ()

def ofList [TransOrd κ] (l : List κ) : Roster κ := l.foldl add Dict.empty

theorem length_put (k : κ) (l : List (κ × Unit)) :
    (Dict.put k () l).length ≤ l.length + 1 := by
  induction l with
  | nil => simp [Dict.put]
  | cons a rest ih =>
    unfold Dict.put
    split <;> simp only [List.length_cons] <;> omega

theorem length_toList_ofList [TransOrd κ] (l : List κ) :
    (ofList l).toList.length ≤ l.length := by
  suffices h : ∀ s : Roster κ, (l.foldl add s).entries.length ≤ s.entries.length + l.length by
    simpa [ofList, toList, Dict.keys, Dict.empty] using h .empty
  induction l with
  | nil => simp
  | cons a rest ih =>
    intro s
    have h1 := ih (s.add a)
    have h2 : (s.add a).entries.length ≤ s.entries.length + 1 := length_put a s.entries
    simp only [List.foldl_cons, List.length_cons]
    omega

/-! ## Membership -/

theorem mem_toList [OrientedOrd κ] [LawfulEqOrd κ] {s : Roster κ} {k : κ} :
    k ∈ s.toList ↔ s.contains k = true := by
  rw [toList, Dict.keys, List.mem_map, Dict.contains, Option.isSome_iff_exists]
  constructor
  · intro hex
    obtain ⟨⟨k, v⟩, hmem, rfl⟩ := hex
    exact ⟨v, Dict.mem_entries.1 hmem⟩
  · intro hex
    obtain ⟨v, hv⟩ := hex
    exact ⟨(k, v), Dict.mem_entries.2 hv, rfl⟩

theorem contains_add [TransOrd κ] [LawfulEqOrd κ] (s : Roster κ) (k k' : κ) :
    (s.add k).contains k' = true ↔ k = k' ∨ s.contains k' = true := by
  rw [add, Dict.contains, Dict.get?_insert]
  split
  · rename_i h
    simp [compare_eq_iff_eq.1 h]
  · rename_i h
    have hne : k ≠ k' := fun e => h (compare_eq_iff_eq.2 e)
    simp [hne, Dict.contains]

theorem contains_erase [LawfulEqOrd κ] (s : Roster κ) (k k' : κ) :
    (s.erase k).contains k' = true ↔ k ≠ k' ∧ s.contains k' = true := by
  rw [Dict.contains, Dict.get?_erase]
  split
  · rename_i h
    simp [compare_eq_iff_eq.1 h]
  · rename_i h
    have hne : k ≠ k' := fun e => h (compare_eq_iff_eq.2 e)
    simp [hne, Dict.contains]

theorem mem_ofList [TransOrd κ] [LawfulEqOrd κ] {l : List κ} {k : κ} :
    k ∈ (ofList l).toList ↔ k ∈ l := by
  suffices h : ∀ s : Roster κ, (l.foldl add s).contains k = true ↔
      s.contains k = true ∨ k ∈ l by
    rw [mem_toList, ofList, h]
    simp [Dict.contains]
  induction l with
  | nil => simp
  | cons a rest ih =>
    intro s
    rw [List.foldl_cons, ih, contains_add, List.mem_cons, eq_comm (a := a)]
    rw [or_comm (a := k = a), or_assoc]

end Roster

end Patchbay
