import Mathlib.Data.Fintype.Card
import Mathlib.Data.List.Nodup
import Mathlib.Data.List.Perm.Subperm
import Mathlib.Data.Set.Finite.Basic
import Mathlib.Logic.Relation
import Mathlib.Order.WellFounded
import Mathlib.Tactic.ByContra
import Patchbay.Peeling

/-!
# What peeling leaves

A node is taken away when the edges from the nodes that were taken away before are all that lead
to it. So no node of a circle ever is: the first one of them would have to come after the one in
front of it.

What is proved here:
  1. `get?_release`, `mem_release`: what becomes of the counts when a node is taken away.
  2. `Peeled.step`, `Peeled.exists_done`: at every time the nodes without a count are those that
     are taken away or queued, and each is so once.
  3. `peel_lt_iff`: something is left if the edges lead in a circle, or if one of them starts at a
     node that has no count and so can never be taken away.
-/

namespace Patchbay

open Relation

namespace Edges

def Joins (edges : Edges) (u v : String) : Prop := (u, v) ∈ edges

def into (edges : Edges) (v : String) : Nat := edges.countP fun e => e.2 = v

def between (edges : Edges) (u v : String) : Nat := edges.countP fun e => e.1 = u ∧ e.2 = v

def intoFrom (edges : Edges) (sources : List String) (v : String) : Nat :=
  edges.countP fun e => e.1 ∈ sources ∧ e.2 = v

variable {edges : Edges} {u v : String} {sources : List String}

theorem into_pos : 0 < edges.into v ↔ ∃ u, edges.Joins u v := by
  rw [into, List.countP_pos_iff]
  constructor
  · rintro ⟨e, he, hv⟩
    obtain rfl := of_decide_eq_true hv
    exact ⟨e.1, he⟩
  · rintro ⟨u, hu⟩
    exact ⟨(u, v), hu, decide_eq_true rfl⟩

theorem into_cons (e : String × String) (edges : Edges) (v : String) :
    into (e :: edges) v = edges.into v + if e.2 = v then 1 else 0 := by
  simp only [into, List.countP_cons, decide_eq_true_eq]

theorem intoFrom_le (edges : Edges) (sources : List String) (v : String) :
    edges.intoFrom sources v ≤ edges.into v := by
  refine List.countP_mono_left fun e _ h => ?_
  simp only [decide_eq_true_eq] at h ⊢
  exact h.2

theorem intoFrom_nil (edges : Edges) (v : String) : edges.intoFrom [] v = 0 := by
  simp [intoFrom]

theorem intoFrom_cons (edges : Edges) (v : String) (h : u ∉ sources) :
    edges.intoFrom (u :: sources) v = edges.between u v + edges.intoFrom sources v := by
  induction edges with
  | nil => rfl
  | cons e rest ih =>
    simp only [intoFrom, between, List.countP_cons] at ih ⊢
    rw [ih]
    by_cases hu : e.1 = u
    · subst hu
      by_cases hv : e.2 = v
      · simp [h, hv]
        omega
      · simp [hv]
    · by_cases hs : e.1 ∈ sources
      · simp [hu, hs]
        omega
      · simp [hu, hs]

/-- If all edges to a node are from a list, every node before it is in the list. -/
theorem mem_of_intoFrom_eq (h : edges.intoFrom sources v = edges.into v) (hu : edges.Joins u v) :
    u ∈ sources := by
  by_contra hnot
  have hle := intoFrom_le edges (u :: sources) v
  have hpos : 0 < edges.between u v :=
    List.countP_pos_iff.2 ⟨(u, v), hu, by simp⟩
  rw [intoFrom_cons edges v hnot] at hle
  omega

/-- If every node before a node is in the list, all edges to it are from the list. -/
theorem intoFrom_eq_into (h : ∀ u, edges.Joins u v → u ∈ sources) :
    edges.intoFrom sources v = edges.into v := by
  refine List.countP_congr fun e he => ?_
  simp only [decide_eq_true_eq, and_iff_right_iff_imp]
  intro hv
  exact h e.1 (hv ▸ he)

end Edges

namespace Degrees

variable {d : Degrees} {edges : Edges} {node v : String}

/-! ## One node less -/

theorem get?_lower (d : Degrees) (node v : String) :
    (d.lower node).1.get? v = if node = v then (d.get? v).map (· - 1) else d.get? v := by
  rw [lower, Dict.get?_modify]
  simp only [Std.compare_eq_iff_eq]

theorem mem_lower : v ∈ (d.lower node).2 ↔ node = v ∧ d.get? v = some 1 := by
  rw [lower]
  by_cases hnode : node = v
  · subst hnode
    by_cases h1 : d.get? node = some 1 <;> simp [h1]
  · have hne : v ≠ node := fun e => hnode e.symm
    by_cases h1 : d.get? node = some 1 <;> simp [h1, hnode, hne]

theorem get?_release (d : Degrees) (node : String) (edges : Edges) (v : String) :
    (d.release node edges).1.get? v = (d.get? v).map (· - edges.between node v) := by
  induction edges generalizing d with
  | nil => simp [release, Edges.between]
  | cons e rest ih =>
    rw [release, Edges.between, List.countP_cons]
    by_cases hnode : e.1 = node
    · simp only [hnode, if_true, true_and, decide_eq_true_eq]
      rw [ih, get?_lower]
      by_cases hv : e.2 = v
      · simp only [hv, if_true, Option.map_map]
        congr 1
        funext k
        simp only [Function.comp, Edges.between]
        omega
      · simp [hv, Edges.between]
    · simp [hnode, ih, Edges.between]

/-- The nodes that become free are those to which the edges were the last ones. -/
theorem mem_release : v ∈ (d.release node edges).2 ↔
    ∃ k, d.get? v = some k ∧ 0 < k ∧ k ≤ edges.between node v := by
  induction edges generalizing d with
  | nil =>
    simp only [release, Edges.between, List.countP_nil, List.not_mem_nil, false_iff]
    rintro ⟨k, -, hpos, hle⟩
    omega
  | cons e rest ih =>
    rw [release, Edges.between, List.countP_cons]
    by_cases hnode : e.1 = node
    · simp only [hnode, if_true, true_and, decide_eq_true_eq]
      rw [List.mem_append, mem_lower, ih, get?_lower]
      by_cases hv : e.2 = v
      · simp only [hv, if_true, true_and]
        cases hk : d.get? v with
        | none => simp
        | some k =>
          simp only [Option.map_some, Option.some.injEq, exists_eq_left', Edges.between]
          omega
      · simp [hv, Edges.between]
    · simp [hnode, ih, Edges.between]

theorem nodup_release (d : Degrees) (node : String) (edges : Edges) :
    (d.release node edges).2.Nodup := by
  induction edges generalizing d with
  | nil => exact .nil
  | cons e rest ih =>
    rw [release]
    split
    · refine List.nodup_append'.2 ⟨?_, ih _, fun v hfirst hlater => ?_⟩
      · unfold lower
        split
        · exact List.nodup_singleton _
        · exact .nil
      -- What has become free has no count left that a later edge could lower to zero.
      · obtain ⟨hv, h1⟩ := mem_lower.1 hfirst
        obtain ⟨k, hk, hpos, -⟩ := mem_release.1 hlater
        rw [get?_lower, if_pos hv, h1] at hk
        cases hk
        exact absurd hpos (by decide)
    · exact ih d

/-! ## The counts at the start -/

theorem get?_raise (d : Degrees) (node v : String) :
    (d.raise node).get? v = if node = v then some ((d.get? v).getD 0 + 1) else d.get? v := by
  rw [raise, Dict.get?_insert]
  simp only [Std.compare_eq_iff_eq]
  split
  · rename_i h
    rw [h]
  · rfl

theorem get?_raiseAll (d : Degrees) (edges : Edges) (v : String) :
    (edges.foldl (fun d e => d.raise e.2) d).get? v =
      if 0 < edges.into v then some ((d.get? v).getD 0 + edges.into v) else d.get? v := by
  induction edges generalizing d with
  | nil => rfl
  | cons e rest ih =>
    rw [List.foldl_cons, ih, get?_raise, Edges.into_cons]
    by_cases hv : e.2 = v
    · rw [if_pos hv, if_pos hv, if_pos (Nat.succ_pos _), Option.getD_some]
      split
      · congr 1
        omega
      · congr 1
        omega
    · rw [if_neg hv, if_neg hv, Nat.add_zero]

theorem getD_zero (nodes : List String) (v : String) : ((zero nodes).get? v).getD 0 = 0 := by
  suffices h : ∀ d : Degrees, (d.get? v).getD 0 = 0 →
      (((nodes.map (·, 0)).foldl (fun d e => d.insert e.1 e.2) d).get? v).getD 0 = 0 by
    exact h .empty rfl
  induction nodes with
  | nil => exact fun d h => h
  | cons a rest ih =>
    intro d h
    refine ih _ ?_
    rw [Dict.get?_insert]
    split
    · rfl
    · exact h

theorem getD_ofEdges (nodes : List String) (edges : Edges) (v : String) :
    ((ofEdges nodes edges).get? v).getD 0 = edges.into v := by
  rw [ofEdges, get?_raiseAll, getD_zero]
  split
  · simp
  · rw [getD_zero]
    omega

theorem isSome_ofEdges {nodes : List String} :
    ((ofEdges nodes edges).get? v).isSome = true ↔ v ∈ nodes ∨ ∃ u, edges.Joins u v := by
  rw [ofEdges, get?_raiseAll, ← Edges.into_pos]
  split
  · rename_i hpos
    exact iff_of_true rfl (.inr hpos)
  · rename_i hnone
    rw [or_iff_left hnone, Option.isSome_iff_exists]
    constructor
    · rintro ⟨k, hk⟩
      obtain ⟨u, hu, he⟩ := List.mem_map.1 (Dict.mem_of_ofList hk)
      rwa [← (Prod.mk.inj he).1]
    · intro hv
      refine Option.isSome_iff_exists.1 (Dict.isSome_ofList ?_)
      rw [List.map_map]
      exact List.mem_map.2 ⟨v, hv, rfl⟩

theorem mem_free : v ∈ d.free ↔ d.get? v = some 0 := by
  rw [free, List.mem_map]
  constructor
  · rintro ⟨e, he, rfl⟩
    obtain ⟨he, hzero⟩ := List.mem_filter.1 he
    rw [← of_decide_eq_true hzero]
    exact Dict.mem_entries.1 he
  · intro h
    exact ⟨(v, 0), List.mem_filter.2 ⟨Dict.mem_entries.2 h, by simp⟩, rfl⟩

theorem nodup_free (d : Degrees) : d.free.Nodup :=
  d.nodup_keys.sublist (List.filter_sublist.map _)

/-! ## The course of the peeling -/

/-- The state of a peeling: what is taken away and what is queued are the nodes without a count,
each once, and what was taken away is missing from the counts of the others. -/
structure Peeled (edges : Edges) (d : Degrees) (queue done : List String) : Prop where
  nodup : (queue ++ done).Nodup
  mem : ∀ v, v ∈ queue ++ done ↔ d.get? v = some 0
  count : ∀ v, (d.get? v).getD 0 + edges.intoFrom done v = edges.into v

variable {queue done : List String}

theorem Peeled.start (nodes : List String) (edges : Edges) :
    Peeled edges (ofEdges nodes edges) (ofEdges nodes edges).free [] where
  nodup := by
    rw [List.append_nil]
    exact nodup_free _
  mem v := by rw [List.append_nil, mem_free]
  count v := by rw [Edges.intoFrom_nil, getD_ofEdges, Nat.add_zero]

theorem Peeled.between_le (h : Peeled edges d (node :: queue) done) (v : String) :
    edges.between node v ≤ (d.get? v).getD 0 := by
  have hnew : node ∉ done := fun hd =>
    (List.nodup_cons.1 h.nodup).1 (List.mem_append_right _ hd)
  have hcount := h.count v
  have hle := edges.intoFrom_le (node :: done) v
  rw [Edges.intoFrom_cons edges v hnew] at hle
  omega

theorem Peeled.not_mem_of_release (h : Peeled edges d (node :: queue) done) :
    ∀ v ∈ (d.release node edges).2, v ∉ node :: (queue ++ done) := by
  intro v hv hold
  obtain ⟨k, hk, hpos, -⟩ := mem_release.1 hv
  rw [(h.mem v).1 hold] at hk
  cases hk
  exact absurd hpos (by decide)

theorem Peeled.step (h : Peeled edges d (node :: queue) done) :
    Peeled edges (d.release node edges).1 (queue ++ (d.release node edges).2)
      (node :: done) := by
  have hperm : (queue ++ (d.release node edges).2 ++ node :: done).Perm
      ((d.release node edges).2 ++ node :: (queue ++ done)) := by
    refine (List.perm_append_comm.append_right _).trans ?_
    rw [List.append_assoc]
    exact List.perm_middle.append_left _
  refine ⟨?_, fun v => ?_, fun v => ?_⟩
  · rw [hperm.nodup_iff, List.nodup_append']
    exact ⟨nodup_release d node edges, h.nodup, h.not_mem_of_release⟩
  · have hle := h.between_le v
    have hold := h.mem v
    rw [hperm.mem_iff, List.mem_append, mem_release, get?_release]
    rw [List.cons_append] at hold
    rw [hold]
    cases hk : d.get? v with
    | none => simp
    | some k =>
      simp only [Option.map_some, Option.some.injEq, exists_eq_left']
      omega
  · have hle := h.between_le v
    have hcount := h.count v
    have hnew : node ∉ done := fun hd =>
      (List.nodup_cons.1 h.nodup).1 (List.mem_append_right _ hd)
    rw [Edges.intoFrom_cons edges v hnew, get?_release]
    cases hk : d.get? v with
    | none =>
      rw [hk] at hle hcount
      simp only [Option.getD_none, Option.map_none] at hle hcount ⊢
      omega
    | some k =>
      rw [hk] at hle hcount
      simp only [Option.getD_some, Option.map_some] at hle hcount ⊢
      omega

theorem Peeled.mem_done (h : Peeled edges d queue done) {u v : String}
    (hv : v ∈ queue ++ done) (hu : edges.Joins u v) : u ∈ done := by
  have hcount := h.count v
  rw [(h.mem v).1 hv, Option.getD_some, Nat.zero_add] at hcount
  exact Edges.mem_of_intoFrom_eq hcount hu

/-- The peeling comes to an end where nothing is queued. A set of nodes that each have one of the
set before them stays. -/
theorem Peeled.exists_done (h : Peeled edges d queue done) {C : String → Prop}
    (hC : ∀ v, C v → ∃ u, C u ∧ edges.Joins u v) (hapart : ∀ v ∈ queue ++ done, ¬ C v) :
    ∃ d' done', Peeled edges d' [] done' ∧ done'.length = done.length + d.peel edges queue ∧
      (∀ v, (d'.get? v).isSome = (d.get? v).isSome) ∧ ∀ v ∈ done', ¬ C v := by
  fun_induction peel d edges queue generalizing done with
  | case1 d => exact ⟨d, done, h, rfl, fun _ => rfl, hapart⟩
  | case2 d node queue r =>
    rename_i ih
    have hstep := h.step
    obtain ⟨d', done', hend, hlength, hkeys, hleft⟩ := ih hstep fun v hv hc => by
      -- A member of the set that has just become free would come after another member.
      obtain ⟨u, hu, huv⟩ := hC v hc
      have hmem := hstep.mem_done hv huv
      refine hapart u ?_ hu
      rcases List.mem_cons.1 hmem with rfl | hmem
      · exact List.mem_cons_self
      · exact List.mem_append_right _ hmem
    refine ⟨d', done', hend, ?_, fun v => ?_, hleft⟩
    · rw [hlength, List.length_cons]
      omega
    · rw [hkeys, get?_release, Option.isSome_map]

/-- What was taken away has an entry each, so an entry of another node is left. -/
theorem Peeled.length_lt {d₀ : Degrees} (h : Peeled edges d [] done)
    (hkeys : ∀ v, (d.get? v).isSome = (d₀.get? v).isSome) (hv : (d₀.get? v).isSome = true)
    (hnot : v ∉ done) : done.length < d₀.size := by
  have hsub : ∀ w ∈ v :: done, w ∈ d₀.keys := by
    intro w hw
    rw [Dict.mem_keys]
    rcases List.mem_cons.1 hw with rfl | hw
    · exact hv
    · rw [← hkeys, (h.mem w).1 hw]
      rfl
  have hnodup : (v :: done).Nodup := List.nodup_cons.2 ⟨hnot, h.nodup⟩
  have hle := (hnodup.subperm hsub).length_le
  rwa [List.length_cons, Dict.length_keys] at hle

end Degrees

/-- Edges that lead in no circle can be followed backwards to an end. -/
theorem Edges.wellFounded_joins {edges : Edges} (h : ∀ v, ¬ TransGen edges.Joins v v) :
    WellFounded edges.Joins := by
  -- Only finitely many nodes have edges that start at them.
  let before : {v // v ∈ edges.map (·.1)} → {v // v ∈ edges.map (·.1)} → Prop :=
    fun u v => TransGen edges.Joins u v
  have : Finite {v // v ∈ edges.map (·.1)} := (List.finite_toSet _).to_subtype
  have : IsTrans _ before := ⟨fun _ _ _ => TransGen.trans⟩
  have : Std.Irrefl before := ⟨fun v => h v⟩
  have hwf : WellFounded before := Finite.wellFounded_of_trans_of_irrefl before
  have hsource : ∀ {u v}, edges.Joins u v → u ∈ edges.map (·.1) := fun huv =>
    List.mem_map.2 ⟨_, huv, rfl⟩
  have hacc : ∀ v : {v // v ∈ edges.map (·.1)}, Acc edges.Joins v := by
    intro v
    induction v using hwf.induction with
    | _ v ih => exact ⟨v.1, fun u huv => ih ⟨u, hsource huv⟩ (.single huv)⟩
  exact ⟨fun v => ⟨v, fun u huv => hacc ⟨u, hsource huv⟩⟩⟩

def Edges.Circular (edges : Edges) : Prop := ∃ v, TransGen edges.Joins v v

/-- Some edge starts at a node that is not listed and that no edge leads to. -/
def Edges.Stray (edges : Edges) (nodes : List String) : Prop :=
  ∃ u v, edges.Joins u v ∧ u ∉ nodes ∧ ∀ w, ¬ edges.Joins w u

namespace Degrees

variable {nodes queue : List String} {edges : Edges}

theorem peel_lt_of_circular (hstart : Peeled edges (ofEdges nodes edges) queue [])
    (hcircle : edges.Circular) :
    (ofEdges nodes edges).peel edges queue < (ofEdges nodes edges).size := by
  -- The nodes that lie on circles each have one of them before them.
  have hC : ∀ v, TransGen edges.Joins v v →
      ∃ u, TransGen edges.Joins u u ∧ edges.Joins u v := by
    intro v hv
    obtain ⟨u, hvu, huv⟩ := TransGen.tail'_iff.1 hv
    exact ⟨u, TransGen.head' huv hvu, huv⟩
  obtain ⟨d', done, hend, hlength, hkeys, hleft⟩ := hstart.exists_done hC fun v hv hc => by
    obtain ⟨u, -, huv⟩ := hC v hc
    exact absurd (hstart.mem_done hv huv) List.not_mem_nil
  obtain ⟨v, hv⟩ := hcircle
  obtain ⟨u, -, huv⟩ := hC v hv
  have hlt := hend.length_lt hkeys (isSome_ofEdges.2 (.inr ⟨u, huv⟩)) fun hdone => hleft v hdone hv
  rwa [hlength, List.length_nil, Nat.zero_add] at hlt

/-- A node without an entry is never taken away, so what it points to is left. -/
theorem peel_lt_of_stray (hstart : Peeled edges (ofEdges nodes edges) queue [])
    (hstray : edges.Stray nodes) :
    (ofEdges nodes edges).peel edges queue < (ofEdges nodes edges).size := by
  obtain ⟨u, v, huv, hlisted, hfed⟩ := hstray
  obtain ⟨d', done, hend, hlength, hkeys, -⟩ :=
    hstart.exists_done (C := fun _ => False) (fun _ => False.elim) fun _ _ => id
  have hlt := hend.length_lt hkeys (isSome_ofEdges.2 (.inr ⟨u, huv⟩)) fun hdone => by
    have hu := hend.mem_done (List.mem_append_right _ hdone) huv
    have hzero := (hend.mem u).1 hu
    have hentry : ((ofEdges nodes edges).get? u).isSome = true := by
      rw [← hkeys, hzero]
      rfl
    rcases isSome_ofEdges.1 hentry with hmem | ⟨w, hw⟩
    · exact hlisted hmem
    · exact hfed w hw
  rwa [hlength, List.length_nil, Nat.zero_add] at hlt

/-- Where no edge is stray and none lead in a circle, nothing is left. -/
theorem size_le_peel (hstart : Peeled edges (ofEdges nodes edges) queue [])
    (hcircle : ¬ edges.Circular) (hstray : ¬ edges.Stray nodes) :
    (ofEdges nodes edges).size ≤ (ofEdges nodes edges).peel edges queue := by
  have hwf := Edges.wellFounded_joins fun v hv => hcircle ⟨v, hv⟩
  obtain ⟨d', done, hend, hlength, hkeys, -⟩ :=
    hstart.exists_done (C := fun _ => False) (fun _ => False.elim) fun _ _ => id
  have hentry : ∀ u v, edges.Joins u v → ((ofEdges nodes edges).get? u).isSome = true := by
    intro u v huv
    by_contra hnone
    rw [isSome_ofEdges, not_or, not_exists] at hnone
    exact hstray ⟨u, v, huv, hnone.1, hnone.2⟩
  -- A node is taken away once all nodes before it are, by induction along the edges.
  have hdone : ∀ v, ((ofEdges nodes edges).get? v).isSome = true → v ∈ done := by
    intro v
    induction v using hwf.induction with
    | _ v ih =>
      intro hv
      rw [← hkeys, Option.isSome_iff_exists] at hv
      obtain ⟨k, hk⟩ := hv
      have hall := Edges.intoFrom_eq_into fun u hu => ih u hu (hentry u v hu)
      have hcount := hend.count v
      rw [hk, Option.getD_some, hall] at hcount
      have hzero : k = 0 := by omega
      exact (hend.mem v).2 (by rw [hk, hzero])
  have hsub : (ofEdges nodes edges).keys.Subperm done :=
    (Dict.nodup_keys _).subperm fun v hv => hdone v (Dict.mem_keys.1 hv)
  have hle := hsub.length_le
  rwa [Dict.length_keys, hlength, List.length_nil, Nat.zero_add] at hle

/-- What peeling tells: that edges lead in a circle, or that one of them is stray. -/
theorem peel_lt_iff (hstart : Peeled edges (ofEdges nodes edges) queue []) :
    (ofEdges nodes edges).peel edges queue < (ofEdges nodes edges).size ↔
      edges.Circular ∨ edges.Stray nodes := by
  constructor
  · intro hlt
    by_contra hnone
    rw [not_or] at hnone
    exact absurd hlt (Nat.not_lt.2 (size_le_peel hstart hnone.1 hnone.2))
  · rintro (hcircle | hstray)
    · exact peel_lt_of_circular hstart hcircle
    · exact peel_lt_of_stray hstart hstray

end Degrees

variable {nodes : List String} {edges : Edges}

theorem leavesCore_iff :
    leavesCore nodes edges = true ↔ edges.Circular ∨ edges.Stray nodes := by
  rw [leavesCore, decide_eq_true_eq]
  exact Degrees.peel_lt_iff (Degrees.Peeled.start nodes edges)

theorem acyclic_of_leavesCore (h : leavesCore nodes edges = false) (v : String) :
    ¬ TransGen edges.Joins v v := by
  intro hcircle
  rw [leavesCore_iff.2 (.inl ⟨v, hcircle⟩)] at h
  cases h

/-- If the edges lead in no circle and start at listed nodes only, peeling leaves nothing. -/
theorem leavesCore_of_wellFounded (hlisted : ∀ u v, edges.Joins u v → u ∈ nodes)
    (h : WellFounded edges.Joins) : leavesCore nodes edges = false := by
  rw [← Bool.not_eq_true, leavesCore_iff, not_or]
  refine ⟨?_, ?_⟩
  · rintro ⟨v, hcircle⟩
    exact h.transGen.irrefl.irrefl v hcircle
  · rintro ⟨u, v, huv, hnot, -⟩
    exact hnot (hlisted u v huv)

end Patchbay
