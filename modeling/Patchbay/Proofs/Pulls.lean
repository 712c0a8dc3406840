import Mathlib.Data.List.Induction
import Patchbay.Proofs.Passive

/-!
# Who is pulled

A run lists the stale reactive nodes that feed its node and executes them one after another. The
list names identities, and it is made once: when its last entry comes to be executed there may be
another node under that identity. What is proved here is when a pull nevertheless reaches reactive
nodes only: if no node of a manual type is brought under an identity that some pull still has
before it.

The invariant is about all levels of all tasks of a passive engine. An inner level is one that a
pull has begun; the outermost level of a task is the one that was asked for.

What is proved here:
  1. `Stack.Orderly.turn`: a step of a task keeps its levels in order.
  2. `World.Tended.next`: so does every move, if it undercuts no pull.
  3. `World.Tended.computing`: a manual type is computed only on an outermost level, for the node
     that was asked for.
-/

namespace Patchbay

variable {σ : Type}

/-- Whether the type of this name is executed only when asked to. -/
def Registry.isManual (r : Registry σ) (type : String) : Bool :=
  (r.metadata? type).any (·.mode == .manual)

theorem Registry.isManual_of_isReactive {r : Registry σ} {type : String}
    (h : r.isReactive type = true) : r.isManual type = false := by
  unfold isReactive at h
  unfold isManual
  cases hm : r.metadata? type with
  | none => rfl
  | some m =>
    rw [hm, Option.any_some, beq_iff_eq] at h
    rw [Option.any_some, h]
    rfl

/-! ## What a pull has before it -/

namespace Frame

def listed : Frame σ → List NodeId
  | .run _ (.pulling _ todo) => todo
  | _ => []

def before? : Frame σ → Option NodeId
  | .run id .entering | .run id (.claiming _) => some id
  | _ => none

/-- The node of a run that has claimed it and has not read its inputs yet, and the run. -/
def reading? : Frame σ → Option (NodeId × Nat)
  | .run id (.listing k) | .run id (.pulling k _) => some (id, k)
  | _ => none

def IsPulling (f : Frame σ) : Prop := ∃ id k todo, f = .run id (.pulling k todo)

theorem run?_of_reading? {f : Frame σ} {id : NodeId} {k : Nat} (h : f.reading? = some (id, k)) :
    f.run? = some k := by
  unfold reading? at h
  split at h
  · cases h
    rfl
  · cases h
    rfl
  · cases h

end Frame

/-- Whether a pull of the task still has the identity before it: it stands on the list, or the
pull has begun to execute it and the node is not claimed yet. With the flag, executions that have
claimed their node and not read their inputs count as well. -/
def Stack.awaits (reading : Bool) (id : NodeId) : Stack σ → Bool
  | [] => false
  | f :: rest =>
    f.listed.contains id ||
      !rest.isEmpty && (f.before? == some id || reading && f.reading?.any (·.1 == id)) ||
      awaits reading id rest

namespace World

variable [NodeState σ]

/-- Whether the move would bring a manual node under an identity that a pull still has before it.
A restored node may also be taken for the one that an execution has claimed before. -/
def undercuts (w : World σ) (m : Move σ) : Bool :=
  (m.brought w.engine.registry).any fun (id, type) =>
    w.engine.registry.isManual type && w.tasks.any (Stack.awaits m.isRestore id)

/-- Whether one of the moves does. -/
def undercut : World σ → List (Move σ) → Bool
  | _, [] => false
  | w, m :: rest => w.undercuts m || (w.next m).undercut rest

theorem undercut_append (w : World σ) (moves more : List (Move σ)) :
    w.undercut (moves ++ more) = (w.undercut moves || (moves.foldl next w).undercut more) := by
  induction moves generalizing w with
  | nil => rfl
  | cons m rest ih =>
    rw [List.cons_append, undercut, ih (w.next m), undercut, Bool.or_assoc]
    rfl

end World

/-! ## Levels -/

namespace Frame

/-- The node and the type of a computation that is going on. -/
def computing? : Frame σ → Option (NodeId × Definition σ)
  | .run id (.computing _ _ d _ _) => some (id, d)
  | _ => none

def runs? : Frame σ → Option NodeId
  | .run id _ => some id
  | _ => none

/-- Nothing will be executed or computed from this level any more. -/
structure Spent (f : Frame σ) : Prop where
  listed : f.listed = []
  before : f.before? = none
  reading : f.reading? = none
  computing : f.computing? = none

end Frame

section

variable [NodeState σ]

namespace Graph

def Pullable (r : Registry σ) (g : Graph σ) (id : NodeId) : Prop :=
  ∀ n, g.node? id = some n → r.isManual n.typeName = false

/-- The run has not claimed a manual node of this identity. -/
def PullableBy (r : Registry σ) (g : Graph σ) (id : NodeId) (run : Nat) : Prop :=
  ∀ n, g.node? id = some n → n.run = run → r.isManual n.typeName = false

variable {r : Registry σ} {g g' : Graph σ} {id : NodeId} {run : Nat}

theorem Pullable.descends (h : g.Pullable r id) (hg : g.Descends g') : g'.Pullable r id := by
  intro n' hn'
  obtain ⟨n, hn, htype, -⟩ := hg id n' hn'
  rw [htype]
  exact h n hn

theorem PullableBy.descends (h : g.PullableBy r id run) (hg : g.Descends g') :
    g'.PullableBy r id run := by
  intro n' hn' hrun
  obtain ⟨n, hn, htype, hsame⟩ := hg id n' hn'
  rw [htype]
  exact h n hn (hsame.symm.trans hrun)

theorem PullableBy.taken (h : g.PullableBy r id run) {m : NodeId} {k : Nat} (hk : k ≠ run) :
    (g.modify m (·.taken k)).PullableBy r id run := by
  intro n' hn' hrun
  rw [node?_modify] at hn'
  split at hn'
  · obtain ⟨n, -, rfl⟩ := Option.map_eq_some_iff.1 hn'
    exact absurd hrun hk
  · exact h n' hn' hrun

theorem Pullable.taken (h : g.Pullable r id) {m : NodeId} {k : Nat} :
    (g.modify m (·.taken k)).Pullable r id := by
  intro n' hn'
  rw [node?_modify] at hn'
  split at hn'
  · obtain ⟨n, hn, rfl⟩ := Option.map_eq_some_iff.1 hn'
    exact h n hn
  · exact h n' hn'

end Graph

/-- A level that a pull has begun: it is about to execute no manual node, it has claimed none, and
it computes none. -/
structure Frame.Inner (r : Registry σ) (g : Graph σ) (f : Frame σ) : Prop where
  before : ∀ id, f.before? = some id → g.Pullable r id
  reading : ∀ id run, f.reading? = some (id, run) → g.PullableBy r id run
  computing : ∀ id d, f.computing? = some (id, d) → d.metadata.mode = .reactive

/-- The levels of a task are in order: no manual node stands on a list, every level but the
outermost is one that a pull has begun, and every level but the innermost executes producers. -/
def Stack.Orderly (r : Registry σ) (g : Graph σ) : Stack σ → Prop
  | [] => True
  | f :: rest => (∀ id ∈ f.listed, g.Pullable r id) ∧ (rest ≠ [] → f.Inner r g) ∧
      (∀ f ∈ rest, f.IsPulling) ∧ Orderly r g rest

end

namespace Stack

variable {reading : Bool} {id : NodeId} {f : Frame σ} {rest : Stack σ}

theorem awaits_of_listed (h : id ∈ f.listed) : Stack.awaits reading id (f :: rest) = true := by
  have hlisted : f.listed.contains id = true := List.contains_iff_mem.2 h
  rw [awaits, hlisted, Bool.true_or, Bool.true_or]

theorem awaits_of_before (hrest : rest ≠ []) (h : f.before? = some id) :
    Stack.awaits reading id (f :: rest) = true := by
  simp [awaits, h, hrest]

theorem awaits_of_reading {run : Nat} (hrest : rest ≠ []) (h : f.reading? = some (id, run)) :
    Stack.awaits true id (f :: rest) = true := by
  simp [awaits, h, hrest]

theorem awaits_of_rest (h : Stack.awaits reading id rest = true) :
    Stack.awaits reading id (f :: rest) = true := by
  rw [awaits, h, Bool.or_true]

theorem awaits_of_false {s : Stack σ} (h : Stack.awaits false id s = true) :
    Stack.awaits reading id s = true := by
  induction s with
  | nil => cases h
  | cons f rest ih =>
    simp only [awaits, Bool.or_eq_true, Bool.and_eq_true, Bool.false_and, Bool.false_eq_true,
      or_false] at h ⊢
    rcases h with (h | ⟨hrest, h⟩) | h
    · exact .inl (.inl h)
    · exact .inl (.inr ⟨hrest, .inl h⟩)
    · exact .inr (ih h)

variable [NodeState σ] {r : Registry σ} {g g' : Graph σ} {e e' : Engine σ} {top : Frame σ}
  {new : List (Frame σ)}

namespace Orderly

/-- Levels stay in order when the graph changes, if it keeps what the pulls have before them
pullable. -/
theorem of_graph {s : Stack σ} (h : s.Orderly r g)
    (hbefore : ∀ id, s.awaits false id = true → g.Pullable r id → g'.Pullable r id)
    (hreading : ∀ f ∈ s, ∀ id run, f.reading? = some (id, run) → s.awaits true id = true →
      g.PullableBy r id run → g'.PullableBy r id run) : s.Orderly r g' := by
  induction s with
  | nil => trivial
  | cons f rest ih =>
    obtain ⟨hlisted, hinner, houter, hrest⟩ := h
    refine ⟨fun id hid => ?_, fun hne => ?_, houter, ?_⟩
    · exact hbefore id (awaits_of_listed hid) (hlisted id hid)
    · obtain ⟨hb, hread, hcompute⟩ := hinner hne
      refine ⟨fun id hid => ?_, fun id run hid => ?_, hcompute⟩
      · exact hbefore id (awaits_of_before hne hid) (hb id hid)
      · exact hreading f List.mem_cons_self id run hid (awaits_of_reading hne hid)
          (hread id run hid)
    · refine ih hrest (fun id hid => hbefore id (awaits_of_rest hid)) fun f' hf' id run hid ha => ?_
      exact hreading f' (List.mem_cons_of_mem _ hf') id run hid (awaits_of_rest ha)

theorem descends {s : Stack σ} (h : s.Orderly r g) (hg : g.Descends g') : s.Orderly r g' :=
  h.of_graph (fun _ _ hp => hp.descends hg) fun _ _ _ _ _ _ hp => hp.descends hg

theorem taken {s : Stack σ} (h : s.Orderly r g) {m : NodeId} {k : Nat}
    (hk : ∀ f ∈ s, f.run? ≠ some k) : s.Orderly r (g.modify m (·.taken k)) := by
  refine h.of_graph (fun _ _ hp => hp.taken) fun f hf id run hid _ hp => hp.taken fun heq => ?_
  exact hk f hf (heq ▸ Frame.run?_of_reading? hid)

/-- A level from which nothing follows is in order on top of any other. -/
theorem spent {f : Frame σ} (hrest : rest.Orderly r g) (houter : ∀ f ∈ rest, f.IsPulling)
    (hf : f.Spent) : Stack.Orderly r g (f :: rest) := by
  refine ⟨fun id hid => ?_, fun _ => ⟨fun id hid => ?_, fun id run hid => ?_, fun id d hid => ?_⟩,
    houter, hrest⟩
  · rw [hf.listed] at hid
    cases hid
  · rw [hf.before] at hid
    cases hid
  · rw [hf.reading] at hid
    cases hid
  · rw [hf.computing] at hid
    cases hid

theorem drop {inner s : Stack σ} (h : Stack.Orderly r g (inner ++ s)) : s.Orderly r g := by
  induction inner with
  | nil => exact h
  | cons f rest ih => exact ih h.2.2.2

theorem pullable_of_toPull {id m : NodeId} (h : m ∈ e.toPull id) :
    e.graph.Pullable e.registry m := by
  intro n hn
  have hany := (List.mem_filter.1 h).2
  rw [hn, Option.any_some, Bool.and_eq_true] at hany
  exact Registry.isManual_of_isReactive hany.2

theorem reactive_of_isManual {n : Node σ} {d : Definition σ} (hd : r.of? n.state = some d)
    (h : r.isManual n.typeName = false) : d.metadata.mode = .reactive := by
  have htype : r.definitions.get? n.typeName = some d := hd
  simp only [Registry.isManual, Registry.metadata?, htype, Option.map_some, Option.any_some] at h
  cases hmode : d.metadata.mode with
  | reactive => rfl
  | manual =>
    rw [hmode] at h
    cases h

/-- A step of a task keeps its levels in order. The levels below the innermost one are looked at
in the graph afterwards. -/
theorem turn (h : Stack.Orderly e.registry e.graph (top :: rest))
    (hturn : Turn e top rest e' new) (hrest : rest.Orderly e.registry e'.graph) :
    Stack.Orderly e.registry e'.graph (new ++ rest) := by
  obtain ⟨hlisted, hinner, houter, -⟩ := h
  cases hturn with
  | enter id rest =>
    refine ⟨nofun, fun hne => ⟨fun m hm => ?_, nofun, nofun⟩, houter, hrest⟩
    cases hm
    exact (hinner hne).before id rfl
  | claim id run rest n hn hfree =>
    refine ⟨nofun, fun hne => ⟨nofun, fun m k hm => ?_, nofun⟩, houter, hrest⟩
    cases hm
    intro n' hn' _
    exact ((hinner hne).before id rfl).taken n' hn'
  | list id run rest =>
    refine ⟨fun m hm => pullable_of_toPull hm, fun hne => ⟨nofun, fun m k hm => ?_, nofun⟩, houter,
      hrest⟩
    cases hm
    exact (hinner hne).reading id run rfl
  | pull id run p todo rest =>
    -- The next entry of the list becomes a level of its own.
    refine ⟨nofun, fun _ => ⟨fun m hm => ?_, nofun, nofun⟩, ?_, ?_, fun hne => ?_, houter, hrest⟩
    · cases hm
      exact hlisted p List.mem_cons_self
    · exact List.forall_mem_cons.2 ⟨⟨id, run, todo, rfl⟩, houter⟩
    · exact fun m hm => hlisted m (List.mem_cons_of_mem _ hm)
    · refine ⟨nofun, fun m k hm => ?_, nofun⟩
      cases hm
      exact (hinner hne).reading id run rfl
  | begin id run rest n d inputs hn hrun hd hinputs =>
    refine ⟨nofun, fun hne => ⟨nofun, nofun, fun m d' hm => ?_⟩, houter, hrest⟩
    cases hm
    exact reactive_of_isManual hd ((hinner hne).reading id run rfl n hn hrun)
  | pass top rest e' new hpass =>
    cases hpass with
    | drop id ending rest hne hend => exact hrest
    | arrive t seen rest hreached => exact hrest
    | forget rest => exact hrest
    | _ => exact hrest.spent houter ⟨rfl, rfl, rfl, rfl⟩
  | _ => exact hrest.spent houter ⟨rfl, rfl, rfl, rfl⟩

theorem proceed {s : Stack σ} (h : s.Orderly r g) (c : Computation) :
    (Stack.proceed c s).Orderly r g := by
  unfold Stack.proceed
  split
  · obtain ⟨-, hinner, houter, hrest⟩ := h
    refine ⟨nofun, fun hne => ⟨nofun, nofun, fun id d hid => ?_⟩, houter, hrest⟩
    cases hid
    exact (hinner hne).computing _ _ rfl
  · exact h

end Orderly

end Stack

/-! ## All tasks -/

/-- The outermost level of a task is about the same node after a step. -/
theorem runs?_of_turn [NodeState σ] {e e' : Engine σ} {top : Frame σ} {rest new : List (Frame σ)}
    (hturn : Turn e top rest e' new) {f : Frame σ} {id : NodeId}
    (hlast : (new ++ rest).getLast? = some f) (hid : f.runs? = some id) :
    ∃ f, (top :: rest).getLast? = some f ∧ f.runs? = some id := by
  by_cases hrest : rest = []
  · subst hrest
    rw [List.append_nil] at hlast
    cases hturn with
    | pass top rest e' new hpass =>
      cases hpass with
      | drop id ending rest hne hend => exact absurd rfl hne
      | arrive t seen rest hreached => cases hlast
      | forget rest => cases hlast
      | _ =>
        cases hlast
        exact ⟨_, rfl, hid⟩
    | _ =>
      cases hlast
      exact ⟨_, rfl, hid⟩
  · refine ⟨f, ?_, hid⟩
    obtain ⟨last, hsome⟩ := Option.ne_none_iff_exists'.1 (mt List.getLast?_eq_none_iff.1 hrest)
    rw [List.getLast?_append, hsome, Option.some_or] at hlast
    rw [List.getLast?_cons, hsome, ← hlast]
    rfl

namespace World

variable [NodeState σ] {r : Registry σ} {p : Policy} {w w' : World σ} {m : Move σ}

/-- No move that undercuts no pull brings a manual node under an awaited identity. -/
theorem not_isManual_of_brought (hclear : w.undercuts m = false) {id : NodeId} {type : String}
    (hbrought : (id, type) ∈ m.brought w.engine.registry) {s : Stack σ} (hs : s ∈ w.tasks)
    (hawaits : s.awaits m.isRestore id = true) : w.engine.registry.isManual type = false := by
  rw [undercuts, List.any_eq_false] at hclear
  have hnot := hclear (id, type) hbrought
  have hany : w.tasks.any (Stack.awaits m.isRestore id) = true :=
    List.any_eq_true.2 ⟨s, hs, hawaits⟩
  simp only [hany, Bool.and_true] at hnot
  exact Bool.eq_false_iff.2 hnot

/-- Levels that belong to another run than the one that goes a step further stay in order. -/
theorem orderly_of_turn (hr : r.Steady) (hsound : Sound r w.engine w.frames) {task : Nat}
    {top : Frame σ} {rest new : List (Frame σ)} {e : Engine σ}
    (hbefore : w.tasks[task]? = some (top :: rest)) (hturn : Turn w.engine top rest e new)
    {s : Stack σ} (hother : ∀ f ∈ s, ∀ run, top.run? = some run → f.run? ≠ some run)
    (h : s.Orderly r w.engine.graph) : s.Orderly r e.graph := by
  obtain ⟨pre, post, hframes, -⟩ := frames_of_getElem? hbefore
  have hsound' : Sound r w.engine (pre ++ top :: (rest ++ post)) := by
    rw [hframes, List.append_assoc] at hsound
    exact hsound
  rcases Engine.descends_turn hr hsound' hturn with hg | ⟨id, run, n, rfl, hn, hg⟩
  · exact h.descends hg
  · rw [hg]
    exact h.taken fun f hf => hother f hf run rfl

theorem orderly_set (hr : r.Steady) (hsound : Sound r w.engine w.frames) {task : Nat}
    {top : Frame σ} {rest new : List (Frame σ)} {e : Engine σ}
    (hbefore : w.tasks[task]? = some (top :: rest)) (hturn : Turn w.engine top rest e new)
    (h : ∀ s ∈ w.tasks, s.Orderly r w.engine.graph) :
    ∀ s ∈ w.tasks.set task (new ++ rest), s.Orderly r e.graph := by
  have hwhole := h _ (List.mem_of_getElem? hbefore)
  intro s hs
  obtain ⟨k, hk⟩ := List.mem_iff_getElem?.1 hs
  by_cases hkj : k = task
  · subst hkj
    rw [List.getElem?_set_self (List.getElem?_eq_some_iff.1 hbefore).1] at hk
    cases hk
    have hrest := orderly_of_turn hr hsound hbefore hturn
      (fun f hf run htop hrun => run?_ne_of_task hsound.distinct hbefore hf hrun htop)
      hwhole.2.2.2
    rw [← hsound.registry] at hwhole hrest ⊢
    exact hwhole.turn hturn hrest
  · rw [List.getElem?_set_ne (Ne.symm hkj)] at hk
    refine orderly_of_turn hr hsound hbefore hturn (fun f hf run htop => ?_)
      (h s (List.mem_of_getElem? hk))
    exact run?_ne_of_tasks hsound.distinct (Ne.symm hkj) hbefore hk List.mem_cons_self hf htop

/-- If it undercuts no pull, a move keeps all levels of all tasks in order. -/
theorem orderly_next (hr : r.Steady) (hsound : Sound r w.engine w.frames)
    (hnumbered : Numbered w.engine w.frames) (halters : w.Alters m w')
    (hclear : w.undercuts m = false) (h : ∀ s ∈ w.tasks, s.Orderly r w.engine.graph) :
    ∀ s ∈ w'.tasks, s.Orderly r w'.engine.graph := by
  have hregistry := hsound.registry
  cases halters with
  | edited m w' hgraph htasks =>
    rw [htasks]
    exact fun s hs => (h s hs).descends hgraph
  | created m w' id state hbrought hgraph hkind htasks =>
    rw [htasks, hgraph]
    refine fun s hs => (h s hs).of_graph (fun id' ha hp n hn => ?_)
      fun f hf id' run hid _ hp n hn hrun => ?_
    · rcases Graph.node?_of_inserted hn with ⟨rfl, rfl⟩ | hn
      · rw [← hkind] at ha
        rw [← hregistry]
        exact not_isManual_of_brought hclear hbrought hs ha
      · exact hp n hn
    · -- A new node has the number of no run.
      rcases Graph.node?_of_inserted hn with ⟨-, rfl⟩ | hn
      · have hmem : run ∈ w.frames.filterMap Frame.run? :=
          List.mem_filterMap.2 ⟨f, List.mem_flatten.2 ⟨s, hs, hf⟩, Frame.run?_of_reading? hid⟩
        have hpositive := hnumbered.positive run hmem
        have hzero : 0 = run := hrun
        omega
      · exact hp n hn hrun
  | restored s w' hnodes htasks =>
    rw [htasks]
    refine fun s' hs' => (h s' hs').of_graph (fun id ha _ n hn => ?_)
      fun f hf id run hid ha _ n hn _ => ?_
    · rw [← hregistry]
      exact not_isManual_of_brought hclear (hnodes id n hn) hs' (Stack.awaits_of_false ha)
    · rw [← hregistry]
      exact not_isManual_of_brought hclear (hnodes id n hn) hs' ha
  | started id w' hgraph htasks =>
    rw [htasks, hgraph]
    refine List.forall_mem_append.2 ⟨h, List.forall_mem_singleton.2 ?_⟩
    exact ⟨nofun, fun hne => absurd rfl hne, nofun, trivial⟩
  | waited t w' hgraph htasks =>
    rw [htasks, hgraph]
    refine List.forall_mem_append.2 ⟨h, List.forall_mem_singleton.2 ?_⟩
    exact ⟨nofun, fun hne => absurd rfl hne, nofun, trivial⟩
  | delivered task c w' hgraph htasks =>
    rw [htasks, hgraph]
    intro s hs
    rcases mem_of_mem_modify hs with hold | ⟨s, hold, rfl⟩
    · exact h s hold
    · exact (h s (List.mem_of_getElem? hold)).proceed c
  | stepped task top rest new e w' hbefore hturn hgraph htasks =>
    rw [htasks, hgraph]
    exact orderly_set hr hsound hbefore hturn h

/-! ## Who asked -/

/-- The task with this number is there because someone executes this node. -/
def Asked (r : Registry σ) (p : Policy) (moves : List (Move σ)) (task : Nat) (id : NodeId) :
    Prop :=
  ∃ earlier later, moves = earlier ++ .start id :: later ∧ (after r p earlier).tasks.length = task

theorem Asked.concat {moves : List (Move σ)} {task : Nat} {id : NodeId}
    (h : Asked r p moves task id) (m : Move σ) : Asked r p (moves ++ [m]) task id := by
  obtain ⟨earlier, later, rfl, hlength⟩ := h
  exact ⟨earlier, later ++ [m], by simp, hlength⟩

/-- The outermost level of this task is a run of this node. -/
def Based (w : World σ) (task : Nat) (id : NodeId) : Prop :=
  ∃ s f, w.tasks[task]? = some s ∧ s.getLast? = some f ∧ f.runs? = some id

omit [NodeState σ] in
theorem getLast?_proceed {s : Stack σ} {c : Computation} {f : Frame σ} {id : NodeId}
    (h : (Stack.proceed c s).getLast? = some f) (hid : f.runs? = some id) :
    ∃ f, s.getLast? = some f ∧ f.runs? = some id := by
  unfold Stack.proceed at h
  split at h
  · rename_i m run epoch d context c₀ rest
    cases rest with
    | nil =>
      cases h
      exact ⟨_, rfl, hid⟩
    | cons f' rest => exact ⟨f, h, hid⟩
  · exact ⟨f, h, hid⟩

/-- No move makes the outermost level of a task one of another node, and a task whose outermost
level is a run begins with an execution. -/
theorem Based.of_alters (halters : w.Alters m w') {task : Nat} {id : NodeId}
    (h : w'.Based task id) : w.Based task id ∨ m = .start id ∧ w.tasks.length = task := by
  obtain ⟨s, f, hs, hf, hid⟩ := h
  have hadded : ∀ t : Stack σ, w'.tasks = w.tasks ++ [t] →
      w.tasks[task]? = some s ∨ w.tasks.length = task ∧ s = t := by
    intro t htasks
    rw [htasks] at hs
    by_cases hlt : task < w.tasks.length
    · rw [List.getElem?_append_left hlt] at hs
      exact .inl hs
    · rw [List.getElem?_append_right (Nat.le_of_not_lt hlt), List.getElem?_singleton] at hs
      split at hs
      · rename_i hzero
        exact .inr ⟨by omega, (Option.some.inj hs).symm⟩
      · cases hs
  cases halters with
  | edited m w' hgraph htasks => exact .inl ⟨s, f, htasks ▸ hs, hf, hid⟩
  | created m w' id' state hbrought hgraph hkind htasks => exact .inl ⟨s, f, htasks ▸ hs, hf, hid⟩
  | restored s' w' hnodes htasks => exact .inl ⟨s, f, htasks ▸ hs, hf, hid⟩
  | started id' w' hgraph htasks =>
    rcases hadded _ htasks with hold | ⟨hlength, rfl⟩
    · exact .inl ⟨s, f, hold, hf, hid⟩
    · cases hf
      cases hid
      exact .inr ⟨rfl, hlength⟩
  | waited t w' hgraph htasks =>
    rcases hadded _ htasks with hold | ⟨hlength, rfl⟩
    · exact .inl ⟨s, f, hold, hf, hid⟩
    · cases hf
      cases hid
  | delivered k c w' hgraph htasks =>
    rw [htasks, List.getElem?_modify, Option.map_eq_map, Option.map_eq_some_iff] at hs
    obtain ⟨s, hs, rfl⟩ := hs
    apply Or.inl
    split at hf
    · obtain ⟨f, hf, hid⟩ := getLast?_proceed hf hid
      exact ⟨s, f, hs, hf, hid⟩
    · exact ⟨s, f, hs, hf, hid⟩
  | stepped k top rest new e w' hbefore hturn hgraph htasks =>
    apply Or.inl
    rw [htasks] at hs
    by_cases hk : task = k
    · subst hk
      rw [List.getElem?_set_self (List.getElem?_eq_some_iff.1 hbefore).1] at hs
      cases hs
      obtain ⟨f, hf, hid⟩ := runs?_of_turn hturn hf hid
      exact ⟨_, f, hbefore, hf, hid⟩
    · rw [List.getElem?_set_ne (Ne.symm hk)] at hs
      exact ⟨s, f, hs, hf, hid⟩

/-! ## The invariant -/

/-- What is known after moves on a passive engine that undercut no pull. -/
structure Tended (r : Registry σ) (p : Policy) (moves : List (Move σ)) : Prop where
  policy : (after r p moves).engine.policy = p
  collected : (after r p moves).engine.scheduled = []
  orderly : ∀ s ∈ (after r p moves).tasks, s.Orderly r (after r p moves).engine.graph
  asked : ∀ task id, (after r p moves).Based task id → Asked r p moves task id

theorem policy_after (r : Registry σ) (p : Policy) (moves : List (Move σ)) :
    (after r p moves).engine.policy = p := by
  have hinvariant : Invariant r p fun e _ => e.policy = p :=
    { start := rfl
      same := fun h hsame => hsame.policy.trans h
      idle := fun h _ => h
      performed := fun h hperformed => hperformed.stays.policy.trans h
      turn := fun h hturn => (Engine.registry_turn hturn).2.trans h
      progress := fun _ h => h }
  exact hinvariant.after moves

/-- The moves of which the last ones are known to undercut no pull. -/
theorem Tended.alters (hr : r.Steady) (hp : Engine.Passive p) {moves : List (Move σ)}
    (h : Tended r p moves) (m : Move σ) :
    (after r p moves).Alters m (after r p (moves ++ [m])) := by
  rw [after_concat]
  exact alters_next hr (sound_after hr p moves) (h.policy.symm ▸ hp) h.collected m

theorem Tended.next (hr : r.Steady) (hp : Engine.Passive p) {moves : List (Move σ)}
    (h : Tended r p moves) {m : Move σ} (hclear : (after r p moves).undercuts m = false) :
    Tended r p (moves ++ [m]) where
  policy := policy_after r p _
  collected := by
    rw [after_concat]
    exact collected_next h.collected m
  orderly := orderly_next hr (sound_after hr p moves) (numbered_after r p moves) (h.alters hr hp m)
    hclear h.orderly
  asked task id hbased := by
    rcases hbased.of_alters (h.alters hr hp m) with hbefore | ⟨rfl, hlength⟩
    · exact (h.asked task id hbefore).concat m
    · exact ⟨moves, [], rfl, hlength⟩

/-- The invariant holds after any moves on a passive engine that undercut no pull. -/
theorem tended_after (hr : r.Steady) (hp : Engine.Passive p) {moves : List (Move σ)}
    (hclear : (new r p).undercut moves = false) : Tended r p moves := by
  induction moves using List.reverseRecOn with
  | nil => exact ⟨rfl, rfl, nofun, fun task id ⟨s, f, hs, _⟩ => nomatch hs⟩
  | append_singleton moves m ih =>
    rw [undercut_append, Bool.or_eq_false_iff] at hclear
    refine (ih hclear.1).next hr hp ?_
    have hlast := hclear.2
    rw [undercut, Bool.or_eq_false_iff] at hlast
    exact hlast.1

/-- A computation of a manual type stands on the outermost level of a task, and the task is there
because someone executes the node. -/
theorem Tended.computing {moves : List (Move σ)} (h : Tended r p moves) {task run epoch : Nat}
    {inner outer : List (Frame σ)} {id : NodeId} {d : Definition σ} {context : Context σ}
    {c : Computation} (htask : (after r p moves).tasks[task]? =
      some (inner ++ .run id (.computing run epoch d context c) :: outer))
    (hd : d.metadata.mode = .manual) : outer = [] ∧ Asked r p moves task id := by
  have horderly := (h.orderly _ (List.mem_of_getElem? htask)).drop
  have houter : outer = [] := by
    by_contra hne
    have hreactive := (horderly.2.1 hne).computing id d rfl
    rw [hd] at hreactive
    cases hreactive
  subst houter
  have hlast : (inner ++ [Frame.run id (.computing run epoch d context c)]).getLast? =
      some (.run id (.computing run epoch d context c)) := List.getLast?_concat
  exact ⟨rfl, h.asked task id ⟨_, _, htask, hlast, rfl⟩⟩

end World

end Patchbay
