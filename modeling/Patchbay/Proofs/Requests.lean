import Patchbay.Proofs.Completion
import Patchbay.Proofs.Pulls

/-!
# What an execution is good for

Jobs cost money, so the nodes that ask for them are executed only when asked to. An account is kept
for each node: whoever executes it pays one unit in, and what the outermost level of a task may
still cost is set aside for it. The computation of a manual type that begins uses the unit up, or
the job does that it asks for.

What is proved here:
  1. `World.tally_le_starts`: if every move is covered by what is set aside before it and what is
     paid in with it, no more is used than was paid in.
  2. `World.manual_never_pulled`: on a passive engine, as long as no pull is undercut, a manual
     type is computed only for those who execute the node, at most once for each time, and it asks
     for at most one job each time.
  3. `Bench.pulled_after_remaking`: the condition is needed. If a reactive node is removed and made
     anew as a manual one while it stands on the list of a pull, the pull executes it.
-/

namespace Patchbay

variable {σ : Type}

/-! ## Jobs -/

namespace Computation

/-- Whether the computation comes to ask for a job if it is given permits. -/
def asks : Computation → Bool
  | .done _ => false
  | .awaitPermit next => next.asks
  | .generate _ _ => true

/-- The computation asks for at most one job, whatever comes of it. -/
def AsksOnce : Computation → Prop
  | .done _ => True
  | .awaitPermit next => next.AsksOnce
  | .generate _ next => ∀ outcome, (next outcome).asks = false

/-- How a computation goes on that waits: with its permit, or with the outcome of its job, which may
be held back for a permit. -/
inductive Goes : Computation → Computation → Prop
  | permitted (next : Computation) : Goes (.awaitPermit next) next
  | answered (request : Generation.Request)
    (next : Except Generation.Error Generation.Output → Computation)
    (outcome : Except Generation.Error Generation.Output) :
    Goes (.generate request next) (next outcome)
  | heldBack (request : Generation.Request)
    (next : Except Generation.Error Generation.Output → Computation)
    (outcome : Except Generation.Error Generation.Output) :
    Goes (.generate request next) (.awaitPermit (next outcome))

/-- The jobs that a computation may still ask for. One that has just asked has no other to ask
for. -/
def due : Computation → Nat
  | .done _ => 0
  | .awaitPermit next => next.asks.toNat
  | .generate _ _ => 0

def isAsking : Computation → Bool
  | .generate _ _ => true
  | _ => false

theorem asksOnce_of_asks {c : Computation} (h : c.asks = false) : c.AsksOnce := by
  induction c with
  | done result => trivial
  | awaitPermit next ih => exact ih h
  | generate request next ih => cases h

theorem due_le_asks (c : Computation) : c.due ≤ c.asks.toNat := by
  cases c with
  | done result => exact Nat.le_refl _
  | awaitPermit next => exact Nat.le_refl _
  | generate request next => exact Nat.zero_le _

theorem asks_of_isAsking {c : Computation} (h : c.isAsking = true) : c.asks = true := by
  cases c with
  | generate request next => rfl
  | _ => cases h

theorem due_of_isAsking {c : Computation} (h : c.isAsking = true) : c.due = 0 := by
  cases c with
  | generate request next => rfl
  | _ => cases h

/-- A computation that asks at most once does so however it goes on, and what it asks for is what
was due. -/
theorem Goes.due_le {c c' : Computation} (h : Goes c c') (hc : c.AsksOnce) :
    c'.AsksOnce ∧ c'.isAsking.toNat + c'.due ≤ c.due := by
  cases h with
  | permitted =>
    refine ⟨hc, ?_⟩
    cases c' with
    | done result => exact Nat.zero_le _
    | awaitPermit next => exact Nat.le_of_eq (Nat.zero_add _)
    | generate request next => exact Nat.le_refl _
  | answered request next outcome =>
    have hnone := hc outcome
    refine ⟨asksOnce_of_asks hnone, ?_⟩
    cases hnext : next outcome with
    | done result => exact Nat.le_refl _
    | awaitPermit later =>
      have hzero : later.asks = false := by
        rw [hnext] at hnone
        exact hnone
      simp [isAsking, due, hzero]
    | generate request' later =>
      rw [hnext] at hnone
      cases hnone
  | heldBack request next outcome =>
    have hnone := hc outcome
    exact ⟨asksOnce_of_asks hnone, by simp [isAsking, due, hnone]⟩

theorem Goes.asks {c c' : Computation} (h : Goes c c') (hc : c.asks = false) : c'.asks = false := by
  cases h with
  | permitted => exact hc
  | answered request next outcome => cases hc
  | heldBack request next outcome => cases hc

end Computation

/-- No node type asks for more than one job in one computation, and only manual types ask for
any. -/
structure Registry.Frugal [NodeState σ] (r : Registry σ) : Prop where
  once : ∀ s d context, r.of? s = some d → (d.compute context).AsksOnce
  reactive : ∀ s d context, r.of? s = some d → d.metadata.mode = .reactive →
    (d.compute context).asks = false

theorem Bench.frugal_registry (o : Options) : (registry o).Frugal := by
  have hnone : ∀ s context, ((definitionOf o s).compute context).asks = false := by
    intro s context
    cases s <;> simp only [definitionOf, constant, source, double, gated, label, switch, merge] <;>
      (repeat' split) <;> rfl
  refine ⟨fun s d context hd => ?_, fun s d context hd _ => ?_⟩ <;>
    (rw [of?_registry] at hd; cases hd)
  · exact Computation.asksOnce_of_asks (hnone s context)
  · exact hnone s context

/-- The computations of the generation nodes ask once, and the others are over at once. -/
theorem Studio.frugal_registry : registry.Frugal := by
  have hsubmit : ∀ request outputs, (submit request outputs).AsksOnce := by
    intro request outputs
    cases request with
    | error cause => trivial
    | ok request => exact fun outcome => rfl
  refine ⟨fun s d context hd => ?_, fun s d context hd hmode => ?_⟩ <;>
    (rw [of?_registry] at hd; cases hd)
  · cases s with
    | imageGeneration | videoGeneration | textGeneration => exact hsubmit _ _
    | _ => trivial
  · cases s with
    | imageGeneration | videoGeneration | textGeneration => cases hmode
    | _ => rfl

/-! ## What is counted -/

namespace Stack

/-- The computation that stands innermost in a task, with its node and type. -/
def computing? (s : Stack σ) : Option (NodeId × Definition σ) := s.head?.bind Frame.computing?

def computation? : Stack σ → Option Computation
  | .run _ (.computing _ _ _ _ c) :: _ => some c
  | _ => none

def asking? (s : Stack σ) : Option NodeId :=
  if s.computation?.any Computation.isAsking then s.computing?.map (·.1) else none

theorem asking?_eq_some {s : Stack σ} {id : NodeId} (h : s.asking? = some id) :
    ∃ run epoch d context c rest, s = .run id (.computing run epoch d context c) :: rest ∧
      c.isAsking = true := by
  unfold asking? at h
  split at h
  · rename_i hasks
    obtain ⟨c, hc, hasking⟩ := (Option.any_eq_true _ _).1 hasks
    unfold computation? at hc
    split at hc
    · rename_i m run epoch d context c' rest
      cases hc
      cases h
      exact ⟨run, epoch, d, context, c, rest, rfl, hasking⟩
    · cases hc
  · cases h

theorem proceed_eq_computing {s rest : Stack σ} {c c' : Computation} {id : NodeId}
    {run epoch : Nat} {d : Definition σ} {context : Context σ}
    (h : s.proceed c = .run id (.computing run epoch d context c') :: rest) :
    ∃ c₀, s = .run id (.computing run epoch d context c₀) :: rest := by
  unfold proceed at h
  split at h
  · rename_i m k epoch' d' context' c₀ rest'
    cases h
    exact ⟨c₀, rfl⟩
  · exact ⟨c', h⟩

end Stack

/-- Whether the move is an execution of the node. -/
def Move.executes (id : NodeId) : Move σ → Bool
  | .start m => m == id
  | _ => false

namespace World

variable [NodeState σ]

/-- How many of the moves are counted. -/
def tally (count : World σ → Move σ → Bool) : World σ → List (Move σ) → Nat
  | _, [] => 0
  | w, m :: rest => (count w m).toNat + (w.next m).tally count rest

/-- With this move a computation of the node begins, and the type is manual. -/
def invokes (id : NodeId) (w : World σ) : Move σ → Bool
  | .step task =>
    (w.tasks[task]?.bind Stack.computing?).isNone &&
      ((w.next (.step task)).tasks[task]?.bind Stack.computing?).any fun (m, d) =>
        m == id && d.metadata.mode == .manual
  | _ => false

/-- With this move a computation of the node asks for a job. -/
def requests (id : NodeId) (w : World σ) : Move σ → Bool
  | .step task =>
    (w.tasks[task]?.bind Stack.computing?).isNone &&
      (w.next (.step task)).tasks[task]?.bind Stack.asking? == some id
  | .deliver task c => (w.next (.deliver task c)).tasks[task]?.bind Stack.asking? == some id
  | _ => false

/-- If the move makes a computation go on, it is as the computation says. -/
def Prescribed (w : World σ) : Move σ → Prop
  | .deliver task c => ∀ c₀, w.tasks[task]?.bind Stack.computation? = some c₀ → c₀.Goes c
  | _ => True

/-- Every computation goes on as it says. -/
def Honest : World σ → List (Move σ) → Prop
  | _, [] => True
  | w, m :: rest => w.Prescribed m ∧ (w.next m).Honest rest

theorem tally_append (count : World σ → Move σ → Bool) (w : World σ)
    (moves more : List (Move σ)) : w.tally count (moves ++ more) =
      w.tally count moves + (moves.foldl next w).tally count more := by
  induction moves generalizing w with
  | nil => exact (Nat.zero_add _).symm
  | cons m rest ih =>
    rw [List.cons_append, tally, ih (w.next m), tally, Nat.add_assoc]
    rfl

theorem honest_append {w : World σ} {moves more : List (Move σ)} :
    w.Honest (moves ++ more) ↔ w.Honest moves ∧ (moves.foldl next w).Honest more := by
  induction moves generalizing w with
  | nil => exact (true_and _).to_iff.symm
  | cons m rest ih =>
    rw [List.cons_append, Honest, ih, Honest, and_assoc]
    rfl

theorem honest_of_no_delivery {w : World σ} {moves : List (Move σ)}
    (h : ∀ m ∈ moves, m.isDelivery = false) : w.Honest moves := by
  induction moves generalizing w with
  | nil => trivial
  | cons m rest ih =>
    refine ⟨?_, ih fun m hm => h m (List.mem_cons_of_mem _ hm)⟩
    cases m with
    | deliver task c => cases h _ List.mem_cons_self
    | _ => trivial

end World

/-! ## What is set aside -/

namespace Phase

/-- What a run of the node may still cost, if a computation that is going on may cost `left`. -/
def due (left : Computation → Nat) : Phase σ → Nat
  | .entering | .claiming _ | .listing _ | .pulling _ _ => 1
  | .computing _ _ _ _ c => left c
  | _ => 0

end Phase

def Frame.due (left : Computation → Nat) (id : NodeId) : Frame σ → Nat
  | .run m phase => if m = id then phase.due left else 0
  | _ => 0

/-- What the task may still cost the node: only the outermost level counts. -/
def Stack.due (left : Computation → Nat) (id : NodeId) (s : Stack σ) : Nat :=
  (s.getLast?.map (Frame.due left id)).getD 0

def World.due (left : Computation → Nat) (id : NodeId) (w : World σ) : Nat :=
  (w.tasks.map (Stack.due left id)).sum

namespace Stack

variable {left : Computation → Nat} {id : NodeId} {top f : Frame σ} {rest new : List (Frame σ)}

theorem due_append (left : Computation → Nat) (id : NodeId) (h : rest ≠ []) (s : Stack σ) :
    Stack.due left id (s ++ rest) = Stack.due left id rest := by
  obtain ⟨last, hlast⟩ := Option.ne_none_iff_exists'.1 (mt List.getLast?_eq_none_iff.1 h)
  rw [due, due, List.getLast?_append, hlast, Option.some_or]

variable [NodeState σ] {e e' : Engine σ}

theorem due_turn (hleft : ∀ c, left c ≤ 1) (hturn : Turn e top rest e' new) :
    Stack.due left id (new ++ rest) ≤ Stack.due left id (top :: rest) := by
  by_cases hrest : rest = []
  · subst hrest
    rw [List.append_nil]
    cases hturn with
    | enter m rest => exact Nat.le_refl _
    | claim m run rest n hn hfree => exact Nat.le_refl _
    | list m run rest => exact Nat.le_refl _
    | pull m run p todo rest => exact Nat.le_refl _
    | begin m run rest n d inputs hn hrun hd hinputs =>
      show (if m = id then left _ else 0) ≤ if m = id then 1 else 0
      split
      · exact hleft _
      · exact Nat.le_refl _
    | pass top rest e' new hpass =>
      cases hpass with
      | drop m ending rest hne hend => exact absurd rfl hne
      | _ => simp [Stack.due, Frame.due, Phase.due]
    | _ => simp [Stack.due, Frame.due, Phase.due]
  · have htop := due_append left id hrest [top]
    rw [List.singleton_append] at htop
    rw [due_append left id hrest, htop]

/-- A step with which a computation comes to stand innermost in a task is its beginning. -/
theorem begins_of_turn (hturn : Turn e top rest e' new) (houter : ∀ f ∈ rest, f.IsPulling)
    (hbefore : Stack.computing? (top :: rest) = none) {d : Definition σ}
    (hafter : Stack.computing? (new ++ rest) = some (id, d)) :
    ∃ run, ∃ n : Node σ, ∃ inputs, top = .run id (.pulling run []) ∧
      e.registry.of? n.state = some d ∧ new = [.run id (.computing run n.epoch d
        ⟨id, n.state, inputs⟩ (d.compute ⟨id, n.state, inputs⟩))] := by
  have hnone : Stack.computing? rest = none := by
    cases rest with
    | nil => rfl
    | cons f rest =>
      obtain ⟨m, k, todo, rfl⟩ := houter f List.mem_cons_self
      rfl
  cases hturn with
  | begin m run rest n d' inputs hn hrun hd hinputs =>
    cases hafter
    exact ⟨run, n, inputs, rfl, hd, rfl⟩
  | pass top rest e' new hpass =>
    cases hpass with
    | drop m ending rest hne hend =>
      rw [List.nil_append, hnone] at hafter
      cases hafter
    | arrive t seen rest hreached =>
      rw [List.nil_append, hnone] at hafter
      cases hafter
    | forget rest =>
      rw [List.nil_append, hnone] at hafter
      cases hafter
    | _ => cases hafter
  | _ => cases hafter

end Stack

/-! ## Computations that ask at most once -/

/-- A computation on this level asks for at most one job from now on, and for none if the type is
reactive. -/
def Frame.Thrifty : Frame σ → Prop
  | .run _ (.computing _ _ d _ c) =>
    c.AsksOnce ∧ (d.metadata.mode = .reactive → c.asks = false)
  | _ => True

theorem Frame.thrifty_of_turn [NodeState σ] {e e' : Engine σ} {top : Frame σ}
    {rest new : List (Frame σ)} (hr : e.registry.Frugal) (hturn : Turn e top rest e' new) :
    ∀ f ∈ new, f.Thrifty := by
  cases hturn with
  | begin id run rest n d inputs hn hrun hd hinputs =>
    exact List.forall_mem_singleton.2 ⟨hr.once _ d _ hd, hr.reactive _ d _ hd⟩
  | pull id run p todo rest =>
    exact List.forall_mem_cons.2 ⟨trivial, List.forall_mem_singleton.2 trivial⟩
  | pass top rest e' new hpass =>
    cases hpass with
    | drop | arrive | forget => exact List.forall_mem_nil _
    | _ => exact List.forall_mem_singleton.2 trivial
  | _ => exact List.forall_mem_singleton.2 trivial

namespace World

variable [NodeState σ] {r : Registry σ} {p : Policy} {w w' : World σ} {m : Move σ} {id : NodeId}
  {left : Computation → Nat}

/-- As long as computations go on as they say, none asks more than once. -/
theorem thrifty_next (hr : w.engine.registry.Frugal) (halters : w.Alters m w')
    (hprescribed : w.Prescribed m) (h : ∀ s ∈ w.tasks, ∀ f ∈ s, f.Thrifty) :
    ∀ s ∈ w'.tasks, ∀ f ∈ s, f.Thrifty := by
  cases halters with
  | edited m w' hgraph htasks => exact htasks ▸ h
  | created m w' id state hbrought hgraph hkind htasks => exact htasks ▸ h
  | restored s w' hnodes htasks => exact htasks ▸ h
  | started id w' hgraph htasks =>
    rw [htasks]
    exact List.forall_mem_append.2
      ⟨h, List.forall_mem_singleton.2 (List.forall_mem_singleton.2 trivial)⟩
  | waited t w' hgraph htasks =>
    rw [htasks]
    exact List.forall_mem_append.2
      ⟨h, List.forall_mem_singleton.2 (List.forall_mem_singleton.2 trivial)⟩
  | delivered task c w' hgraph htasks =>
    rw [htasks]
    intro s hs
    rcases mem_of_mem_modify hs with hold | ⟨s, hold, rfl⟩
    · exact h s hold
    have hthrifty := h s (List.mem_of_getElem? hold)
    unfold Stack.proceed
    split
    · rename_i id run epoch d context c₀ rest
      have hgoes : c₀.Goes c := hprescribed c₀ (by rw [hold]; rfl)
      obtain ⟨honce, hreactive⟩ := hthrifty _ List.mem_cons_self
      refine List.forall_mem_cons.2 ⟨⟨(hgoes.due_le honce).1, fun hd => ?_⟩, fun f hf => ?_⟩
      · exact hgoes.asks (hreactive hd)
      · exact hthrifty f (List.mem_cons_of_mem _ hf)
    · exact hthrifty
  | stepped task top rest new e w' hbefore hturn hgraph htasks =>
    rw [htasks]
    intro s hs
    rcases List.mem_or_eq_of_mem_set hs with hs | rfl
    · exact h s hs
    · refine List.forall_mem_append.2 ⟨Frame.thrifty_of_turn hr hturn, fun f hf => ?_⟩
      exact h _ (List.mem_of_getElem? hbefore) f (List.mem_cons_of_mem _ hf)

/-! ## The account -/

omit [NodeState σ] in
theorem due_set (left : Computation → Nat) (id : NodeId) {task : Nat} {s t : Stack σ}
    (hs : w.tasks[task]? = some s)
    (htasks : w'.tasks = w.tasks.set task t) :
    w'.due left id + s.due left id = w.due left id + t.due left id := by
  rw [due, due, htasks]
  exact sum_map_set (Stack.due left id) hs t

omit [NodeState σ] in
theorem due_concat {t : Stack σ} (htasks : w'.tasks = w.tasks ++ [t]) :
    w'.due left id = w.due left id + t.due left id := by
  rw [due, due, htasks, List.map_append, List.sum_append, List.map_singleton, List.sum_singleton]

/-- A step costs nothing. If a computation of a manual type begins with it that costs no more
itself, there is one unit less to be paid afterwards. -/
theorem due_step {task : Nat} (halters : w.Alters (.step task) w')
    (horderly : ∀ s ∈ w.tasks, s.Orderly r w.engine.graph)
    (horderly' : ∀ s ∈ w'.tasks, s.Orderly r w'.engine.graph) (hleft : ∀ c, left c ≤ 1)
    (counted : Bool) (hcounted : counted = true →
      w.tasks[task]?.bind Stack.computing? = none ∧ ∃ d, d.metadata.mode = .manual ∧
        w'.tasks[task]?.bind Stack.computing? = some (id, d) ∧
        ∀ c, w'.tasks[task]?.bind Stack.computation? = some c → left c = 0) :
    counted.toNat + w'.due left id ≤ w.due left id := by
  have hsame : w'.tasks = w.tasks → counted.toNat + w'.due left id ≤ w.due left id := by
    intro htasks
    have hnot : counted = false := by
      by_contra hne
      obtain ⟨hbefore, d, -, hafter, -⟩ := hcounted (Bool.eq_true_of_not_eq_false hne)
      rw [htasks, hbefore] at hafter
      cases hafter
    rw [due, due, htasks, hnot, Bool.toNat_false, Nat.zero_add]
  cases halters with
  | edited m w' hgraph htasks => exact hsame htasks
  | created m w' id' state hbrought hgraph hkind htasks => cases hbrought
  | stepped task top rest new e w' hbefore hturn hgraph htasks =>
    have hsum := due_set left id hbefore htasks
    have hturned : Stack.due left id (new ++ rest) ≤ Stack.due left id (top :: rest) :=
      Stack.due_turn hleft hturn
    cases counted with
    | false =>
      rw [Bool.toNat_false, Nat.zero_add]
      omega
    | true =>
      obtain ⟨hnone, d, hmanual, hsome, hzero⟩ := hcounted rfl
      have hafter : w'.tasks[task]? = some (new ++ rest) := by
        rw [htasks, List.getElem?_set_self (List.getElem?_eq_some_iff.1 hbefore).1]
      rw [hbefore] at hnone
      rw [hafter] at hsome hzero
      have houter := (horderly _ (List.mem_of_getElem? hbefore)).2.2.1
      obtain ⟨run, n, inputs, rfl, hd, rfl⟩ := Stack.begins_of_turn hturn houter hnone hsome
      -- The type is manual, so no pull has begun this run.
      have hrest : rest = [] := by
        by_contra hne
        have hinner := (horderly' _ (List.mem_of_getElem? hafter)).2.1 hne
        rw [hinner.computing id d rfl] at hmanual
        cases hmanual
      subst hrest
      have hunit : Stack.due left id ([.run id (.pulling run [])] : Stack σ) = 1 := by
        simp [Stack.due, Frame.due, Phase.due]
      have hnothing : Stack.due left id ([.run id (.computing run n.epoch d ⟨id, n.state, inputs⟩
          (d.compute ⟨id, n.state, inputs⟩))] : Stack σ) = 0 := by
        simp [Stack.due, Frame.due, Phase.due, hzero _ rfl]
      rw [List.append_nil, hunit, hnothing] at hsum
      rw [Bool.toNat_true]
      omega

omit [NodeState σ] in
/-- The progress of a computation may cost what is set aside for it. -/
theorem due_proceed (left : Computation → Nat) (id : NodeId) {c : Computation} {s : Stack σ}
    (counted : Bool)
    (hcounted : counted = true → ∃ run epoch d context c₀,
      s = [.run id (.computing run epoch d context c₀)])
    (hcost : ∀ m run epoch d context c₀, s = [.run m (.computing run epoch d context c₀)] →
      counted.toNat + left c ≤ left c₀) :
    counted.toNat + Stack.due left id (Stack.proceed c s) ≤ Stack.due left id s := by
  cases counted with
  | true =>
    obtain ⟨run, epoch, d, context, c₀, rfl⟩ := hcounted rfl
    have hle := hcost id run epoch d context c₀ rfl
    simpa [Stack.proceed, Stack.due, Frame.due, Phase.due] using hle
  | false =>
    rw [Bool.toNat_false, Nat.zero_add]
    unfold Stack.proceed
    split
    · rename_i m run epoch d context c₀ rest
      cases rest with
      | nil =>
        have hle := hcost m run epoch d context c₀ rfl
        rw [Bool.toNat_false, Nat.zero_add] at hle
        by_cases hm : m = id
        · simpa [Stack.due, Frame.due, Phase.due, hm] using hle
        · simp [Stack.due, Frame.due, hm]
      | cons f rest =>
        -- Nothing is set aside for a level that has others below it.
        have hrest : f :: rest ≠ [] := List.cons_ne_nil f rest
        exact Nat.le_of_eq
          ((Stack.due_append left id hrest [_]).trans (Stack.due_append left id hrest [_]).symm)
    · exact Nat.le_refl _

omit [NodeState σ] in
theorem due_deliver (left : Computation → Nat) (id : NodeId) {task : Nat} {c : Computation}
    (htasks : w'.tasks = w.tasks.modify task (Stack.proceed c)) (counted : Bool)
    (hcounted : counted = true → ∃ run epoch d context c₀,
      w.tasks[task]? = some [.run id (.computing run epoch d context c₀)])
    (hcost : ∀ m run epoch d context c₀,
      w.tasks[task]? = some [.run m (.computing run epoch d context c₀)] →
        counted.toNat + left c ≤ left c₀) :
    counted.toNat + w'.due left id ≤ w.due left id := by
  cases hs : w.tasks[task]? with
  | none =>
    rw [List.modify_eq_self (List.getElem?_eq_none_iff.1 hs)] at htasks
    rw [hs] at hcounted
    cases counted with
    | true =>
      obtain ⟨run, epoch, d, context, c₀, hsome⟩ := hcounted rfl
      cases hsome
    | false => rw [due, due, htasks, Bool.toNat_false, Nat.zero_add]
  | some s =>
    rw [List.modify_eq_set, hs] at htasks
    simp only [hs, Option.some.injEq] at hcounted hcost
    have hproceed := due_proceed left id counted hcounted hcost
    have hsum : w'.due left id + Stack.due left id s =
      w.due left id + Stack.due left id (Stack.proceed c s) := due_set left id hs htasks
    omega

/-- Whoever executes the node pays one unit in, and but for steps and deliveries nothing is set
aside otherwise. -/
theorem due_other (left : Computation → Nat) (id : NodeId) (halters : w.Alters m w')
    (hstep : ∀ task, m ≠ .step task)
    (hdeliver : ∀ task c, m ≠ .deliver task c) :
    w'.due left id ≤ w.due left id + (m.executes id).toNat := by
  have hsame : w'.tasks = w.tasks → w'.due left id ≤ w.due left id + (m.executes id).toNat := by
    intro htasks
    rw [due, due, htasks]
    exact Nat.le_add_right _ _
  cases halters with
  | edited m w' hgraph htasks => exact hsame htasks
  | created m w' id' state hbrought hgraph hkind htasks => exact hsame htasks
  | restored s w' hnodes htasks => exact hsame htasks
  | started id' w' hgraph htasks =>
    rw [due_concat htasks]
    by_cases hid : id' = id
    · simp [Stack.execution, Stack.due, Frame.due, Phase.due, Move.executes, hid]
    · simp [Stack.execution, Stack.due, Frame.due, hid]
  | waited t w' hgraph htasks =>
    rw [due_concat htasks]
    exact Nat.le_add_right _ _
  | delivered task c w' hgraph htasks => exact absurd rfl (hdeliver task c)
  | stepped task top rest new e w' hbefore hturn hgraph htasks => exact absurd rfl (hstep task)

/-- If every move is covered by what was set aside before it and what is paid in with it, then no
more is counted than executions of the node. -/
theorem tally_le_starts (count : World σ → Move σ → Bool) (left : Computation → Nat)
    (P : List (Move σ) → Prop)
    (hearlier : ∀ moves m, P (moves ++ [m]) → P moves)
    (hcovered : ∀ moves m, P (moves ++ [m]) →
      (count (after r p moves) m).toNat + (after r p (moves ++ [m])).due left id ≤
        (after r p moves).due left id + (m.executes id).toNat)
    {moves : List (Move σ)} (h : P moves) :
    (new r p).tally count moves + (after r p moves).due left id ≤
      moves.countP (Move.executes id) := by
  induction moves using List.reverseRecOn with
  | nil => exact Nat.le_refl _
  | append_singleton moves m ih =>
    have hmoves := ih (hearlier moves m h)
    have hlast := hcovered moves m h
    have hm : [m].countP (Move.executes id) = (m.executes id).toNat := by
      rw [List.countP_singleton]
      cases m.executes id <;> rfl
    have htally : (new r p).tally count (moves ++ [m]) =
        (new r p).tally count moves + (count (after r p moves) m).toNat := by
      rw [tally_append]
      rfl
    rw [htally, List.countP_append, hm]
    omega

/-! ## Invocations and jobs -/

theorem invokes_covered {moves : List (Move σ)} (halters : (after r p moves).Alters m
    (after r p (moves ++ [m]))) (h : Tended r p moves) (hnext : Tended r p (moves ++ [m])) :
    (invokes id (after r p moves) m).toNat + (after r p (moves ++ [m])).due (fun _ => 0) id ≤
      (after r p moves).due (fun _ => 0) id + (m.executes id).toNat := by
  have hlast := after_concat r p moves m
  cases m with
  | step task =>
    refine due_step halters h.orderly hnext.orderly (fun _ => Nat.zero_le _) _ fun hcounted => ?_
    rw [invokes, Bool.and_eq_true, Option.isNone_iff_eq_none, Option.any_eq_true] at hcounted
    obtain ⟨hnone, ⟨id', d⟩, hsome, hmanual⟩ := hcounted
    rw [Bool.and_eq_true, beq_iff_eq, beq_iff_eq] at hmanual
    obtain ⟨rfl, hmanual⟩ := hmanual
    exact ⟨hnone, d, hmanual, hlast ▸ hsome, fun c _ => rfl⟩
  | deliver task c =>
    have htasks : (after r p (moves ++ [.deliver task c])).tasks =
        (after r p moves).tasks.modify task (Stack.proceed c) := by
      rw [hlast]
      rfl
    exact due_deliver (fun _ => 0) id htasks false nofun fun _ _ _ _ _ _ _ => Nat.le_refl _
  | _ =>
    have hother := due_other (fun _ => 0) id halters nofun nofun
    simpa only [invokes, Bool.toNat_false, Nat.zero_add] using hother

/-- A computation that has just asked for a job is of a manual type, and no pull has begun it. -/
theorem asking_eq_some {g : Graph σ} {s : Stack σ} (horderly : s.Orderly r g)
    (hthrifty : ∀ f ∈ s, f.Thrifty) (hasks : s.asking? = some id) :
    ∃ run epoch d context c, s = [.run id (.computing run epoch d context c)] ∧
      d.metadata.mode = .manual ∧ c.isAsking = true := by
  obtain ⟨run, epoch, d, context, c, rest, rfl, hc⟩ := Stack.asking?_eq_some hasks
  have hmanual : d.metadata.mode = .manual := by
    cases hmode : d.metadata.mode with
    | manual => rfl
    | reactive =>
      have hnone := (hthrifty _ List.mem_cons_self).2 hmode
      rw [Computation.asks_of_isAsking hc] at hnone
      cases hnone
  have hrest : rest = [] := by
    by_contra hne
    have hinner := (horderly.2.1 hne).computing id d rfl
    rw [hinner] at hmanual
    cases hmanual
  exact ⟨run, epoch, d, context, c, by rw [hrest], hmanual, hc⟩

/-- If a computation goes on as it says, what it asks for was set aside for it. -/
theorem requests_deliver {task : Nat} {c : Computation}
    (horderly : ∀ s ∈ (w.next (.deliver task c)).tasks,
      s.Orderly r (w.next (.deliver task c)).engine.graph)
    (hprescribed : w.Prescribed (.deliver task c))
    (hthrifty : ∀ s ∈ w.tasks, ∀ f ∈ s, f.Thrifty)
    (hthrifty' : ∀ s ∈ (w.next (.deliver task c)).tasks, ∀ f ∈ s, f.Thrifty) :
    (requests id w (.deliver task c)).toNat + (w.next (.deliver task c)).due Computation.due id ≤
      w.due Computation.due id := by
  have htasks : (w.next (.deliver task c)).tasks = w.tasks.modify task (Stack.proceed c) := rfl
  refine due_deliver Computation.due id htasks _ (fun hcounted => ?_)
    fun k run epoch d context c₀ hs => ?_
  · rw [requests, beq_iff_eq, Option.bind_eq_some_iff] at hcounted
    obtain ⟨t, ht, hasks⟩ := hcounted
    have hmem := List.mem_of_getElem? ht
    obtain ⟨run, epoch, d, context, c', rfl, -, -⟩ :=
      asking_eq_some (horderly t hmem) (hthrifty' t hmem) hasks
    rw [htasks, List.getElem?_modify_eq, Option.map_eq_map, Option.map_eq_some_iff] at ht
    obtain ⟨s, hs, heq⟩ := ht
    obtain ⟨c₀, rfl⟩ := Stack.proceed_eq_computing heq
    exact ⟨run, epoch, d, context, c₀, hs⟩
  · have hgoes : c₀.Goes c := hprescribed c₀ (by rw [hs]; rfl)
    have honce := (hthrifty _ (List.mem_of_getElem? hs) _ List.mem_cons_self).1
    have hcounted : (requests id w (.deliver task c)).toNat ≤ c.isAsking.toNat := by
      rw [requests, htasks, List.getElem?_modify_eq, hs]
      cases hc : c.isAsking with
      | true => exact Bool.toNat_le _
      | false => simp [Stack.proceed, Stack.asking?, Stack.computation?, hc]
    exact Nat.le_trans (Nat.add_le_add_right hcounted _) (hgoes.due_le honce).2

/-- Nobody whose computations ask at most once has more jobs than that. -/
theorem requests_covered {moves : List (Move σ)} (halters : (after r p moves).Alters m
    (after r p (moves ++ [m]))) (h : Tended r p moves) (hnext : Tended r p (moves ++ [m]))
    (hprescribed : (after r p moves).Prescribed m)
    (hthrifty : ∀ s ∈ (after r p moves).tasks, ∀ f ∈ s, f.Thrifty)
    (hthrifty' : ∀ s ∈ (after r p (moves ++ [m])).tasks, ∀ f ∈ s, f.Thrifty) :
    (requests id (after r p moves) m).toNat + (after r p (moves ++ [m])).due Computation.due id ≤
      (after r p moves).due Computation.due id + (m.executes id).toNat := by
  have hlast := after_concat r p moves m
  have horderly := hnext.orderly
  cases m with
  | step task =>
    refine due_step halters h.orderly hnext.orderly
      (fun c => Nat.le_trans c.due_le_asks (Bool.toNat_le _)) _ fun hcounted => ?_
    rw [requests, Bool.and_eq_true, Option.isNone_iff_eq_none, beq_iff_eq, ← hlast,
      Option.bind_eq_some_iff] at hcounted
    obtain ⟨hnone, s, hs, hasks⟩ := hcounted
    have hmem := List.mem_of_getElem? hs
    obtain ⟨run, epoch, d, context, c, rfl, hmanual, hc⟩ :=
      asking_eq_some (horderly s hmem) (hthrifty' s hmem) hasks
    refine ⟨hnone, d, hmanual, by rw [hs]; rfl, fun c' hc' => ?_⟩
    rw [hs] at hc'
    cases hc'
    exact Computation.due_of_isAsking hc
  | deliver task c =>
    rw [hlast] at horderly hthrifty' ⊢
    exact requests_deliver horderly hprescribed hthrifty hthrifty'
  | _ =>
    have hother := due_other Computation.due id halters nofun nofun
    simpa only [requests, Bool.toNat_false, Nat.zero_add] using hother

theorem undercut_earlier {moves : List (Move σ)}
    (h : (new r p).undercut (moves ++ [m]) = false) : (new r p).undercut moves = false := by
  rw [undercut_append, Bool.or_eq_false_iff] at h
  exact h.1

theorem honest_earlier {moves : List (Move σ)} (h : (new r p).Honest (moves ++ [m])) :
    (new r p).Honest moves ∧ (after r p moves).Prescribed m := by
  obtain ⟨hbefore, hlast⟩ := honest_append.1 h
  exact ⟨hbefore, hlast.1⟩

/-- Where computations go on as they say, none asks more than once. -/
theorem thrifty_after (hr : r.Steady) (hp : Engine.Passive p) (hfrugal : r.Frugal)
    {moves : List (Move σ)} (hclear : (new r p).undercut moves = false)
    (hhonest : (new r p).Honest moves) :
    ∀ s ∈ (after r p moves).tasks, ∀ f ∈ s, f.Thrifty := by
  induction moves using List.reverseRecOn with
  | nil => exact nofun
  | append_singleton moves m ih =>
    have hclear' := undercut_earlier hclear
    have htended := tended_after hr hp hclear'
    obtain ⟨hbefore, hprescribed⟩ := honest_earlier hhonest
    have hregistry := (sound_after hr p moves).registry
    exact thrifty_next (hregistry.symm ▸ hfrugal) (htended.alters hr hp m) hprescribed
      (ih hclear' hbefore)

/-- On a passive engine, as long as no manual node is brought under an identity that a pull still
has before it:
  1. every computation of a manual type stands on the outermost level of a task, which is there
     because someone executes the node;
  2. so no more of them have begun on a node than executions of it,
  3. and if computations go on as they say and ask for at most one job each, and those of reactive
     types for none, no more jobs were asked for by a node than executions of it. -/
theorem manual_never_pulled (hr : r.Steady) (hp : Engine.Passive p) {moves : List (Move σ)}
    (hclear : (new r p).undercut moves = false) :
    (∀ task inner id run epoch d context c outer, (after r p moves).tasks[task]? =
        some (inner ++ .run id (.computing run epoch d context c) :: outer) →
      d.metadata.mode = .manual → outer = [] ∧ Asked r p moves task id) ∧
    (∀ id, (new r p).tally (invokes id) moves ≤ moves.countP (Move.executes id)) ∧
    (r.Frugal → (new r p).Honest moves →
      ∀ id, (new r p).tally (requests id) moves ≤ moves.countP (Move.executes id)) := by
  refine ⟨fun task inner id run epoch d context c outer htask hd => ?_, fun id => ?_,
    fun hfrugal hhonest id => ?_⟩
  · exact (tended_after hr hp hclear).computing htask hd
  · refine Nat.le_trans (Nat.le_add_right _ ((after r p moves).due (fun _ => 0) id)) ?_
    refine tally_le_starts (invokes id) (fun _ => 0)
      (fun moves => (new r p).undercut moves = false) (fun _ _ => undercut_earlier)
      (fun moves m h => ?_) hclear
    have htended := tended_after hr hp (undercut_earlier h)
    exact invokes_covered (htended.alters hr hp m) htended (tended_after hr hp h)
  · refine Nat.le_trans (Nat.le_add_right _ ((after r p moves).due Computation.due id)) ?_
    refine tally_le_starts (requests id) Computation.due
      (fun moves => (new r p).undercut moves = false ∧ (new r p).Honest moves)
      (fun moves m h => ⟨undercut_earlier h.1, (honest_earlier h.2).1⟩) (fun moves m h => ?_)
      ⟨hclear, hhonest⟩
    obtain ⟨hbefore, hprescribed⟩ := honest_earlier h.2
    have hclear' := undercut_earlier h.1
    have htended := tended_after hr hp hclear'
    exact requests_covered (htended.alters hr hp m) htended (tended_after hr hp h.1) hprescribed
      (thrifty_after hr hp hfrugal hclear' hbefore) (thrifty_after hr hp hfrugal h.1 h.2)

end World

namespace Studio

def asking : List (Move StudioNode) :=
  [.createWith "t" (.textInput { text := "a cat" }), .create "g" "imageGeneration",
    .connect ⟨"t", "output"⟩ ⟨"g", "prompt"⟩, .start "g"] ++ List.replicate 15 (.step 0)

/-- How the computation goes on that has asked for the image. -/
def answered : Computation :=
  match (World.after registry {} asking).tasks[0]?.bind Stack.computation? with
  | some (.generate _ next) => next (.ok ⟨["https://cats/1.png"], none⟩)
  | _ => .done (.ok .empty)

def illustrating : List (Move StudioNode) :=
  asking ++ .deliver 0 answered :: List.replicate 6 (.step 0)

theorem honest_illustrating : (World.new registry {}).Honest illustrating := by
  have hasking : ((World.after registry {} asking).tasks[0]?.bind Stack.computation?).any
      Computation.isAsking = true := by decide +kernel
  refine World.honest_append.2 ⟨World.honest_of_no_delivery (by decide), ?_,
    World.honest_of_no_delivery (by decide)⟩
  show (World.after registry {} asking).Prescribed (.deliver 0 answered)
  intro c₀ hc₀
  rw [hc₀, Option.any_some] at hasking
  cases c₀ with
  | generate request next =>
    have heq : answered = next (.ok ⟨["https://cats/1.png"], none⟩) := by
      rw [answered, hc₀]
    rw [heq]
    exact .answered request next _
  | _ => cases hasking

/-- The image node is executed once; it computes once and asks once. -/
theorem manual_never_pulled_illustrating :
    let w := World.new registry {}
    w.undercut illustrating = false ∧ w.tally (World.invokes "g") illustrating = 1 ∧
      w.tally (World.requests "g") illustrating = 1 ∧
      w.tally (World.invokes "g") illustrating ≤ illustrating.countP (Move.executes "g") ∧
      w.tally (World.requests "g") illustrating ≤ illustrating.countP (Move.executes "g") := by
  have hclear : (World.new registry {}).undercut illustrating = false := by decide +kernel
  have h := World.manual_never_pulled steady_registry ⟨rfl, rfl⟩ hclear
  exact ⟨hclear, by decide +kernel, by decide +kernel, h.2.1 "g",
    h.2.2 frugal_registry honest_illustrating "g"⟩

end Studio

namespace Bench

/-- A collector is executed that reads from a gated node and from a constant. While the gated node
waits for its permit, the constant is removed and a source, which is manual, is made in its
place. Then the gate opens. Only the collector was executed. -/
def remade : List (Move BenchNode) :=
  [.create "a" "gated", .create "b" "constant", .create "m" "merge",
    .connect ⟨"a", "output"⟩ ⟨"m", "in0"⟩, .connect ⟨"b", "output"⟩ ⟨"m", "in1"⟩, .start "m"] ++
    List.replicate 8 (.step 0) ++
    [.remove "b", .create "b" "source", .deliver 0 (gives .null)] ++ List.replicate 11 (.step 0)

/-- The pull of the collector computes the source, which nobody has executed. The move that makes
the source undercuts the pull. -/
theorem pulled_after_remaking :
    let w := World.new (registry { reactiveGated := true }) {}
    ((remade.foldl World.next w).tasks[0]?.map fun s =>
        (s.computing?.map fun (id, d) => (id, d.metadata.mode), s.length)) =
      some (some ("b", .manual), 2) ∧
      w.tally (World.invokes "b") remade = 1 ∧ remade.countP (Move.executes "b") = 0 ∧
      w.undercut remade = true :=
  ⟨by decide +kernel, by decide +kernel, by decide +kernel, by decide +kernel⟩

end Bench

end Patchbay
