import Patchbay.History
import Patchbay.Proofs.Lossless

/-!
# A history as past, present and future

A history keeps texts in one list, with the place of the present one, and a push cuts the list at
both ends. What it stands for are a past, a present and a future: a push makes the present the
newest of the past and forgets the future, and then the oldest of the past if there are too many.

The operations cannot fail here: a difference stops at zero, and a place outside of the list holds
nothing. `act?` is made of the same operations in the order in which they are carried out, with no
result where a difference would be negative or a place is missing.

What is proved here:
  1. `dropLater_eq`, `dropOldest_eq`: what the two loops of a push leave.
  2. `Shows.act`, `Shows.act?`: each command does to a history what it does to the timeline, and
     nothing is out of range.
  3. `replays_timeline`: a history answers any commands as the timeline does.
  4. `recalls_legible`: what it answers are the snapshots that were pushed, as they are saved.
-/

namespace Patchbay

/-- A present with a past and a future, if there is any. The newest of the past come first, and so
do the next of the future. -/
inductive Timeline (α : Type) where
  | blank
  | moment (past : List α) (present : α) (future : List α)

/-- What can be asked of a history. -/
inductive History.Command (σ : Type) where
  | push (s : Snapshot σ)
  | undo
  | redo
  | current
  | clear

/-- The answer to a command, and what the history tells of itself then. -/
structure History.Reply (α : Type) where
  answer : Option α
  size : Nat
  canUndo : Bool
  canRedo : Bool
  isEmpty : Bool

def History.Reply.map {α β : Type} (f : α → β) (r : Reply α) : Reply β :=
  { r with answer := r.answer.map f }

namespace Timeline

variable {α σ : Type}

/-- A new present. The past keeps so many that there are no more than `limit` in all. -/
def push (limit : Nat) (a : α) : Timeline α → Timeline α
  | blank => moment [] a []
  | moment past present _ => moment ((present :: past).take (limit - 1)) a []

def undo : Timeline α → Timeline α × Option α
  | moment (previous :: past) present future =>
    (moment past previous (present :: future), some previous)
  | t => (t, none)

def redo : Timeline α → Timeline α × Option α
  | moment past present (next :: future) => (moment (present :: past) next future, some next)
  | t => (t, none)

def current? : Timeline α → Option α
  | blank => none
  | moment _ present _ => some present

def size : Timeline α → Nat
  | blank => 0
  | moment past _ future => past.length + 1 + future.length

def canUndo : Timeline α → Bool
  | moment (_ :: _) _ _ => true
  | _ => false

def canRedo : Timeline α → Bool
  | moment _ _ (_ :: _) => true
  | _ => false

def reply (t : Timeline α) (answer : Option α) : History.Reply α :=
  ⟨answer, t.size, t.canUndo, t.canRedo, t.size == 0⟩

def act (limit : Nat) (t : Timeline (Snapshot σ)) :
    History.Command σ → Timeline (Snapshot σ) × Option (Snapshot σ)
  | .push s => (t.push limit s, none)
  | .undo => t.undo
  | .redo => t.redo
  | .current => (t, t.current?)
  | .clear => (blank, none)

/-- The replies to some commands. -/
def replies (limit : Nat) (t : Timeline (Snapshot σ)) :
    List (History.Command σ) → List (History.Reply (Snapshot σ))
  | [] => []
  | c :: rest => (t.act limit c).1.reply (t.act limit c).2 :: replies limit (t.act limit c).1 rest

def place : Timeline α → Nat
  | blank => 0
  | moment past _ _ => past.length

def members : Timeline α → List α
  | blank => []
  | moment past present future => past.reverse ++ present :: future

theorem members_back (past : List α) (previous present : α) (future : List α) :
    (moment past previous (present :: future)).members =
      (moment (previous :: past) present future).members := by
  simp [members]

end Timeline

namespace History

variable {σ : Type}

def reply {α : Type} (h : History σ) (answer : Option α) : Reply α :=
  ⟨answer, h.size, h.canUndo, h.canRedo, h.isEmpty⟩

/-! ## One operation after another -/

def minus? (a b : Nat) : Option Nat := if b ≤ a then some (a - b) else none

/-- As long as entries lie behind the place, the last one is dropped. -/
def dropLater (place : Nat) (entries : List String) : List String :=
  if place + 1 < entries.length then dropLater place entries.dropLast else entries
termination_by entries.length

/-- As long as there are too many entries, the first one is dropped, and the place moves with the
others unless it is the first. -/
def dropOldest (limit : Nat) (entries : List String) (place : Nat) : List String × Nat :=
  if limit < entries.length then dropOldest limit entries.tail (place - 1) else (entries, place)
termination_by entries.length

variable [NodeState σ]

def act (h : History σ) : Command σ → History σ × Option (Except Error (Snapshot σ))
  | .push s => (h.push s, none)
  | .undo => h.undo
  | .redo => h.redo
  | .current => (h, h.current?)
  | .clear => (h.clear, none)

/-- What a command does, unless a difference is negative or a place is out of range on the way. -/
def act? (h : History σ) : Command σ → Option (History σ × Option (Except Error (Snapshot σ)))
  | .push s => do
    let entries := dropLater h.index h.entries ++ [(Json.encode s).compact]
    let place ← minus? entries.length 1
    let (entries, place) := dropOldest h.limit entries place
    return ({ h with entries := entries, index := place }, none)
  | .undo =>
    if h.canUndo then do
      let place ← minus? h.index 1
      return ({ h with index := place }, some (← h.entry? place))
    else return (h, none)
  | .redo =>
    if h.canRedo then do
      return ({ h with index := h.index + 1 }, some (← h.entry? (h.index + 1)))
    else return (h, none)
  | .current =>
    if h.isEmpty then return (h, none)
    else do return (h, some (← h.entry? h.index))
  | .clear => return (h.clear, none)

/-- The replies to some commands. -/
def replies (h : History σ) : List (Command σ) → List (Reply (Except Error (Snapshot σ)))
  | [] => []
  | c :: rest => (h.act c).1.reply (h.act c).2 :: replies (h.act c).1 rest

/-- The replies to some commands, unless one of them fails. -/
def replies? (h : History σ) :
    List (Command σ) → Option (List (Reply (Except Error (Snapshot σ))))
  | [] => some []
  | c :: rest => do
    let (h, answer) ← h.act? c
    return h.reply answer :: (← replies? h rest)

def recalled (s : Snapshot σ) : Except Error (Snapshot σ) :=
  Snapshot.ofText (Json.encode s).compact

omit [NodeState σ] in
theorem dropLater_eq (place : Nat) (entries : List String) :
    dropLater place entries = entries.take (place + 1) := by
  fun_induction dropLater place entries with
  | case1 entries hlater ih =>
    rw [ih, List.dropLast_eq_take, List.take_take, Nat.min_eq_left (by omega)]
  | case2 entries hlater => exact (List.take_of_length_le (by omega)).symm

omit [NodeState σ] in
theorem dropOldest_eq (limit : Nat) (entries : List String) (place : Nat) :
    dropOldest limit entries place =
      (entries.drop (entries.length - limit), place - (entries.length - limit)) := by
  fun_induction dropOldest limit entries place with
  | case1 entries place hmany ih =>
    have hlength : entries.length - limit = entries.tail.length - limit + 1 := by
      rw [List.length_tail]
      omega
    rw [ih, hlength, ← List.drop_one, List.drop_drop, Nat.add_comm 1, Nat.sub_sub, Nat.add_comm 1]
  | case2 entries place hfew =>
    have hnone : entries.length - limit = 0 := by omega
    rw [hnone, List.drop_zero, Nat.sub_zero]

/-! ## A history and its timeline -/

/-- The texts of the history are those of the timeline, oldest first, and its place is that of the
present. -/
structure Shows (h : History σ) (t : Timeline (Snapshot σ)) : Prop where
  entries : h.entries = t.members.map fun s => (Json.encode s).compact
  index : h.index = t.place

variable {h : History σ} {t : Timeline (Snapshot σ)}

theorem Shows.size (hs : h.Shows t) : h.size = t.size := by
  rw [History.size, hs.entries, List.length_map]
  cases t with
  | blank => rfl
  | moment past present future =>
    simp only [Timeline.members, Timeline.size, List.length_append, List.length_reverse,
      List.length_cons]
    omega

theorem Shows.canUndo (hs : h.Shows t) : h.canUndo = t.canUndo := by
  rw [History.canUndo, hs.index]
  cases t with
  | blank => rfl
  | moment past present future => cases past <;> simp [Timeline.canUndo, Timeline.place]

theorem Shows.canRedo (hs : h.Shows t) : h.canRedo = t.canRedo := by
  rw [History.canRedo, hs.size, hs.index]
  cases t with
  | blank => rfl
  | moment past present future =>
    cases future <;> simp [Timeline.canRedo, Timeline.size, Timeline.place]

theorem Shows.isEmpty (hs : h.Shows t) : h.isEmpty = (t.size == 0) := by
  rw [← hs.size, History.isEmpty, History.size]
  cases h.entries <;> rfl

theorem Shows.reply {β : Type} (hs : h.Shows t) (f : Snapshot σ → β) (answer : Option (Snapshot σ)) :
    h.reply (answer.map f) = (t.reply answer).map f := by
  rw [History.reply, hs.size, hs.canUndo, hs.canRedo, hs.isEmpty]
  rfl

theorem Shows.new (limit : Nat) : (History.new limit : History σ).Shows .blank := ⟨rfl, rfl⟩

theorem Shows.current? (hs : h.Shows t) : h.current? = t.current?.map recalled := by
  rw [History.current?, entry?, hs.entries, hs.index, List.getElem?_map, Option.map_map]
  cases t with
  | blank => rfl
  | moment past present future =>
    have hplace : (past.reverse ++ present :: future)[past.length]? = some present := by simp
    rw [Timeline.members, Timeline.place, hplace]
    rfl

/-! ## Each command -/

/-- A push keeps the entries up to the present at first. -/
theorem Shows.take_entries {past future : List (Snapshot σ)} {present : Snapshot σ}
    (hs : h.Shows (.moment past present future)) :
    h.entries.take (h.index + 1) =
      (present :: past).reverse.map fun s => (Json.encode s).compact := by
  have hlength : (present :: past).reverse.length = past.length + 1 := by simp
  have hmembers : (Timeline.moment past present future).members =
      (present :: past).reverse ++ future := by simp [Timeline.members]
  rw [hs.entries, hs.index, ← List.map_take, hmembers, Timeline.place, List.take_left' hlength]

theorem Shows.push (hs : h.Shows t) (hlimit : 1 ≤ h.limit) (s : Snapshot σ) :
    (h.push s).Shows (t.push h.limit s) := by
  cases t with
  | blank =>
    have hnone : 1 - h.limit = 0 := by omega
    constructor
    · simp [History.push, hs.entries, Timeline.members, Timeline.push, hnone]
    · simp [History.push, hs.entries, Timeline.members, Timeline.push, Timeline.place, hnone]
  | moment past present future =>
    have hentries : (h.push s).entries =
        (Timeline.moment ((present :: past).take (h.limit - 1)) s []).members.map
          fun s => (Json.encode s).compact := by
      have hlength : (present :: past).reverse.length + 1 - h.limit =
          (present :: past).length - (h.limit - 1) := by
        rw [List.length_reverse]
        omega
      have hfits : (present :: past).reverse.length + 1 - h.limit ≤
          (present :: past).reverse.length := by omega
      rw [Timeline.members, List.reverse_take, ← hlength, ← List.drop_append_of_le_length hfits,
        List.map_drop, List.map_append, List.map_singleton]
      simp only [History.push, hs.take_entries, List.length_append, List.length_map,
        List.length_singleton]
    refine ⟨hentries, ?_⟩
    have hindex : (h.push s).index = (h.push s).entries.length - 1 := rfl
    rw [hindex, hentries]
    simp [Timeline.members, Timeline.push, Timeline.place]

/-- What a command does to a history is what it does to the timeline. -/
theorem Shows.act (hs : h.Shows t) (hlimit : 1 ≤ h.limit) (c : Command σ) :
    (h.act c).1.Shows (t.act h.limit c).1 ∧ (h.act c).2 = (t.act h.limit c).2.map recalled ∧
      (h.act c).1.limit = h.limit := by
  cases c with
  | push s => exact ⟨hs.push hlimit s, rfl, rfl⟩
  | undo =>
    rw [History.act, History.undo, hs.canUndo, Timeline.act]
    cases t with
    | blank => exact ⟨hs, rfl, rfl⟩
    | moment past present future =>
      cases past with
      | nil => exact ⟨hs, rfl, rfl⟩
      | cons previous past =>
        have hs' : ({ h with index := h.index - 1 } : History σ).Shows
            (.moment past previous (present :: future)) := by
          refine ⟨?_, ?_⟩
          · rw [Timeline.members_back]
            exact hs.entries
          · simp [hs.index, Timeline.place]
        exact ⟨hs', hs'.current?, rfl⟩
  | redo =>
    rw [History.act, History.redo, hs.canRedo, Timeline.act]
    cases t with
    | blank => exact ⟨hs, rfl, rfl⟩
    | moment past present future =>
      cases future with
      | nil => exact ⟨hs, rfl, rfl⟩
      | cons next future =>
        have hs' : ({ h with index := h.index + 1 } : History σ).Shows
            (.moment (present :: past) next future) := by
          refine ⟨?_, ?_⟩
          · rw [← Timeline.members_back]
            exact hs.entries
          · simp [hs.index, Timeline.place]
        exact ⟨hs', hs'.current?, rfl⟩
  | current => exact ⟨hs, hs.current?, rfl⟩
  | clear => exact ⟨⟨rfl, rfl⟩, rfl, rfl⟩

theorem Shows.index_lt (hs : h.Shows t) (hsome : h.isEmpty = false) : h.index < h.size := by
  rw [hs.isEmpty] at hsome
  rw [hs.size, hs.index]
  cases t with
  | blank => cases hsome
  | moment past present future =>
    rw [Timeline.place, Timeline.size]
    omega

theorem Shows.pred_lt (hs : h.Shows t) (hundo : h.canUndo = true) : h.index - 1 < h.size := by
  have hpos : 0 < h.index := of_decide_eq_true hundo
  cases hempty : h.isEmpty with
  | false => exact Nat.lt_of_le_of_lt (Nat.sub_le _ 1) (hs.index_lt hempty)
  | true =>
    rw [hs.isEmpty] at hempty
    rw [hs.index] at hpos
    cases t with
    | blank => cases hpos
    | moment past present future => simp [Timeline.size] at hempty

theorem exists_entry? {i : Nat} (hi : i < h.size) : ∃ answer, h.entry? i = some answer :=
  ⟨_, by
    unfold entry?
    rw [List.getElem?_eq_getElem hi, Option.map_some]⟩

theorem Shows.act? (hs : h.Shows t) (c : Command σ) : h.act? c = some (h.act c) := by
  cases c with
  | push s =>
    have hone : minus? (dropLater h.index h.entries ++ [(Json.encode s).compact]).length 1 =
        some (dropLater h.index h.entries).length := by
      rw [minus?, List.length_append, List.length_singleton, if_pos (Nat.le_add_left 1 _),
        Nat.add_sub_cancel]
    rw [History.act?, hone, Option.bind_eq_bind, Option.bind_some, dropOldest_eq, dropLater_eq]
    have hplace : (h.entries.take (h.index + 1)).length -
        ((h.entries.take (h.index + 1) ++ [(Json.encode s).compact]).length - h.limit) =
          (h.push s).index := by
      simp only [History.push, List.length_drop, List.length_append, List.length_singleton]
      omega
    rw [hplace]
    rfl
  | undo =>
    rw [History.act?, History.act, History.undo]
    by_cases hundo : h.canUndo = true
    · have hpos : 0 < h.index := of_decide_eq_true hundo
      have hone : minus? h.index 1 = some (h.index - 1) := if_pos hpos
      obtain ⟨answer, hanswer⟩ := exists_entry? (h := h) (i := h.index - 1) (hs.pred_lt hundo)
      rw [if_pos hundo, if_pos hundo, hone, Option.bind_eq_bind, Option.bind_some, hanswer]
      exact congrArg (fun a => some (_, a)) hanswer.symm
    · rw [if_neg hundo, if_neg hundo]
      rfl
  | redo =>
    rw [History.act?, History.act, History.redo]
    by_cases hredo : h.canRedo = true
    · obtain ⟨answer, hanswer⟩ := exists_entry? (of_decide_eq_true hredo)
      rw [if_pos hredo, if_pos hredo, hanswer]
      exact congrArg (fun a => some (_, a)) hanswer.symm
    · rw [if_neg hredo, if_neg hredo]
      rfl
  | current =>
    rw [History.act?, History.act]
    cases hempty : h.isEmpty with
    | true =>
      have hnone : h.current? = none := by
        rw [History.current?, entry?, List.isEmpty_iff.1 hempty]
        rfl
      rw [hnone]
      rfl
    | false =>
      obtain ⟨answer, hanswer⟩ := exists_entry? (hs.index_lt hempty)
      rw [History.current?, hanswer]
      rfl
  | clear => rfl

/-! ## Any commands -/

theorem Shows.replies (hs : h.Shows t) (hlimit : 1 ≤ h.limit) (commands : List (Command σ)) :
    h.replies? commands = some (h.replies commands) ∧
      h.replies commands = (t.replies h.limit commands).map (Reply.map recalled) := by
  induction commands generalizing h t with
  | nil => exact ⟨rfl, rfl⟩
  | cons c rest ih =>
    obtain ⟨hnext, hanswer, hsame⟩ := hs.act hlimit c
    obtain ⟨hchecked, hrest⟩ := ih hnext (hsame ▸ hlimit)
    constructor
    · simp only [replies?, hs.act? c, Option.bind_eq_bind, Option.bind_some, hchecked,
        History.replies, Option.pure_def]
    · rw [History.replies, Timeline.replies, List.map_cons, hrest, hanswer, hnext.reply, hsame]

end History

namespace Timeline

variable {σ : Type} {limit : Nat} {t : Timeline (Snapshot σ)} {P : Snapshot σ → Prop}

theorem act_members (limit : Nat) (ht : ∀ s ∈ t.members, P s) (c : History.Command σ)
    (hc : ∀ s, c = .push s → P s) :
    (∀ s ∈ (t.act limit c).1.members, P s) ∧ ∀ s ∈ (t.act limit c).2, P s := by
  cases c with
  | push s =>
    cases t with
    | blank => exact ⟨List.forall_mem_singleton.2 (hc s rfl), fun s hs => nomatch hs⟩
    | moment past present future =>
      refine ⟨fun s' hs' => ?_, fun s hs => nomatch hs⟩
      rcases List.mem_append.1 hs' with hpast | hnew
      · have hold : s' ∈ present :: past := List.mem_of_mem_take (List.mem_reverse.1 hpast)
        exact ht s' (by simp [members] at hold ⊢; tauto)
      · exact List.mem_singleton.1 hnew ▸ hc s rfl
  | undo =>
    cases t with
    | blank => exact ⟨ht, fun s hs => nomatch hs⟩
    | moment past present future =>
      cases past with
      | nil => exact ⟨ht, fun s hs => nomatch hs⟩
      | cons previous past =>
        have hsame := members_back past previous present future
        refine ⟨fun s hs => ht s (hsame ▸ hs), fun s hs => ht s ?_⟩
        cases hs
        simp [members]
  | redo =>
    cases t with
    | blank => exact ⟨ht, fun s hs => nomatch hs⟩
    | moment past present future =>
      cases future with
      | nil => exact ⟨ht, fun s hs => nomatch hs⟩
      | cons next future =>
        have hsame := members_back past present next future
        refine ⟨fun s hs => ht s (hsame ▸ hs), fun s hs => ht s ?_⟩
        cases hs
        simp [members]
  | current =>
    refine ⟨ht, fun s hs => ht s ?_⟩
    cases t with
    | blank => cases hs
    | moment past present future =>
      cases hs
      simp [members]
  | clear => exact ⟨List.forall_mem_nil _, fun s hs => nomatch hs⟩

theorem size_act_le (hlimit : 1 ≤ limit) (h : t.size ≤ limit) (c : History.Command σ) :
    (t.act limit c).1.size ≤ limit := by
  cases c with
  | push s =>
    cases t with
    | blank => exact hlimit
    | moment past present future =>
      have hkept := List.length_take_le (limit - 1) (present :: past)
      simp only [act, push, size, List.length_nil]
      omega
  | undo =>
    cases t with
    | blank => exact h
    | moment past present future =>
      cases past with
      | nil => exact h
      | cons previous past =>
        simp only [act, undo, size, List.length_cons] at h ⊢
        omega
  | redo =>
    cases t with
    | blank => exact h
    | moment past present future =>
      cases future with
      | nil => exact h
      | cons next future =>
        simp only [act, redo, size, List.length_cons] at h ⊢
        omega
  | current => exact h
  | clear => exact Nat.zero_le limit

theorem size_replies_le (hlimit : 1 ≤ limit) (h : t.size ≤ limit)
    (commands : List (History.Command σ)) : ∀ r ∈ t.replies limit commands, r.size ≤ limit := by
  induction commands generalizing t with
  | nil => exact fun r hr => nomatch hr
  | cons c rest ih =>
    have hnext := size_act_le hlimit h c
    exact List.forall_mem_cons.2 ⟨hnext, ih hnext⟩

theorem answer_mem_pushed (ht : ∀ s ∈ t.members, P s) (commands : List (History.Command σ))
    (hpushed : ∀ s, .push s ∈ commands → P s) :
    ∀ r ∈ t.replies limit commands, ∀ s ∈ r.answer, P s := by
  induction commands generalizing t with
  | nil => exact fun r hr => nomatch hr
  | cons c rest ih =>
    obtain ⟨hkept, hanswer⟩ := act_members limit ht c
      fun s hs => hpushed s (hs ▸ List.mem_cons_self)
    exact List.forall_mem_cons.2
      ⟨hanswer, ih hkept fun s hs => hpushed s (List.mem_cons_of_mem _ hs)⟩

end Timeline

namespace History

section

variable {σ : Type} [NodeState σ]

/-- Whatever the limit, of which zero counts as one, and whatever the commands: a history replies
as the timeline does that starts blank, with what is read of the texts of the snapshots that the
timeline gives, and there are never more than the limit. No difference is negative and no place out
of range on the way. So if each snapshot that was pushed is read as `read` says, the history gives
just what `read` says of the timeline's answers. -/
theorem replays_timeline (limit : Nat) (commands : List (Command σ)) :
    let replies := Timeline.blank.replies (max limit 1) commands
    (History.new limit).replies? commands = some ((History.new limit).replies commands) ∧
    (History.new limit).replies commands = replies.map (Reply.map recalled) ∧
    (∀ r ∈ replies, r.size ≤ max limit 1) ∧
    ∀ read : Snapshot σ → Snapshot σ, (∀ s, .push s ∈ commands → recalled s = .ok (read s)) →
      (History.new limit).replies commands = replies.map (Reply.map fun s => .ok (read s)) := by
  intro replies
  have hlimit : 1 ≤ max limit 1 := Nat.le_max_right limit 1
  obtain ⟨hchecked, hreplies⟩ := (Shows.new (σ := σ) limit).replies hlimit commands
  refine ⟨hchecked, hreplies, Timeline.size_replies_le hlimit (Nat.zero_le _) commands, ?_⟩
  intro read hread
  rw [hreplies]
  refine List.map_congr_left fun r hr => ?_
  have hanswer := Timeline.answer_mem_pushed (P := fun s => recalled s = .ok (read s))
    (List.forall_mem_nil _) commands hread r hr
  rw [Reply.map, Reply.map, Option.map_congr hanswer]

end

theorem recalls_legible {σ : Type} [NodeState σ] [Json.Lossless σ] (limit : Nat)
    (commands : List (Command σ)) (h : ∀ s, .push s ∈ commands → s.Legible) :
    (History.new limit).replies commands =
      (Timeline.blank.replies (max limit 1) commands).map (Reply.map fun s => .ok s.written) :=
  (replays_timeline limit commands).2.2.2 _ fun s hs => Snapshot.ofText_compact (h s hs)

/-- With room for one there is no way back, and a push after a step back forgets the future. -/
example {σ : Type} (s t u : Snapshot σ) :
    let told := fun limit commands =>
      (Timeline.blank.replies limit commands).map fun r => (r.answer, r.canUndo, r.canRedo)
    told 1 [.push s, .push t, .undo] = [(none, false, false), (none, false, false),
        (none, false, false)] ∧
      told 2 [.push s, .push t, .undo, .push u, .undo, .redo] =
        [(none, false, false), (none, true, false), (some s, false, true), (none, true, false),
          (some s, false, true), (some u, true, false)] :=
  ⟨rfl, rfl⟩

end History

end Patchbay
