import Patchbay.Generation.Client

/-!
# Polling

A client that hands its drafts to an agent is told, each time, what came of the draft: a response,
or why there is none. It submits the job once. If the service takes the job, the client polls until
an answer settles it, and gives up after the last poll. Between two polls there is a pause, after
the last one there is none. Whatever the agent answers, the client does no more and no less.

What is proved here:
  1. `countP_isSend_polls`, `count_pause_polls`: how many drafts and pauses there are in polls.
  2. `reads_iff`, `takes_iff`, `settles_iff`: what the client makes of an answer.
  3. `against_poll_after`: polls that settle nothing.
  4. `generate_exact`: all that the client does, and what it returns.
-/

namespace Patchbay

open Json Http

/-! ## Scripted agents -/

namespace Http

inductive Act where
  | send (draft : Draft)
  | pause (milliseconds : Nat)
  deriving DecidableEq

@[simp]
def Act.isSend : Act → Bool
  | .send _ => true
  | .pause _ => false

/-- An agent that has the first answer for the first draft, and so on. It remembers what it was
asked to do. -/
def Agent.scripted (answers : Nat → Answer) : Agent (StateM (List Act)) where
  send draft := fun acts => (answers (acts.countP Act.isSend), acts ++ [.send draft])
  pause milliseconds := fun acts => ((), acts ++ [.pause milliseconds])

/-- The result of a dialogue with a scripted agent, and all that the agent was asked to do, where
it was asked to do `acts` before. -/
def Dialogue.against {α : Type} (d : Dialogue α) (answers : Nat → Answer) (acts : List Act) :
    α × List Act :=
  (d.consult (.scripted answers)).run acts

section

variable {α : Type} {answers : Nat → Answer} {acts : List Act}

theorem Dialogue.against_send (draft : Draft) (next : Answer → Dialogue α) :
    (Dialogue.send draft next).against answers acts =
      (next (answers (acts.countP Act.isSend))).against answers (acts ++ [.send draft]) := rfl

theorem Dialogue.against_pause (milliseconds : Nat) (next : Dialogue α) :
    (Dialogue.pause milliseconds next).against answers acts =
      next.against answers (acts ++ [.pause milliseconds]) := rfl

end

/-! ## Polls and pauses -/

/-- So many polls, with a pause between any two of them. -/
def polls (question : Draft) (interval p : Nat) : List Act :=
  (List.replicate p (.send question)).intersperse (.pause interval)

def rounds (question : Draft) (interval d : Nat) : List Act :=
  (List.replicate d [.send question, .pause interval]).flatten

variable {question : Draft} {interval : Nat}

theorem rounds_succ (d : Nat) : rounds question interval (d + 1) =
    .send question :: .pause interval :: rounds question interval d := rfl

theorem polls_succ (d : Nat) :
    polls question interval (d + 1) = rounds question interval d ++ [.send question] := by
  induction d with
  | zero => rfl
  | succ d ih => rw [rounds_succ, List.cons_append, List.cons_append, ← ih]; rfl

theorem countP_isSend_rounds (d : Nat) : (rounds question interval d).countP Act.isSend = d := by
  induction d with
  | zero => rfl
  | succ d ih => simp [rounds_succ, List.countP_cons, ih]

theorem count_pause_rounds (d : Nat) :
    (rounds question interval d).count (.pause interval) = d := by
  induction d with
  | zero => rfl
  | succ d ih => simp [rounds_succ, ih]

theorem countP_isSend_polls (p : Nat) : (polls question interval p).countP Act.isSend = p := by
  cases p with
  | zero => rfl
  | succ d => rw [polls_succ, List.countP_append, countP_isSend_rounds]; rfl

theorem count_pause_polls (p : Nat) :
    (polls question interval p).count (.pause interval) = p - 1 := by
  cases p with
  | zero => rfl
  | succ d => rw [polls_succ, List.count_append, count_pause_rounds]; rfl

end Http

namespace Generation.Client

variable {c : Client} {url id : String} {answer : Answer} {answers : Nat → Answer}
  {acts : List Act}

/-! ## Answers -/

/-- What an answer to a request to this address is read as. -/
inductive Reads {α : Type} [Codec α] (url : String) : Answer → Except Error α → Prop
  | unreached (message : String) : Reads url (.error message) (.error (.request url message))
  | refused (r : Response) (hstatus : r.isSuccess = false) :
    Reads url (.ok r) (.error (.api r.status (withoutMark r.body)))
  | garbled (r : Response) (hstatus : r.isSuccess = true)
    (hbody : (ofText? r.body : Option α) = none) :
    Reads url (.ok r) (.error (.invalidResponse "error decoding response body"))
  | parsed (r : Response) (a : α) (hstatus : r.isSuccess = true)
    (hbody : ofText? r.body = some a) : Reads url (.ok r) (.ok a)

/-- What the answer to a submission comes to: the identity of the job, if the service took it. -/
inductive Takes (url : String) (answer : Answer) : Except Error String → Prop
  | unread (e : Error) (hread : Reads url answer (.error e : Except Error Receipt)) :
    Takes url answer (.error e)
  | rejected (r : Receipt) (hread : Reads url answer (.ok r))
    (hrejected : ¬ (r.success = true ∧ r.id.isSome = true)) :
    Takes url answer (.error (.rejected (r.error.getD "Failed to start generation")))
  | accepted (r : Receipt) (id : String) (hread : Reads url answer (.ok r))
    (hsuccess : r.success = true) (hid : r.id = some id) : Takes url answer (.ok id)

/-- The answer to a poll settles the job, with this outcome. -/
inductive Settles (url : String) (answer : Answer) : Except Error Output → Prop
  | unread (e : Error) (hread : Reads url answer (.error e : Except Error Progress)) :
    Settles url answer (.error e)
  | completed (p : Progress) (hread : Reads url answer (.ok p)) (hstatus : p.status = "completed") :
    Settles url answer (.ok ⟨(p.resultUrl.map resultUrls).getD [], p.resultText⟩)
  | failed (p : Progress) (hread : Reads url answer (.ok p)) (hstatus : p.status = "failed") :
    Settles url answer (.error (.failed (p.errorMessage.getD "Generation failed")))

theorem received_ok (r : Response) (h : r.isSuccess = true) : received url (.ok r) = .ok r :=
  if_pos h

theorem received_error (r : Response) (h : r.isSuccess = false) :
    received url (.ok r) = .error (.api r.status (withoutMark r.body)) :=
  if_neg (Bool.eq_false_iff.1 h)

section

variable {α : Type} [Codec α]

theorem read_error (e : Error) : (read (.error e) : Except Error α) = .error e := rfl

theorem read_ok (r : Response) : (read (.ok r) : Except Error α) =
    match ofText? r.body with
    | some a => .ok a
    | none => .error (.invalidResponse "error decoding response body") := by
  show (match (ofText? r.body : Option α) with
    | some a => pure a
    | none => throw (Error.invalidResponse "error decoding response body")) = _
  cases (ofText? r.body : Option α) <;> rfl

theorem reads_read : Reads url answer (read (received url answer) : Except Error α) := by
  cases answer with
  | error message => exact .unreached message
  | ok r =>
    cases hstatus : r.isSuccess with
    | false =>
      rw [received_error r hstatus]
      exact .refused r hstatus
    | true =>
      rw [received_ok r hstatus, read_ok]
      cases hbody : (ofText? r.body : Option α) with
      | none => exact .garbled r hstatus hbody
      | some a => exact .parsed r a hstatus hbody

theorem reads_iff {result : Except Error α} :
    Reads url answer result ↔ read (received url answer) = result := by
  constructor
  · intro hreads
    cases hreads with
    | unreached message => rfl
    | refused r hstatus => rw [received_error r hstatus, read_error]
    | garbled r hstatus hbody => rw [received_ok r hstatus, read_ok, hbody]
    | parsed r a hstatus hbody => rw [received_ok r hstatus, read_ok, hbody]
  · intro heq
    exact heq ▸ reads_read

end

theorem accepted_of_id {r : Receipt} (hsuccess : r.success = true) (hid : r.id = some id) :
    r.accepted = .ok id := by
  rw [Receipt.accepted, hsuccess, hid]

theorem accepted_of_not {r : Receipt} (h : ¬ (r.success = true ∧ r.id.isSome = true)) :
    r.accepted = .error (.rejected (r.error.getD "Failed to start generation")) := by
  unfold Receipt.accepted
  split
  · rename_i id hsuccess hid
    exact absurd ⟨hsuccess, by rw [hid]; rfl⟩ h
  · rfl

theorem takes_iff {taken : Except Error String} :
    Takes url answer taken ↔ (read (received url answer)).bind Receipt.accepted = taken := by
  constructor
  · intro htakes
    cases htakes with
    | unread e hread => rw [reads_iff.1 hread]; rfl
    | rejected r hread hrejected => rw [reads_iff.1 hread]; exact accepted_of_not hrejected
    | accepted r id hread hsuccess hid =>
      rw [reads_iff.1 hread]
      exact accepted_of_id hsuccess hid
  · rintro rfl
    cases hread : (read (received url answer) : Except Error Receipt) with
    | error e => exact .unread e (reads_iff.2 hread)
    | ok r =>
      show Takes url answer r.accepted
      by_cases h : r.success = true ∧ r.id.isSome = true
      · obtain ⟨id, hid⟩ := Option.isSome_iff_exists.1 h.2
        rw [accepted_of_id h.1 hid]
        exact .accepted r id (reads_iff.2 hread) h.1 hid
      · rw [accepted_of_not h]
        exact .rejected r (reads_iff.2 hread) h

theorem outcome?_eq_some {p : Progress} {outcome : Except Error Output} :
    p.outcome? = some outcome ↔
      (p.status = "completed" ∧
        outcome = .ok ⟨(p.resultUrl.map resultUrls).getD [], p.resultText⟩) ∨
      (p.status = "failed" ∧
        outcome = .error (.failed (p.errorMessage.getD "Generation failed"))) := by
  unfold Progress.outcome?
  by_cases hcompleted : p.status = "completed"
  · simp [hcompleted, eq_comm]
  · by_cases hfailed : p.status = "failed"
    · simp [hfailed, eq_comm]
    · simp [hcompleted, hfailed]

theorem settles_iff {outcome : Except Error Output} :
    Settles url answer outcome ↔ decided? (received url answer) = some outcome := by
  constructor
  · intro hsettles
    cases hsettles with
    | unread e hread => rw [decided?, reads_iff.1 hread]
    | completed p hread hstatus =>
      rw [decided?, reads_iff.1 hread]
      exact outcome?_eq_some.2 (.inl ⟨hstatus, rfl⟩)
    | failed p hread hstatus =>
      rw [decided?, reads_iff.1 hread]
      exact outcome?_eq_some.2 (.inr ⟨hstatus, rfl⟩)
  · intro hdecided
    unfold decided? at hdecided
    split at hdecided
    · rename_i p hread
      obtain ⟨hstatus, rfl⟩ | ⟨hstatus, rfl⟩ := outcome?_eq_some.1 hdecided
      · exact .completed p (reads_iff.2 hread) hstatus
      · exact .failed p (reads_iff.2 hread) hstatus
    · rename_i e hread
      cases hdecided
      exact .unread e (reads_iff.2 hread)

/-- The answer settles nothing: the job goes on. -/
def Pending (url : String) (answer : Answer) : Prop := ∀ outcome, ¬ Settles url answer outcome

theorem pending_iff : Pending url answer ↔ decided? (received url answer) = none := by
  rw [Option.eq_none_iff_forall_ne_some]
  exact forall_congr' fun outcome => not_congr settles_iff

/-! ## One poll and many -/

/-- The question that a poll asks. -/
def question (c : Client) (id : String) : Draft :=
  ⟨.get, s!"{c.baseUrl}/api/generations/{id}", c.apiKey, none⟩

theorem against_poll_of_settles {outcome : Except Error Output} (left : Nat)
    (h : Settles (c.question id).url (answers (acts.countP Act.isSend)) outcome) :
    (c.poll (c.question id).url (left + 1)).against answers acts =
      (outcome, acts ++ [.send (c.question id)]) := by
  rw [poll, ask, Dialogue.against_send, settles_iff.1 h]
  rfl

/-- A poll that settles nothing is followed by a pause, if it is not the last one. -/
theorem against_poll_of_pending (left : Nat)
    (h : Pending (c.question id).url (answers (acts.countP Act.isSend))) :
    (c.poll (c.question id).url (left + 2)).against answers acts =
      (c.poll (c.question id).url (left + 1)).against answers
        (acts ++ [.send (c.question id), .pause c.pollInterval]) := by
  rw [poll, ask, Dialogue.against_send, pending_iff.1 h]
  show (Dialogue.pause _ _).against answers (acts ++ [.send (c.question id)]) = _
  rw [Dialogue.against_pause, List.append_assoc]
  rfl

theorem against_poll_last (h : Pending (c.question id).url (answers (acts.countP Act.isSend))) :
    (c.poll (c.question id).url 1).against answers acts =
      (.error (.timeout c.maxAttempts), acts ++ [.send (c.question id)]) := by
  rw [poll, ask, Dialogue.against_send, pending_iff.1 h]
  rfl

/-- Polls that settle nothing leave so many the fewer. -/
theorem against_poll_after (left d : Nat)
    (h : ∀ i, i < d → Pending (c.question id).url (answers (acts.countP Act.isSend + i))) :
    (c.poll (c.question id).url (left + 1 + d)).against answers acts =
      (c.poll (c.question id).url (left + 1)).against answers
        (acts ++ rounds (c.question id) c.pollInterval d) := by
  induction d generalizing acts with
  | zero => rw [rounds, List.replicate_zero, List.flatten_nil, List.append_nil, Nat.add_zero]
  | succ d ih =>
    have hrest : ∀ i, i < d → Pending (c.question id).url (answers
        ((acts ++ [Act.send (c.question id), .pause c.pollInterval]).countP Act.isSend + i)) := by
      intro i hi
      rw [List.countP_append, Nat.add_assoc, Nat.add_comm _ i]
      exact h (i + 1) (Nat.succ_lt_succ hi)
    calc (c.poll (c.question id).url (left + 1 + (d + 1))).against answers acts
        = (c.poll (c.question id).url (left + d + 2)).against answers acts := by
          congr 2; omega
      _ = (c.poll (c.question id).url (left + d + 1)).against answers
            (acts ++ [.send (c.question id), .pause c.pollInterval]) :=
          against_poll_of_pending _ (h 0 (Nat.succ_pos d))
      _ = (c.poll (c.question id).url (left + 1 + d)).against answers
            (acts ++ [.send (c.question id), .pause c.pollInterval]) := by
          congr 2; omega
      _ = _ := by
          rw [ih hrest, List.append_assoc, rounds_succ]
          rfl

/-- The polls come to an end with the first answer that settles the job. -/
theorem against_poll_of_first (left d : Nat) {outcome : Except Error Output}
    (hpending : ∀ i, i < d → Pending (c.question id).url (answers (acts.countP Act.isSend + i)))
    (hsettles : Settles (c.question id).url (answers (acts.countP Act.isSend + d)) outcome) :
    (c.poll (c.question id).url (left + 1 + d)).against answers acts =
      (outcome, acts ++ polls (c.question id) c.pollInterval (d + 1)) := by
  rw [against_poll_after left d hpending, against_poll_of_settles, List.append_assoc, polls_succ]
  rwa [List.countP_append, countP_isSend_rounds]

theorem against_poll_of_none (d : Nat)
    (hpending : ∀ i, i ≤ d → Pending (c.question id).url (answers (acts.countP Act.isSend + i))) :
    (c.poll (c.question id).url (d + 1)).against answers acts =
      (.error (.timeout c.maxAttempts),
        acts ++ polls (c.question id) c.pollInterval (d + 1)) := by
  have hafter := against_poll_after 0 d fun i hi => hpending i (Nat.le_of_lt hi)
  rw [Nat.zero_add, Nat.add_comm 1 d] at hafter
  rw [hafter, against_poll_last, List.append_assoc, polls_succ]
  rw [List.countP_append, countP_isSend_rounds]
  exact hpending d (Nat.le_refl d)

/-! ## Jobs -/

/-- The draft that submits a job. -/
def submission (c : Client) (job : Request) : Draft :=
  ⟨.post, s!"{c.baseUrl}/api/generate", c.apiKey, some (c.body job).compact⟩

variable {job : Request}

/-- After the submission it depends on its answer how a job goes on. -/
theorem against_generate {taken : Except Error String}
    (h : Takes (c.submission job).url (answers 0) taken) :
    (c.generate job).against answers [] =
      (match taken with
        | .ok id => c.poll (c.question id).url c.maxAttempts
        | .error e => .done (.error e)).against answers [.send (c.submission job)] := by
  rw [generate, ask, Dialogue.against_send, ← takes_iff.1 h]
  rfl

/-- The poll with this number is the first one whose answer settles the job. The answer to the
submission has number zero. -/
structure SettlesFirst (url : String) (answers : Nat → Answer) (k : Nat)
    (outcome : Except Error Output) : Prop where
  pos : 1 ≤ k
  pending : ∀ i, 1 ≤ i → i < k → Pending url (answers i)
  settles : Settles url (answers k) outcome

theorem against_generate_of_first (h : Takes (c.submission job).url (answers 0) (.ok id)) {k : Nat}
    {outcome : Except Error Output} (hfirst : SettlesFirst (c.question id).url answers k outcome)
    (hk : k ≤ c.maxAttempts) : (c.generate job).against answers [] =
      (outcome, .send (c.submission job) :: polls (c.question id) c.pollInterval k) := by
  obtain ⟨d, rfl⟩ := Nat.exists_eq_add_of_le hfirst.pos
  obtain ⟨left, hleft⟩ := Nat.exists_eq_add_of_le hk
  rw [against_generate h, hleft, Nat.add_right_comm, Nat.add_comm 1 left,
    against_poll_of_first left d (fun i hi => ?_) hfirst.settles, Nat.add_comm 1 d]
  · rfl
  · exact hfirst.pending (1 + i) (Nat.le_add_right 1 i) (Nat.add_lt_add_left hi 1)

theorem against_generate_of_pending (h : Takes (c.submission job).url (answers 0) (.ok id))
    (hpos : 1 ≤ c.maxAttempts)
    (hpending : ∀ k, 1 ≤ k → k ≤ c.maxAttempts → Pending (c.question id).url (answers k)) :
    (c.generate job).against answers [] = (.error (.timeout c.maxAttempts),
      .send (c.submission job) :: polls (c.question id) c.pollInterval c.maxAttempts) := by
  obtain ⟨d, hd⟩ := Nat.exists_eq_add_of_le' hpos
  have hpending' : ∀ i, i ≤ d → Pending (c.question id).url (answers (1 + i)) := fun i hi =>
    hpending (1 + i) (Nat.le_add_right 1 i) (by omega)
  rw [against_generate h, hd, against_poll_of_none d hpending', hd]
  rfl

/-- The job is submitted once. If the service takes it, there are polls up to the first answer that
settles the job, but not more than there may be. Nothing is asked after that answer, and after the
last poll there is no pause. -/
theorem generate_exact (c : Client) (n : Nat) (job : Request) (answers : Nat → Answer) :
    let c' := c.withMaxAttempts n
    let most := max n 1
    ∃ taken, Takes (c'.submission job).url (answers 0) taken ∧
      (∀ e, taken = .error e → (c'.generate job).against answers [] =
        (.error e, [.send (c'.submission job)])) ∧
      ∀ id, taken = .ok id →
        (∀ k outcome, SettlesFirst (c'.question id).url answers k outcome →
          (c'.generate job).against answers [] =
            (if k ≤ most then outcome else .error (.timeout most),
              .send (c'.submission job) :: polls (c'.question id) c'.pollInterval (min k most))) ∧
        ((∀ k, 1 ≤ k → Pending (c'.question id).url (answers k)) →
          (c'.generate job).against answers [] =
            (.error (.timeout most),
              .send (c'.submission job) :: polls (c'.question id) c'.pollInterval most)) := by
  intro c' most
  have hpos : 1 ≤ c'.maxAttempts := Nat.le_max_right n 1
  refine ⟨_, takes_iff.2 rfl, fun e he => ?_, fun id hid =>
    ⟨fun k outcome hfirst => ?_, fun h => ?_⟩⟩
  · exact against_generate (takes_iff.2 he)
  · by_cases hk : k ≤ most
    · rw [if_pos hk, Nat.min_eq_left hk]
      exact against_generate_of_first (takes_iff.2 hid) hfirst hk
    · rw [if_neg hk, Nat.min_eq_right (Nat.le_of_not_le hk)]
      exact against_generate_of_pending (takes_iff.2 hid) hpos fun i hi hmost =>
        hfirst.pending i hi (Nat.lt_of_le_of_lt hmost (Nat.lt_of_not_le hk))
  · exact against_generate_of_pending (takes_iff.2 hid) hpos fun k hk _ => h k hk

def reply {α : Type} [Codec α] (a : α) : Answer := .ok ⟨200, (encode a).compact⟩

/-- A service that takes a job, is at work on it when it is polled for the first and for the second
time, and has completed it when it is polled for the third time. -/
def thirdTime : Nat → Answer
  | 0 => reply (⟨true, some "7", none⟩ : Receipt)
  | 1 | 2 => reply (⟨"running", none, none, none⟩ : Progress)
  | _ => reply (⟨"completed", some "a.png", none, none⟩ : Progress)

theorem takes_thirdTime : Takes url (thirdTime 0) (.ok "7") :=
  .accepted ⟨true, some "7", none⟩ "7" (.parsed _ _ rfl (by decide +kernel)) rfl rfl

theorem settlesFirst_thirdTime : SettlesFirst url thirdTime 3 (.ok ⟨["a.png"], none⟩) where
  pos := by decide
  pending i hi hlt := by
    have hrunning : thirdTime i = reply (⟨"running", none, none, none⟩ : Progress) := by
      obtain rfl | rfl : i = 1 ∨ i = 2 := by omega
      · rfl
      · rfl
    have hreads : Reads url (reply (⟨"running", none, none, none⟩ : Progress))
        (.ok (⟨"running", none, none, none⟩ : Progress)) := .parsed _ _ rfl (by decide +kernel)
    rw [hrunning, pending_iff, decided?, reads_iff.1 hreads]
    rfl
  settles := by
    have hurls : resultUrls "a.png" = ["a.png"] := by decide +kernel
    rw [← hurls]
    exact .completed ⟨"completed", some "a.png", none, none⟩ (.parsed _ _ rfl (by decide +kernel))
      rfl

/-- The service as it is reached with the settings that a client has from the start. -/
def service : Client := Client.new "http://service/"

def portrait : Request := .plain .image "A portrait" "fast"

/-- The third poll brings the output, if there may be three. -/
theorem generate_exact_thirdTime :
    ((service.withMaxAttempts 3).generate portrait).against thirdTime [] = (.ok ⟨["a.png"], none⟩,
      .send (service.submission portrait) :: polls (service.question "7") 2000 3) ∧
    ((service.withMaxAttempts 2).generate portrait).against thirdTime [] = (.error (.timeout 2),
      .send (service.submission portrait) :: polls (service.question "7") 2000 2) := by
  constructor
  · obtain ⟨taken, htaken, -, hpolls⟩ := generate_exact service 3 portrait thirdTime
    have hid : taken = .ok "7" := (takes_iff.1 htaken).symm.trans (takes_iff.1 takes_thirdTime)
    exact (hpolls "7" hid).1 3 _ settlesFirst_thirdTime
  · obtain ⟨taken, htaken, -, hpolls⟩ := generate_exact service 2 portrait thirdTime
    have hid : taken = .ok "7" := (takes_iff.1 htaken).symm.trans (takes_iff.1 takes_thirdTime)
    exact (hpolls "7" hid).1 3 _ settlesFirst_thirdTime

end Generation.Client

end Patchbay
