import Patchbay.Proofs.Origins
import Patchbay.Proofs.Preview
import Patchbay.Proofs.VideoMode
import Patchbay.Proofs.Writable

/-!
# Checked connections carry what is read

A connection is checked when it is made: the kinds of its two ports have to fit. Values carry no
kinds, and a reader tries to make what it needs of any value. Yet along a connection between two
ports of definite kinds the reader always succeeds, and gets back what the producer has put there:
each node type writes what the readers of its kind expect. What is left are the sources for all
kinds. Only conditionals have them, and a conditional needs a truth value, which only another
conditional could bring. So no value ever comes that way, and no computation fails to read.

What is proved here:
  1. `Prompt.ofValue_prompt`, `readNumber_ofFloat`, `readUrls_strings`: what is written reads back.
  2. `Studio.recovers_of_comesTo`: what a node computes reads back at the sinks that it fits.
  3. `Studio.misreads_of_comesTo`: a computation that fails to read fails on one of its inputs.
  4. `Studio.finite_after`: number nodes stay finite.
  5. `World.recovers_after`: what a checked connection carries reads back.
  6. `World.no_choice_after`: no conditional ever brings a value.
  7. `World.checked_connections_decode`: readers succeed in every world that can be reached.
-/

namespace Patchbay

open Json Studio

/-! ## Reading back -/

theorem Prompt.mapM_textOf (images : List String) :
    (images.map Value.string).mapM textOf = .ok images := by
  induction images with
  | nil => rfl
  | cons image rest ih =>
    rw [List.map_cons, List.mapM_cons, ih]
    rfl

/-- The value of a text input reads back as its text and images. -/
theorem Prompt.ofValue_prompt (text : String) (images : List String) :
    ofValue (.ofMembers [("text", .string text), ("images", .strings images)]) =
      .ok ⟨text, images⟩ := by
  have hmembers : Value.ofMembers [("text", .string text), ("images", .strings images)] =
      .object [("images", .strings images), ("text", .string text)] := by
    have horder : compare "images" "text" = .lt := by decide
    simp [Value.ofMembers, Dict.ofList, Dict.insert, Dict.put, Dict.empty, horder]
  rw [hmembers]
  show (do
    let images ← (images.map Value.string).mapM textOf
    let text ← Except.ok text
    return (⟨text, images⟩ : Prompt)) = _
  rw [mapM_textOf]
  rfl

theorem readNumber_ofFloat {x : Float} (h : x.isFinite = true) (port : PortId) :
    readNumber (.ofFloat x) port = .ok x := by
  have hvalue : Value.ofFloat x = .number (.float x h) := by
    rw [Value.ofFloat, Number.ofFloat?, dif_pos h]
    rfl
  rw [hvalue]
  rfl

theorem readUrls_strings (urls : List String) : readUrls (.strings urls) = urls := by
  show (urls.map Value.string).filterMap Value.toString? = urls
  rw [List.filterMap_map]
  exact List.filterMap_some

namespace Studio

/-! ## What computations come to -/

/-- What a job node comes to: the end that its request came to, or what it makes of a job, or the
failure of the job. -/
theorem comesTo_submit {request : Except Failure Generation.Request}
    {outputs : Generation.Output → Except Failure Outputs} {result : Except Failure Outputs}
    (h : (submit request outputs).ComesTo result) :
    (∃ cause, request = .error cause ∧ result = .error cause) ∨
      (∃ o, result = outputs o) ∨ ∃ e, result = .error (.generation e) := by
  cases request with
  | error cause => exact .inl ⟨cause, rfl, Computation.comesTo_done h⟩
  | ok request =>
    cases h with
    | goes _ c hgoes hc =>
      -- The outcome may be held back for a permit, and then comes all the same.
      obtain ⟨outcome, hc⟩ : ∃ outcome, Computation.ComesTo result (.done (match outcome with
          | Except.ok o => outputs o
          | .error e => .error (.generation e))) := by
        cases hgoes with
        | answered _ _ outcome => exact ⟨outcome, hc⟩
        | heldBack _ _ outcome =>
          cases hc with
          | goes _ c hgoes hc =>
            cases hgoes
            exact ⟨outcome, hc⟩
      cases outcome with
      | ok o => exact .inr (.inl ⟨o, Computation.comesTo_done hc⟩)
      | error e => exact .inr (.inr ⟨e, Computation.comesTo_done hc⟩)

theorem exists_of_submit {request : Except Failure Generation.Request}
    {outputs : Generation.Output → Except Failure Outputs} {result : Outputs}
    (h : (submit request outputs).ComesTo (.ok result)) : ∃ o, outputs o = .ok result := by
  rcases comesTo_submit h with ⟨cause, -, hcause⟩ | ⟨o, ho⟩ | ⟨e, he⟩
  · cases hcause
  · exact ⟨o, ho.symm⟩
  · cases he

theorem eq_of_value?_single {port port' : PortId} {v v' : Value}
    (h : (Outputs.single port v).value? port' = some v') : v' = v := by
  rw [Outputs.value?, Outputs.single, Outputs.withValue, Dict.get?_insert] at h
  split at h
  · exact (Option.some.inj h).symm
  · cases h

/-- Only finite results are numbers, and without one the operands are to blame. -/
theorem apply_cases (operator : Operator) (a b : Float) :
    (∃ x, apply operator a b = .ok x ∧ x.isFinite = true) ∨
      apply operator a b = .error .notFinite ∨ apply operator a b = .error .divisionByZero := by
  have hcheck : ∀ x : Float, (∃ y, (if x.isFinite = true then Except.ok x else
      .error Failure.notFinite) = .ok y ∧ y.isFinite = true) ∨
      (if x.isFinite = true then Except.ok x else .error Failure.notFinite) =
        .error .notFinite := by
    intro x
    split
    · rename_i hx
      exact .inl ⟨x, rfl, hx⟩
    · exact .inr rfl
  cases operator with
  | divide =>
    simp only [apply]
    split
    · exact .inr (.inr rfl)
    · exact (hcheck (a / b)).imp_right .inl
  | add => exact (hcheck (a + b)).imp_right .inl
  | subtract => exact (hcheck (a - b)).imp_right .inl
  | multiply => exact (hcheck (a * b)).imp_right .inl

theorem exists_of_calculate {context : Context StudioNode} {o : Outputs}
    (h : calculate context = .ok o) :
    ∃ x : Float, x.isFinite = true ∧ o = .single "output" (.ofFloat x) := by
  unfold calculate at h
  split at h
  · rename_i s _
    obtain ⟨a, -, h⟩ := exists_of_bind_eq_ok h
    obtain ⟨b, -, h⟩ := exists_of_bind_eq_ok h
    obtain ⟨x, hx, h⟩ := exists_of_bind_eq_ok h
    cases h
    rcases apply_cases s.operator a b with ⟨y, hy, hfinite⟩ | herror | herror
    · rw [hx] at hy
      cases hy
      exact ⟨x, hfinite, rfl⟩
    · rw [hx] at herror
      cases herror
    · rw [hx] at herror
      cases herror
  · cases h

/-- What the readers of this kind make of a value that this computation has brought: what was put
there. -/
def Recovers (context : Context StudioNode) (kind : DataKind) (port : PortId) (v : Value) : Prop :=
  match context.state, kind with
  | .textInput s, .prompt => Prompt.ofValue v = .ok ⟨s.text, s.images⟩
  | .textGeneration _, .prompt => ∃ text, v = .string text ∧ Prompt.ofValue v = .ok ⟨text, []⟩
  | .number x, .number => readNumber v port = .ok x
  | .arithmetic _, .number => ∃ x, calculate context = .ok (.single "output" (.ofFloat x)) ∧
      readNumber v port = .ok x
  | .imageGeneration _, .imageList => ∃ urls, v = .strings urls ∧ readUrls v = urls
  | .videoGeneration _, .video => ∃ url, v = .string url ∧ v.toString? = some url
  | _, _ => False

def sourceKind : StudioNode → DataKind
  | .textInput _ => .prompt
  | .fileInput _ => .file
  | .number _ | .arithmetic _ => .number
  | .conditional => .any
  | .imageGeneration _ => .imageList
  | .videoGeneration _ => .video
  | .textGeneration _ => .text

theorem kinds_of_ports (s : StudioNode) :
    ∀ x ∈ ((definitionOf s).ports s).map fun p => (p.direction, p.kind),
      (x.1 = .source → x.2 = sourceKind s) ∧ (x.1 = .sink → x.2 ≠ .text ∧ x.2 ≠ .file) := by
  cases s <;>
    simp [definitionOf, textInput, fileInput, number, arithmetic, conditional, imageGeneration,
      videoGeneration, textGeneration, Port.source, Port.sink, Port.needed, sourceKind]

theorem kind_of_source {s : StudioNode} {p : Port} (hp : p ∈ (definitionOf s).ports s)
    (hdirection : p.direction = .source) : p.kind = sourceKind s :=
  (kinds_of_ports s _ (List.mem_map_of_mem hp)).1 hdirection

theorem kind_of_sink {s : StudioNode} {p : Port} (hp : p ∈ (definitionOf s).ports s)
    (hdirection : p.direction = .sink) : p.kind ≠ .text ∧ p.kind ≠ .file :=
  (kinds_of_ports s _ (List.mem_map_of_mem hp)).2 hdirection

theorem sourceKind_congr {s t : StudioNode} (h : s.typeName = t.typeName) :
    sourceKind s = sourceKind t := by
  cases s <;> cases t <;> first | rfl | simp [StudioNode.typeName] at h

/-- The sinks of definite kinds that fit a definite source are for its kind, or are prompts that a
text fits. -/
theorem kind_of_fits {kind kind' : DataKind} (hkind : kind ≠ .any) (hkind' : kind' ≠ .any)
    (hfits : kind.fits kind' = true) (hsink : kind' ≠ .text ∧ kind' ≠ .file) :
    kind' = (if kind = .text then .prompt else kind) ∧ kind ≠ .file := by
  cases kind <;> cases kind' <;> simp_all [DataKind.fits]

/-- What a node computes reads back at every sink of a definite kind that fits. -/
theorem recovers_of_comesTo {context : Context StudioNode} {outputs : Outputs}
    {port port' : PortId} {v : Value} {kind : DataKind}
    (hfinite : ∀ x, context.state = .number x → x.isFinite = true)
    (h : ((definitionOf context.state).compute context).ComesTo (.ok outputs))
    (hv : outputs.value? port = some v) (hsource : sourceKind context.state ≠ .any)
    (hkind : kind = (if sourceKind context.state = .text then .prompt
      else sourceKind context.state))
    (hfile : sourceKind context.state ≠ .file) : Recovers context kind port' v := by
  obtain ⟨id, state, inputs⟩ := context
  cases state with
  | textInput s =>
    cases Computation.comesTo_done h
    rw [eq_of_value?_single hv, hkind]
    exact Prompt.ofValue_prompt s.text s.images
  | fileInput s => exact absurd rfl hfile
  | number x =>
    cases Computation.comesTo_done h
    rw [eq_of_value?_single hv, hkind]
    exact readNumber_ofFloat (hfinite x rfl) port'
  | arithmetic s =>
    have hresult := (Computation.comesTo_done h).symm
    obtain ⟨x, hx, rfl⟩ := exists_of_calculate hresult
    rw [eq_of_value?_single hv, hkind]
    exact ⟨x, hresult, readNumber_ofFloat hx port'⟩
  | conditional => exact absurd rfl hsource
  | imageGeneration s =>
    obtain ⟨o, ho⟩ := exists_of_submit h
    split at ho
    · cases ho
    · cases ho
      rw [eq_of_value?_single hv, hkind]
      exact ⟨o.urls, rfl, readUrls_strings o.urls⟩
  | videoGeneration s =>
    obtain ⟨o, ho⟩ := exists_of_submit h
    split at ho
    · cases ho
    · rename_i url rest _
      cases ho
      rw [eq_of_value?_single hv, hkind]
      exact ⟨url, rfl, rfl⟩
  | textGeneration s =>
    obtain ⟨o, ho⟩ := exists_of_submit h
    split at ho
    · rename_i text _
      cases ho
      rw [eq_of_value?_single hv, hkind]
      exact ⟨text, rfl, rfl⟩
    · cases ho

end Studio

/-- Whether the failure says that a value could not be read as a prompt or a number. -/
def Failure.isMisreading : Failure → Bool
  | .notNumber _ | .notPrompt _ | .badPrompt _ _ => true
  | _ => false

namespace Studio

/-! ## Failures to read -/

/-- The reader of a sink of this kind fails on the value for this reason. -/
def Misreads (kind : DataKind) (port : PortId) (v : Value) (cause : Failure) : Prop :=
  (kind = .prompt ∧ Prompt.ofValue v = .error cause) ∨
    (kind = .number ∧ readNumber v port = .error cause)

theorem Recovers.not_misreads {context : Context StudioNode} {kind : DataKind} {port : PortId}
    {v : Value} (h : Recovers context kind port v) (cause : Failure) :
    ¬ Misreads kind port v cause := by
  unfold Recovers at h
  rintro (⟨rfl, hprompt⟩ | ⟨rfl, hnumber⟩)
  · split at h <;> simp_all
  · split at h <;> simp_all

/-- A step of a computation that fails: the first part of it, or what follows. -/
theorem cases_of_bind_eq_error {ε α β : Type} {x : Except ε α} {f : α → Except ε β} {err : ε}
    (h : x >>= f = .error err) : x = .error err ∨ ∃ a, x = .ok a ∧ f a = .error err := by
  cases x with
  | error cause =>
    cases h
    exact .inl rfl
  | ok a => exact .inr ⟨a, rfl, h⟩

section

variable {c : Context StudioNode} {cause : Failure}

theorem missing_of_input {port : PortId} (h : c.input port = .error cause) :
    cause.isMisreading = false := by
  unfold Context.input at h
  split at h
  · cases h
  · cases h
    rfl

theorem input?_of_input {port : PortId} {v : Value} (h : c.input port = .ok v) :
    c.inputs.get? port = some v := by
  unfold Context.input at h
  split at h
  · rename_i w hw
    cases h
    exact hw
  · cases h

theorem misread_of_operand {port : PortId} {own : Float} (h : operand c port own = .error cause) :
    ∃ v, c.inputs.get? port = some v ∧ readNumber v port = .error cause := by
  unfold operand at h
  split at h
  · rename_i v hv
    exact ⟨v, hv, h⟩
  · cases h

theorem misread_of_calculate (h : calculate c = .error cause) (hcause : cause.isMisreading = true) :
    ∃ port v, (port = "a" ∨ port = "b") ∧ c.inputs.get? port = some v ∧
      readNumber v port = .error cause := by
  unfold calculate at h
  split at h
  · rename_i s _
    rcases cases_of_bind_eq_error h with ha | ⟨a, -, h⟩
    · obtain ⟨v, hv, hread⟩ := misread_of_operand ha
      exact ⟨"a", v, .inl rfl, hv, hread⟩
    rcases cases_of_bind_eq_error h with hb | ⟨b, -, h⟩
    · obtain ⟨v, hv, hread⟩ := misread_of_operand hb
      exact ⟨"b", v, .inr rfl, hv, hread⟩
    rcases cases_of_bind_eq_error h with hx | ⟨x, -, h⟩
    · rcases apply_cases s.operator a b with ⟨y, hy, -⟩ | herror | herror <;> rw [hx] at *
      · cases hy
      · cases herror
        cases hcause
      · cases herror
        cases hcause
    · cases h
  · cases h
    cases hcause

theorem isMisreading_of_choose (h : choose c = .error cause) : cause.isMisreading = false := by
  rcases cases_of_bind_eq_error h with hinput | ⟨v, -, h⟩
  · exact missing_of_input hinput
  rcases cases_of_bind_eq_error h with htruth | ⟨truth, -, h⟩
  · unfold readTruth at htruth
    split at htruth
    · cases htruth
    · cases htruth
      rfl
  rcases cases_of_bind_eq_error h with hinput | ⟨w, -, h⟩
  · exact missing_of_input hinput
  · cases h

theorem eq_of_check {α : Type} {cond : Prop} [Decidable cond] {reason : Failure}
    {next : PUnit → Except Failure α}
    (h : (if cond then throw reason >>= next else next ⟨⟩) = .error cause)
    (hnext : ∀ err, next ⟨⟩ ≠ .error err) : cause = reason := by
  split at h
  · cases h
    rfl
  · exact absurd h (hnext cause)

theorem misread_of_imageRequest (h : imageRequest c = .error cause)
    (hcause : cause.isMisreading = true) :
    ∃ v, c.inputs.get? "prompt" = some v ∧ Prompt.ofValue v = .error cause := by
  unfold imageRequest at h
  split at h
  · rcases cases_of_bind_eq_error h with hinput | ⟨v, hv, h⟩
    · rw [missing_of_input hinput] at hcause
      cases hcause
    rcases cases_of_bind_eq_error h with hprompt | ⟨prompt, -, h⟩
    · exact ⟨v, input?_of_input hv, hprompt⟩
    · rw [eq_of_check h fun err => by dsimp only; split <;> exact nofun] at hcause
      cases hcause
  · cases h
    cases hcause

theorem misread_of_videoRequest (h : videoRequest c = .error cause)
    (hcause : cause.isMisreading = true) :
    ∃ v, c.inputs.get? "prompt" = some v ∧ Prompt.ofValue v = .error cause := by
  unfold videoRequest at h
  split at h
  · dsimp only at h
    split at h
    · rename_i v hv
      rcases cases_of_bind_eq_error h with hprompt | ⟨prompt, -, h⟩
      · exact ⟨v, hv, hprompt⟩
      · rw [eq_of_check h fun err => nofun] at hcause
        cases hcause
    · rcases cases_of_bind_eq_error h with hnone | ⟨prompt, -, h⟩
      · cases hnone
      · rw [eq_of_check h fun err => nofun] at hcause
        cases hcause
  · cases h
    cases hcause

theorem misread_of_textRequest (h : textRequest c = .error cause)
    (hcause : cause.isMisreading = true) :
    ∃ v, c.inputs.get? "input" = some v ∧ Prompt.ofValue v = .error cause := by
  unfold textRequest at h
  split at h
  · dsimp only at h
    split at h
    · rename_i v hv
      rcases cases_of_bind_eq_error h with hprompt | ⟨prompt, -, h⟩
      · refine ⟨v, hv, ?_⟩
        cases hread : Prompt.ofValue v with
        | ok p =>
          rw [hread] at hprompt
          cases hprompt
        | error cause' =>
          rw [hread] at hprompt
          cases hprompt
          rfl
      · rw [eq_of_check h fun err => nofun] at hcause
        cases hcause
    · rcases cases_of_bind_eq_error h with hnone | ⟨prompt, -, h⟩
      · cases hnone
      · rw [eq_of_check h fun err => nofun] at hcause
        cases hcause
  · cases h
    cases hcause

/-- A job node fails to read where it puts its request together. -/
theorem request_of_misreading {request : Except Failure Generation.Request}
    {outputs : Generation.Output → Except Failure Outputs}
    (h : (submit request outputs).ComesTo (.error cause)) (hcause : cause.isMisreading = true)
    (houtputs : ∀ o cause, outputs o = .error cause → cause.isMisreading = false) :
    request = .error cause := by
  rcases comesTo_submit h with ⟨_, hrequest, hsame⟩ | ⟨o, ho⟩ | ⟨e, he⟩
  · cases hsame
    exact hrequest
  · rw [houtputs o cause ho.symm] at hcause
    cases hcause
  · cases he
    cases hcause

/-- A computation that fails to read fails on what came to one of its sinks, in the way in which
readers of the kind of that sink do. -/
theorem misreads_of_comesTo
    (h : ((definitionOf c.state).compute c).ComesTo (.error cause))
    (hcause : cause.isMisreading = true) :
    ∃ q ∈ (definitionOf c.state).ports c.state, ∃ v, c.inputs.get? q.id = some v ∧
      Misreads q.kind q.id v cause := by
  obtain ⟨id, state, inputs⟩ := c
  cases state with
  | textInput s => cases Computation.comesTo_done h
  | fileInput s =>
    have hresult := Computation.comesTo_done h
    dsimp only at hresult
    split at hresult
    · cases hresult
    · cases hresult
      cases hcause
  | number x => cases Computation.comesTo_done h
  | arithmetic s =>
    obtain ⟨port, v, hport, hv, hread⟩ :=
      misread_of_calculate (Computation.comesTo_done h).symm hcause
    rcases hport with rfl | rfl
    · exact ⟨_, List.mem_cons_self, v, hv, .inr ⟨rfl, hread⟩⟩
    · exact ⟨_, List.mem_cons_of_mem _ List.mem_cons_self, v, hv, .inr ⟨rfl, hread⟩⟩
  | conditional =>
    rw [isMisreading_of_choose (Computation.comesTo_done h).symm] at hcause
    cases hcause
  | imageGeneration s =>
    have hrequest := request_of_misreading h hcause fun o _ ho => by
      split at ho <;> cases ho
      rfl
    obtain ⟨v, hv, hread⟩ := misread_of_imageRequest hrequest hcause
    exact ⟨_, List.mem_cons_self, v, hv, .inl ⟨rfl, hread⟩⟩
  | videoGeneration s =>
    have hrequest := request_of_misreading h hcause fun o _ ho => by
      split at ho <;> cases ho
      rfl
    obtain ⟨v, hv, hread⟩ := misread_of_videoRequest hrequest hcause
    exact ⟨_, List.mem_cons_self, v, hv, .inl ⟨rfl, hread⟩⟩
  | textGeneration s =>
    have hrequest := request_of_misreading h hcause fun o _ ho => by
      split at ho <;> cases ho
      rfl
    obtain ⟨v, hv, hread⟩ := misread_of_textRequest hrequest hcause
    exact ⟨_, List.mem_cons_self, v, hv, .inl ⟨rfl, hread⟩⟩

end

end Studio

/-! ## Finite numbers -/

def StudioNode.number? : StudioNode → Option Float
  | .number x => some x
  | _ => none

/-- The move puts only finite numbers into number nodes. -/
def Move.KeepsFinite : Move StudioNode → Prop
  | .createWith _ (.number x) => x.isFinite = true
  | .update _ edit => ∀ x y, x.isFinite = true → edit (.number x) = .number y → y.isFinite = true
  | _ => True

namespace Studio

def Finite (g : Graph StudioNode) : Prop :=
  ∀ id n x, g.node? id = some n → n.state.number? = some x → x.isFinite = true

theorem number?_isSome {s : StudioNode} : s.number?.isSome = true ↔ s.typeName = "number" := by
  cases s <;> simp [StudioNode.number?, StudioNode.typeName]

theorem eq_of_number? {s : StudioNode} {x : Float} (h : s.number? = some x) : s = .number x := by
  cases s with
  | number y =>
    cases h
    rfl
  | _ => cases h

/-- What keeps the type, and number nodes as they are, keeps the numbers. -/
theorem number?_congr {s t : StudioNode} (htype : t.typeName = s.typeName)
    (hnumber : ∀ x, s = .number x → t = s) : t.number? = s.number? := by
  cases s with
  | number x => rw [hnumber x rfl]
  | _ =>
    refine Option.eq_none_iff_forall_ne_some.2 fun x hx => ?_
    have hthere := number?_isSome.1 (Option.isSome_of_eq_some hx)
    rw [htype] at hthere
    simp [StudioNode.typeName] at hthere

theorem number?_applyResult (s : StudioNode) (outputs : Outputs) :
    ((definitionOf s).applyResult s outputs).number? = s.number? :=
  number?_congr (steady_registry.result _ s outputs (of?_registry s)).type fun x hx => by
    rw [hx]
    rfl

theorem number?_call (connected : Bool) (port : PortId) (s : StudioNode) :
    (registry.call connected port s).number? = s.number? := by
  rw [Registry.call, of?_registry, Option.elim_some]
  refine number?_congr (steady_registry.hook _ s connected port (of?_registry s)).type fun x hx => ?_
  rw [hx]
  cases connected <;> rfl

theorem number?_calls (id : NodeId) (s : StudioNode) (calls : List Call) :
    (registry.calls id s calls).number? = s.number? := by
  induction calls generalizing s with
  | nil => rfl
  | cons call rest ih =>
    rw [Registry.calls_cons, ih]
    split
    · exact number?_call _ _ s
    · rfl

theorem finite_default {type : String} {s : StudioNode} (h : registry.defaultState type = .ok s)
    {x : Float} (hx : s.number? = some x) : x.isFinite = true := by
  obtain ⟨d, hd, rfl⟩ := exists_of_defaultState h
  have hall : ∀ d ∈ definitions, d.defaultState.number?.all Float.isFinite = true := by
    decide +kernel
  have hfinite := hall d hd
  rwa [hx] at hfinite

variable {w : World StudioNode}

theorem finite_next (h : Sound registry w.engine w.frames) {m : Move StudioNode}
    (hrestore : m.isRestore = false) (hm : m.KeepsFinite) (hfinite : Finite w.engine.graph) :
    Finite (w.next m).engine.graph := by
  intro id n' x hn' hx
  cases hn : w.engine.graph.node? id with
  | none =>
    rcases (World.new_next hrestore hn hn').2 with ⟨type, rfl, hdefault⟩ | rfl
    · rw [h.registry] at hdefault
      exact finite_default hdefault hx
    · cases hstate : n'.state with
      | number y =>
        rw [hstate] at hm hx
        cases hx
        exact hm
      | _ =>
        rw [hstate] at hx
        cases hx
  | some n =>
    obtain ⟨calls, hmirrors⟩ := World.mirrors_next h.whole.wiring h.whole.anchored hrestore
    rw [hmirrors.states id n n' hn hn', h.registry, number?_calls] at hx
    rcases World.write_cases steady_registry h m hn with hsame | ⟨edit, rfl, htype, hedit⟩ |
      ⟨d, outputs, hd, hresult⟩
    · rw [hsame] at hx
      exact hfinite id n x hn hx
    · rw [hedit] at hx
      have hnumber := number?_isSome.1 (Option.isSome_of_eq_some hx)
      obtain ⟨y, hy⟩ := Option.isSome_iff_exists.1 (number?_isSome.2 (htype.symm.trans hnumber))
      have hold := eq_of_number? hy
      rw [hold] at hx
      exact hm y x (hfinite id n y hn hy) (eq_of_number? hx)
    · rw [of?_registry] at hd
      cases hd
      rw [hresult, number?_applyResult] at hx
      exact hfinite id n x hn hx

theorem finite_after (p : Policy) {moves : List (Move StudioNode)}
    (hmoves : ∀ m ∈ moves, m.isRestore = false ∧ m.KeepsFinite) :
    Finite (World.after registry p moves).engine.graph := by
  induction moves using List.reverseRecOn with
  | nil => exact fun id n x hn => nomatch hn
  | append_singleton moves m ih =>
    rw [World.after_concat]
    obtain ⟨hmoves, hm⟩ := List.forall_mem_append.1 hmoves
    obtain ⟨hrestore, hkeeps⟩ := hm m List.mem_cons_self
    exact finite_next (World.sound_after steady_registry p moves) hrestore hkeeps (ih hmoves)

end Studio

/-! ## Checked connections -/

namespace World

variable {p : Policy} {moves : List (Move StudioNode)}

omit p moves in
theorem eq_of_hasPort {g : Graph StudioNode} {ref : PortRef} {q q' : Port}
    (h : g.HasPort registry ref q) (h' : g.HasPort registry ref q') : q = q' := by
  obtain ⟨n, d, hn, hd, hq⟩ := h
  obtain ⟨n', d', hn', hd', hq'⟩ := h'
  rw [hn] at hn'
  cases hn'
  rw [hd] at hd'
  cases hd'
  rw [hq] at hq'
  exact Option.some.inj hq'

theorem mem_ports_of_hasPort {g : Graph StudioNode} {ref : PortRef} {q : Port}
    (h : g.HasPort registry ref q) {n : Node StudioNode} (hn : g.node? ref.node = some n) :
    q ∈ (definitionOf n.state).ports n.state := by
  obtain ⟨n', d, hn', hd, hq⟩ := h
  rw [hn] at hn'
  cases hn'
  rw [of?_registry] at hd
  cases hd
  exact (Definition.mem_of_port? hq).1

/-- A computation is of the type of the state that it was given. -/
theorem definition_of_begins {d : Definition StudioNode} {context : Context StudioNode}
    (h : (after registry p moves).Begins d context) : d = definitionOf context.state := by
  have hd := h.definition
  rw [registry_after, of?_registry] at hd
  exact (Option.some.inj hd).symm

/-- A computation was given a finite number, if it was given one. -/
theorem finite_of_begins (hmoves : ∀ m ∈ moves, m.isRestore = false ∧ m.KeepsFinite)
    {d : Definition StudioNode} {context : Context StudioNode}
    (h : (after registry p moves).Begins d context) {x : Float}
    (hx : context.state = .number x) : x.isFinite = true := by
  obtain ⟨n, hn, hstate⟩ := h.node
  refine finite_after p hmoves _ n x hn ?_
  rw [hstate, hx]
  rfl

/-- A connection leads from a source to a sink, and their kinds fit. -/
theorem fits_after {c : Connection} (hc : c ∈ (after registry p moves).engine.connections)
    {source sink : Port} (hsource : (after registry p moves).engine.graph.HasPort registry c.source
      source) (hsink : (after registry p moves).engine.graph.HasPort registry c.sink sink) :
    source.direction = .source ∧ sink.direction = .sink ∧ source.kind.fits sink.kind = true := by
  obtain ⟨q, q', hq, hq', hdirection, hdirection', hfits⟩ :=
    (sound_after steady_registry p moves).whole.joined c (Wiring.mem_connections.1 hc)
  obtain rfl := eq_of_hasPort hsource hq
  obtain rfl := eq_of_hasPort hsink hq'
  exact ⟨hdirection, hdirection', hfits kindsSteady_registry⟩

theorem recovers_after (hmoves : ∀ m ∈ moves, m.isRestore = false ∧ m.KeepsFinite)
    (hhonest : (new registry p).Honest moves) {c : Connection}
    (hc : c ∈ (after registry p moves).engine.connections) {source sink : Port}
    (hsource : (after registry p moves).engine.graph.HasPort registry c.source source)
    (hsink : (after registry p moves).engine.graph.HasPort registry c.sink sink)
    (hdefinite : source.kind ≠ .any ∧ sink.kind ≠ .any) {n : Node StudioNode}
    (hn : (after registry p moves).engine.graph.node? c.source.node = some n) {v : Value}
    (hv : n.outputs.value? c.source.port = some v) :
    ∃ a ∈ (after registry p moves).answers, a.context.node = c.source.node ∧
      (∃ outputs, a.result = .ok outputs ∧ outputs.value? c.source.port = some v) ∧
      Recovers a.context sink.kind c.sink.port v := by
  obtain ⟨hdirection, hdirection', hfits⟩ := fits_after hc hsource hsink
  obtain ⟨n', d', hn', hd', -⟩ := id hsink
  -- Where the value is from: an answer of the producer, from a computation that began earlier.
  obtain ⟨a, ha, hnode, htype, outputs, hresult, hvalue⟩ :=
    recorded_after steady_registry (fun m hm => (hmoves m hm).1) c.source.node n hn _ v hv
  obtain ⟨⟨earlier, hearlier, hbegins⟩, hcomes⟩ := (traced_after hhonest).answers a ha
  rw [definition_of_begins hbegins, hresult] at hcomes
  have hfinite := fun x => finite_of_begins (x := x)
    (fun m hm => hmoves m (hearlier.subset hm)) hbegins
  have hkind : source.kind = sourceKind a.context.state :=
    (kind_of_source (mem_ports_of_hasPort hsource hn) hdirection).trans
      (sourceKind_congr htype).symm
  rw [hkind] at hdefinite hfits
  obtain ⟨hsame, hfile⟩ := kind_of_fits hdefinite.1 hdefinite.2 hfits
    (kind_of_sink (mem_ports_of_hasPort hsink hn') hdirection')
  exact ⟨a, ha, hnode, ⟨outputs, hresult, hvalue⟩,
    recovers_of_comesTo hfinite hcomes hvalue hdefinite.1 hsame hfile⟩

omit p moves in
/-- What a computation read at a sink stood on the source of a connection to that sink. -/
theorem exists_source {w : World StudioNode} (h : Sound registry w.engine w.frames)
    {context : Context StudioNode} (hbegins : w.Begins (definitionOf context.state) context)
    {q : Port} (hq : q ∈ (definitionOf context.state).ports context.state) {v : Value}
    (hv : context.inputs.get? q.id = some v) :
    ∃ c ∈ w.engine.connections, (∃ source, w.engine.graph.HasPort registry c.source source) ∧
      c.sink.port = q.id ∧ w.engine.graph.HasPort registry c.sink q ∧
      ∃ u, w.engine.graph.node? c.source.node = some u ∧
        u.outputs.value? c.source.port = some v := by
  obtain ⟨⟨n, hn, hstate⟩, hd, hinputs⟩ := hbegins
  rw [h.registry] at hd
  rw [← hstate] at hd hinputs hq
  have hread := Graph.get?_of_resolve h.whole hn hd hinputs q.id
  cases hs : w.engine.graph.wiring.producerOf ⟨context.node, q.id⟩ with
  | none =>
    rw [hs, hv] at hread
    cases hread
  | some ref =>
    rw [hs, hv] at hread
    obtain ⟨v', hfresh, hsame⟩ := hread
    cases hsame
    obtain ⟨u, hu, -, hvalue⟩ := Graph.freshValue?_eq_some.1 hfresh
    obtain ⟨source, sink, hsource, hsink, -⟩ := h.whole.joined ⟨ref, ⟨context.node, q.id⟩⟩ hs
    refine ⟨⟨ref, ⟨context.node, q.id⟩⟩, Wiring.mem_connections.2 hs, ⟨source, hsource⟩, rfl, ?_,
      u, hu, hvalue⟩
    -- The port that the sink means is the one that was read: no two have one identity.
    obtain ⟨n', d', hn', hd', hport⟩ := id hsink
    obtain rfl : n = n' := Option.some.inj (hn.symm.trans hn')
    obtain rfl := Option.some.inj (hd.symm.trans hd')
    obtain ⟨hmem, hid⟩ := Definition.mem_of_port? hport
    obtain rfl := List.inj_on_of_nodup_map (distinct_registry n.state _ hd) hmem hq hid
    exact hsink

/-! ## Sources for all kinds -/

omit p moves in
theorem state_of_sourceKind {s : StudioNode} (h : sourceKind s = .any) : s = .conditional := by
  cases s <;> first | rfl | cases h

/-- A conditional that begins to compute and comes to outputs reads its condition from another
conditional, which has brought a value before: there are no other sources of truth values. -/
theorem exists_choice (hmoves : ∀ m ∈ moves, m.isRestore = false) {context : Context StudioNode}
    (hbegins : (after registry p moves).Begins (definitionOf context.state) context)
    (hkind : sourceKind context.state = .any) {outputs : Outputs}
    (hcomes : ((definitionOf context.state).compute context).ComesTo (.ok outputs)) :
    ∃ a ∈ (after registry p moves).answers, sourceKind a.context.state = .any ∧
      ∃ outputs, a.result = .ok outputs := by
  have hs := state_of_sourceKind hkind
  have hchoose : choose context = .ok outputs := by
    rw [hs] at hcomes
    exact (Computation.comesTo_done hcomes).symm
  obtain ⟨v, hv, -⟩ := exists_of_bind_eq_ok hchoose
  have hq : (Port.sink "condition" .boolean 0 (row 0.5)).needed ∈
      (definitionOf context.state).ports context.state := by
    rw [hs]
    exact List.mem_cons_self
  obtain ⟨c, hc, ⟨source, hsource⟩, -, hsink, u, hu, hvalue⟩ :=
    exists_source (sound_after steady_registry p moves) hbegins hq (input?_of_input hv)
  obtain ⟨hdirection, -, hfits⟩ := fits_after hc hsource hsink
  obtain ⟨a, ha, -, htype, outputs, hresult, -⟩ :=
    recorded_after steady_registry hmoves c.source.node u hu _ v hvalue
  refine ⟨a, ha, ?_, outputs, hresult⟩
  rw [kind_of_source (mem_ports_of_hasPort hsource hu) hdirection,
    ← sourceKind_congr htype] at hfits
  revert hfits
  cases a.context.state <;> first | exact fun _ => rfl | exact nofun

/-- No conditional has ever brought a value: the first to do so would have read its condition from
another. -/
theorem no_choice_after (hmoves : ∀ m ∈ moves, m.isRestore = false)
    (hhonest : (new registry p).Honest moves) {earlier : List (Move StudioNode)}
    (hearlier : earlier <+: moves) :
    ∀ a ∈ (after registry p earlier).answers, sourceKind a.context.state = .any →
      ∀ outputs, a.result ≠ .ok outputs := by
  induction moves using List.reverseRecOn generalizing earlier with
  | nil =>
    rw [List.prefix_nil.1 hearlier]
    exact fun a ha => nomatch ha
  | append_singleton moves m ih =>
    have hbefore := (honest_earlier hhonest).1
    have ih := @ih (fun m hm => hmoves m (List.mem_append_left _ hm)) hbefore
    rcases List.prefix_concat_iff.1 hearlier with rfl | hearlier
    · intro a ha hkind outputs hresult
      rw [after_concat] at ha
      rcases answers_next ha with hold | ⟨id, run, epoch, hmem⟩
      · exact ih (List.prefix_refl _) a hold hkind outputs hresult
      obtain ⟨⟨start, hstart, hbegins⟩, hcomes⟩ := (traced_after hbefore).levels _ _ _ _ _ _ hmem
      have hdefinition := definition_of_begins hbegins
      have hcomes := hcomes _ .done
      rw [hdefinition, hresult] at hcomes
      rw [hdefinition] at hbegins
      obtain ⟨a', ha', hkind', outputs', hresult'⟩ := exists_choice
        (fun m hm => hmoves m (List.mem_append_left _ (hstart.subset hm))) hbegins hkind hcomes
      exact ih hstart a' ha' hkind' outputs' hresult'
    · exact ih hearlier

theorem definite_of_value (hmoves : ∀ m ∈ moves, m.isRestore = false)
    (hhonest : (new registry p).Honest moves) {ref : PortRef} {source : Port}
    (hsource : (after registry p moves).engine.graph.HasPort registry ref source)
    (hdirection : source.direction = .source) {n : Node StudioNode}
    (hn : (after registry p moves).engine.graph.node? ref.node = some n) {v : Value}
    (hv : n.outputs.value? ref.port = some v) : source.kind ≠ .any := by
  obtain ⟨a, ha, -, htype, outputs, hresult, -⟩ :=
    recorded_after steady_registry hmoves ref.node n hn _ v hv
  rw [kind_of_source (mem_ports_of_hasPort hsource hn) hdirection, ← sourceKind_congr htype]
  exact fun hkind => no_choice_after hmoves hhonest (List.prefix_refl _) a ha hkind outputs hresult

/-! ## What is read -/

theorem not_misreads_of_begins (hmoves : ∀ m ∈ moves, m.isRestore = false ∧ m.KeepsFinite)
    (hhonest : (new registry p).Honest moves) {context : Context StudioNode}
    (hbegins : (after registry p moves).Begins (definitionOf context.state) context)
    {q : Port} (hq : q ∈ (definitionOf context.state).ports context.state) {v : Value}
    (hv : context.inputs.get? q.id = some v) (cause : Failure) :
    ¬ Misreads q.kind q.id v cause := by
  intro hmisreads
  obtain ⟨c, hc, ⟨source, hsource⟩, hport, hsink, u, hu, hvalue⟩ :=
    exists_source (sound_after steady_registry p moves) hbegins hq hv
  have hkind : q.kind ≠ .any := by
    rcases hmisreads with ⟨hkind, -⟩ | ⟨hkind, -⟩ <;> rw [hkind] <;> nofun
  have hdefinite := definite_of_value (fun m hm => (hmoves m hm).1) hhonest hsource
    (fits_after hc hsource hsink).1 hu hvalue
  obtain ⟨a, -, -, -, hrecovers⟩ :=
    recovers_after hmoves hhonest hc hsource hsink ⟨hdefinite, hkind⟩ hu hvalue
  rw [hport] at hrecovers
  exact hrecovers.not_misreads cause hmisreads

/-- Along a checked connection, whose two ports have definite kinds, the reader gets back what the
producer has put there, for as long as the value stands there. And no computation ever fails to read
a prompt or a number. This holds whatever the jobs brought, as long as nothing was restored and
number nodes were given finite numbers. -/
theorem checked_connections_decode
    (hmoves : ∀ m ∈ moves, m.isRestore = false ∧ m.KeepsFinite)
    (hhonest : (new registry p).Honest moves) :
    (∀ c ∈ (after registry p moves).engine.connections, ∀ source sink,
      (after registry p moves).engine.graph.HasPort registry c.source source →
      (after registry p moves).engine.graph.HasPort registry c.sink sink →
      source.kind ≠ .any ∧ sink.kind ≠ .any →
      ∀ n v, (after registry p moves).engine.graph.node? c.source.node = some n →
        n.outputs.value? c.source.port = some v →
        ∃ a ∈ (after registry p moves).answers, a.context.node = c.source.node ∧
          (∃ outputs, a.result = .ok outputs ∧ outputs.value? c.source.port = some v) ∧
          Recovers a.context sink.kind c.sink.port v) ∧
    ∀ a ∈ (after registry p moves).answers, ∀ cause, a.result = .error cause →
      cause.isMisreading = false := by
  refine ⟨fun c hc source sink hsource hsink hdefinite n v hn hv =>
    recovers_after hmoves hhonest hc hsource hsink hdefinite hn hv, fun a ha cause hresult => ?_⟩
  obtain ⟨⟨earlier, ⟨later, rfl⟩, hbegins⟩, hcomes⟩ := (traced_after hhonest).answers a ha
  have hdefinition := definition_of_begins hbegins
  rw [hdefinition, hresult] at hcomes
  rw [hdefinition] at hbegins
  refine Bool.eq_false_iff.2 fun hcause => ?_
  obtain ⟨q, hq, v, hv, hmisreads⟩ := misreads_of_comesTo hcomes hcause
  exact not_misreads_of_begins (fun m hm => hmoves m (List.mem_append_left _ hm))
    (honest_append.1 hhonest).1 hbegins hq hv cause hmisreads

end World

namespace Studio

/-- The text of the text node comes to the image node as it was written, and nothing failed to be
read on the way. -/
theorem checked_connections_decode_illustrating :
    let w := World.after registry {} illustrating
    (∃ n v, w.engine.graph.node? "t" = some n ∧ n.outputs.value? "output" = some v ∧
      Prompt.ofValue v = .ok ⟨"a cat", []⟩) ∧
    w.answers.length = 2 ∧
    ∀ a ∈ w.answers, ∀ cause, a.result = .error cause → cause.isMisreading = false := by
  intro w
  have hmoves : ∀ m ∈ illustrating, m.isRestore = false ∧ m.KeepsFinite := by
    simp [illustrating, asking, Move.isRestore, Move.KeepsFinite]
  have h := World.checked_connections_decode hmoves honest_illustrating
  obtain ⟨hlength, hconnected, hports, hvalue, hstates⟩ : w.answers.length = 2 ∧
      w.engine.graph.wiring.producerOf ⟨"g", "prompt"⟩ = some ⟨"t", "output"⟩ ∧
      (∀ ref ∈ ([⟨"t", "output"⟩, ⟨"g", "prompt"⟩] : List PortRef),
        ((w.engine.graph.node? ref.node).all fun n => (registry.of? n.state).all fun d =>
          (d.port? n.state ref.port).all fun q => q.kind == .prompt) = true) ∧
      ((w.engine.graph.node? "t").any fun n => (n.outputs.value? "output").isSome) = true ∧
      ∀ a ∈ w.answers, a.context.node = "t" →
        (a.context.state == .textInput { text := "a cat" }) = true := by
    decide +kernel
  refine ⟨?_, hlength, h.2⟩
  have hkinds : ∀ ref ∈ ([⟨"t", "output"⟩, ⟨"g", "prompt"⟩] : List PortRef),
      ∀ source, w.engine.graph.HasPort registry ref source → source.kind = .prompt := by
    rintro ref href source ⟨n, d, hn, hd, hq⟩
    have hsame := hports ref href
    rw [hn, Option.all_some, hd, Option.all_some, hq, Option.all_some] at hsame
    exact eq_of_beq hsame
  obtain ⟨source, sink, hsource, hsink, -⟩ := (World.sound_after steady_registry {}
    illustrating).whole.joined ⟨⟨"t", "output"⟩, ⟨"g", "prompt"⟩⟩ hconnected
  obtain ⟨n, hn, hv⟩ := (Option.any_eq_true _ _).1 hvalue
  obtain ⟨v, hv⟩ := Option.isSome_iff_exists.1 hv
  have hprompt := hkinds _ List.mem_cons_self source hsource
  have hprompt' := hkinds _ (List.mem_cons_of_mem _ List.mem_cons_self) sink hsink
  obtain ⟨a, ha, hnode, -, hrecovers⟩ := h.1 _ (Wiring.mem_connections.2 hconnected) source sink
    hsource hsink (by rw [hprompt, hprompt']; decide) n v hn hv
  refine ⟨n, v, hn, hv, ?_⟩
  have hequal := StudioNode.equal_of_beq (hstates a ha hnode)
  unfold Recovers at hrecovers
  generalize a.context.state = state at hrecovers hequal
  rw [hprompt'] at hrecovers
  cases hequal with
  | textInput h =>
    obtain rfl := eq_of_beq h
    exact hrecovers

end Studio

end Patchbay
