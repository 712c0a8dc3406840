import Patchbay.Proofs.Recursion

/-!
# Functional node types of the studio

Text, files, numbers, arithmetic and choice: these nodes are executed on demand, and what they
compute depends on nothing but their state and their inputs. Equal inputs may differ in the sign
of a zero; none of these computations turns that into a difference, as no quotient with a zero
divisor is formed.

What is proved here: `functional_plain`, the registry of these types is functional.
-/

namespace Patchbay

open Json

/-! ## Results -/

/-- The same failure, or two results that belong together. -/
inductive Coincide {α : Type} (R : α → α → Prop) : Except Failure α → Except Failure α → Prop
  | error (cause : Failure) : Coincide R (.error cause) (.error cause)
  | ok {a b : α} (h : R a b) : Coincide R (.ok a) (.ok b)

namespace Coincide

variable {α β : Type} {R : α → α → Prop} {S : β → β → Prop}

theorem refl (hR : ∀ a, R a a) (x : Except Failure α) : Coincide R x x := by
  cases x with
  | error cause => exact .error cause
  | ok a => exact .ok (hR a)

theorem bind {x y : Except Failure α} {f g : α → Except Failure β} (h : Coincide R x y)
    (hf : ∀ a b, R a b → Coincide S (f a) (g b)) : Coincide S (x >>= f) (y >>= g) := by
  cases h with
  | error cause => exact .error cause
  | ok h => exact hf _ _ h

theorem agrees {x y : Except Failure Outputs} (id : NodeId)
    (h : Coincide (fun a b => (a == b) = true) x y) :
    Ending.Agrees (.ofResult id x) (.ofResult id y) := by
  cases h with
  | error cause => exact .refl _
  | ok h => exact .completed _ _ h

end Coincide

/-! ## Values -/

namespace Json.Value

theorem beq_ofFloat {a b : Float} (h : Double.Near a b) : (ofFloat a == ofFloat b) = true := by
  by_cases ha : a.isFinite = true
  · have hb : b.isFinite = true := h.isFinite_eq ▸ ha
    rw [ofFloat, ofFloat, Number.ofFloat?, Number.ofFloat?, dif_pos ha, dif_pos hb]
    exact h.beq ha
  · have hb : ¬ b.isFinite = true := h.isFinite_eq ▸ ha
    rw [ofFloat, ofFloat, Number.ofFloat?, Number.ofFloat?, dif_neg ha, dif_neg hb]
    rfl

theorem coincide_readNumber (port : PortId) : ∀ {v w : Value}, v.beq w = true →
    Coincide Double.Near (readNumber v port) (readNumber w port)
  | .null, .null, _ | .bool _, .bool _, _ | .string _, .string _, _ | .array _, .array _, _
  | .object _, .object _, _ => .error _
  | .number (.int x), .number (.int y), h => by
    obtain rfl : x = y := by simpa using (show (x == y) = true from h)
    exact .ok (.refl _)
  | .number (.float x _), .number (.float y _), h => .ok (Double.near_of_beq h)

theorem coincide_readTruth (port : PortId) : ∀ {v w : Value}, v.beq w = true →
    Coincide (· = ·) (readTruth v port) (readTruth w port)
  | .null, .null, _ | .number _, .number _, _ | .string _, .string _, _ | .array _, .array _, _
  | .object _, .object _, _ => .error _
  | .bool a, .bool b, h => .ok (by simpa using (show (a == b) = true from h))

end Json.Value

theorem Outputs.beq_single {v w : Value} (port : PortId) (h : (v == w) = true) :
    (single port v == single port w) = true :=
  Dict.beq_insert BEq.rfl port h

theorem Outputs.beq_withStop {a b : Outputs} (port : PortId) (h : (a == b) = true) :
    (a.withStop port == b.withStop port) = true :=
  Dict.beq_insert h port BEq.rfl

/-! ## Computations -/

/-- What a computation may look at is equal. -/
structure Context.Matches {σ : Type} [NodeState σ] (c c' : Context σ) : Prop where
  node : c.node = c'.node
  state : Alike c.state c'.state
  inputs : (c.inputs == c'.inputs) = true

namespace Studio

variable {c c' : Context StudioNode}

theorem beq_input? (h : c.Matches c') (port : PortId) :
    (c.input? port == c'.input? port) = true :=
  Dict.beq_iff.1 h.inputs port

theorem coincide_input (h : c.Matches c') (port : PortId) :
    Coincide (fun v w : Value => (v == w) = true) (c.input port) (c'.input port) := by
  have hinput := beq_input? h port
  rw [Context.input, Context.input]
  revert hinput
  cases c.input? port with
  | none =>
    cases c'.input? port with
    | none =>
      rw [h.node]
      exact fun _ => .error _
    | some w => exact nofun
  | some v =>
    cases c'.input? port with
    | none => exact nofun
    | some w => exact fun hinput => .ok hinput

theorem coincide_operand (h : c.Matches c') (port : PortId) {own own' : Float}
    (hown : Double.Near own own') :
    Coincide Double.Near (operand c port own) (operand c' port own') := by
  have hinput := beq_input? h port
  rw [operand, operand]
  revert hinput
  cases c.input? port with
  | none =>
    cases c'.input? port with
    | none => exact fun _ => .ok hown
    | some w => exact nofun
  | some v =>
    cases c'.input? port with
    | none => exact nofun
    | some w => exact fun hinput => Value.coincide_readNumber port hinput

theorem coincide_apply (operator : Operator) {a b a' b' : Float} (ha : Double.Near a a')
    (hb : Double.Near b b') : Coincide Double.Near (apply operator a b) (apply operator a' b') := by
  have hfinite : ∀ {x y : Float}, Double.Near x y →
      Coincide Double.Near (if x.isFinite then .ok x else .error .notFinite)
        (if y.isFinite then .ok y else .error .notFinite) := by
    intro x y h
    rw [h.isFinite_eq]
    split
    · exact .ok h
    · exact .error _
  cases operator with
  | add => exact hfinite (ha.add hb)
  | subtract => exact hfinite (ha.sub hb)
  | multiply => exact hfinite (ha.mul hb)
  | divide =>
    simp only [apply]
    rw [← hb.beq_zero]
    split
    · exact .error _
    · rename_i hzero
      exact hfinite (ha.div hb (by simpa using hzero))

theorem coincide_calculate {s t : Arithmetic} (h : c.Matches c') (hs : c.state = .arithmetic s)
    (ht : c'.state = .arithmetic t) (hoperator : s.operator = t.operator)
    (ha : Double.Near s.a t.a) (hb : Double.Near s.b t.b) :
    Coincide (fun x y : Outputs => (x == y) = true) (calculate c) (calculate c') := by
  simp only [calculate, hs, ht]
  apply (coincide_operand h "a" ha).bind
  intro a a' ha
  apply (coincide_operand h "b" hb).bind
  intro b b' hb
  rw [hoperator]
  apply (coincide_apply t.operator ha hb).bind
  intro x y hxy
  exact .ok (Outputs.beq_single "output" (Value.beq_ofFloat hxy))

theorem coincide_choose (h : c.Matches c') :
    Coincide (fun x y : Outputs => (x == y) = true) (choose c) (choose c') := by
  rw [choose, choose]
  apply (coincide_input h "condition").bind
  intro v w hvw
  apply (Value.coincide_readTruth "condition" hvw).bind
  intro x y hxy
  subst hxy
  refine (coincide_input h "value").bind fun v w hvw => .ok ?_
  split
  · exact Outputs.beq_withStop "falseOut" (Outputs.beq_single "trueOut" hvw)
  · exact Outputs.beq_withStop "trueOut" (Outputs.beq_single "falseOut" hvw)

/-! ## The node types -/

def plain : List String := ["textInput", "fileInput", "number", "arithmetic", "conditional"]

inductive IsPlain : StudioNode → Prop
  | textInput (s : TextInput) : IsPlain (.textInput s)
  | fileInput (s : FileInput) : IsPlain (.fileInput s)
  | number (x : Float) : IsPlain (.number x)
  | arithmetic (s : Arithmetic) : IsPlain (.arithmetic s)
  | conditional : IsPlain .conditional

theorem isPlain_of_mem {s : StudioNode} (h : s.typeName ∈ plain) : IsPlain s := by
  cases s with
  | textInput s => exact .textInput s
  | fileInput s => exact .fileInput s
  | number x => exact .number x
  | arithmetic s => exact .arithmetic s
  | conditional => exact .conditional
  | imageGeneration | videoGeneration | textGeneration =>
    simp only [StudioNode.typeName] at h
    exact absurd h (by decide)

theorem exists_of_mem_plain {type : String} (h : type ∈ plain) :
    ∃ s : StudioNode, s.typeName = type := by
  have hall : ∀ type ∈ plain, type ∈ [StudioNode.textInput {}, .fileInput {}, .number 0,
      .arithmetic {}, .conditional].map StudioNode.typeName := by decide
  obtain ⟨s, -, hs⟩ := List.mem_map.1 (hall type h)
  exact ⟨s, hs⟩

/-- A plain node computes at once, and the same from what is equal. -/
theorem coincide_compute (hplain : IsPlain c.state) :
    ∃ result, (definitionOf c.state).compute c = .done result ∧ ∀ c' : Context StudioNode,
      c.Matches c' → ∃ result', (definitionOf c.state).compute c' = .done result' ∧
        Coincide (fun x y : Outputs => (x == y) = true) result result' := by
  -- A state with NaN in it does not equal itself, so there are two ways to be alike.
  have halike : ∀ {c' : Context StudioNode}, c.Matches c' →
      c'.state = c.state ∨ StudioNode.Equal c.state c'.state := fun h =>
    h.state.imp Eq.symm StudioNode.equal_of_beq
  obtain ⟨id, s, inputs⟩ := c
  cases hplain with
  | textInput s =>
    refine ⟨_, rfl, fun c' h => ⟨_, rfl, ?_⟩⟩
    have hstate : c'.state = .textInput s := by
      rcases halike h with heq | hequal
      · exact heq
      · generalize c'.state = t at hequal
        cases hequal with | textInput h => rw [eq_of_beq h]
    simp only [hstate]
    exact .refl (fun _ => BEq.rfl) _
  | fileInput s =>
    refine ⟨_, rfl, fun c' h => ⟨_, rfl, ?_⟩⟩
    have hstate : c'.state = .fileInput s := by
      rcases halike h with heq | hequal
      · exact heq
      · generalize c'.state = t at hequal
        cases hequal with | fileInput h => rw [eq_of_beq h]
    simp only [hstate]
    exact .refl (fun _ => BEq.rfl) _
  | number x =>
    refine ⟨_, rfl, fun c' h => ⟨_, rfl, ?_⟩⟩
    obtain ⟨y, hstate, hxy⟩ : ∃ y, c'.state = .number y ∧ Double.Near x y := by
      rcases halike h with heq | hequal
      · exact ⟨x, heq, .refl x⟩
      · generalize c'.state = t at hequal
        cases hequal with | number h => exact ⟨_, rfl, Double.near_of_beq h⟩
    simp only [hstate]
    exact .ok (Outputs.beq_single "output" (Value.beq_ofFloat hxy))
  | arithmetic s =>
    refine ⟨_, rfl, fun c' h => ⟨_, rfl, ?_⟩⟩
    obtain ⟨t, hstate, hoperator, ha, hb⟩ : ∃ t, c'.state = .arithmetic t ∧
        s.operator = t.operator ∧ Double.Near s.a t.a ∧ Double.Near s.b t.b := by
      rcases halike h with heq | hequal
      · exact ⟨s, heq, rfl, .refl _, .refl _⟩
      · generalize c'.state = t at hequal
        cases hequal with
        | arithmetic h =>
          obtain ⟨hoperator, ha, hb⟩ := Arithmetic.beq_iff.1 h
          exact ⟨_, rfl, hoperator, Double.near_of_beq ha, Double.near_of_beq hb⟩
    exact coincide_calculate h rfl hstate hoperator ha hb
  | conditional => exact ⟨_, rfl, fun c' h => ⟨_, rfl, coincide_choose h⟩⟩

end Studio

namespace Registry

variable {σ : Type} [NodeState σ] {r : Registry σ} {types : List String}

theorem of?_restrict {s : σ} {d : Definition σ} :
    (r.restrict types).of? s = some d ↔ r.of? s = some d ∧ NodeState.typeName s ∈ types := by
  rw [of?, restrict, Dict.get?_filter_eq_some, of?, List.contains_iff_mem]

theorem Steady.restrict (hr : r.Steady) (types : List String) : (r.restrict types).Steady := by
  have hshape : ∀ {s t : σ}, r.SameShape s t → (r.restrict types).SameShape s t := fun h =>
    ⟨h.type, fun d hd => h.ports d (of?_restrict.1 hd).1⟩
  exact {
    direction := fun d s t id p q hd => hr.direction d s t id p q (of?_restrict.1 hd).1
    hook := fun d s connected port hd =>
      hshape (hr.hook d s connected port (of?_restrict.1 hd).1)
    result := fun d s outputs hd => hshape (hr.result d s outputs (of?_restrict.1 hd).1)
    equal := fun s t h => hshape (hr.equal s t h) }

end Registry

namespace Studio

theorem of?_plain {s : StudioNode} {d : Definition StudioNode}
    (h : (registry.restrict plain).of? s = some d) :
    d = definitionOf s ∧ IsPlain s := by
  obtain ⟨hd, hplain⟩ := Registry.of?_restrict.1 h
  rw [of?_registry] at hd
  exact ⟨(Option.some.inj hd).symm, isPlain_of_mem hplain⟩

theorem functional_plain : (registry.restrict plain).Functional where
  steady := steady_registry.restrict plain
  reactive type d hd := by
    obtain ⟨-, hplain⟩ := Dict.get?_filter_eq_some.1 hd
    obtain ⟨s, rfl⟩ := exists_of_mem_plain (by simpa using hplain)
    obtain ⟨rfl, hplain⟩ := of?_plain hd
    cases hplain <;> rfl
  total d c hd := by
    obtain ⟨rfl, hplain⟩ := of?_plain hd
    obtain ⟨result, hresult, -⟩ := coincide_compute hplain
    exact ⟨result, hresult⟩
  respects d c c' result result' hd hnode hstate hinputs hresult hresult' := by
    obtain ⟨rfl, hplain⟩ := of?_plain hd
    obtain ⟨own, hown, hother⟩ := coincide_compute hplain
    obtain ⟨other, hother, hcoincide⟩ := hother c' ⟨hnode, hstate, hinputs⟩
    rw [hown] at hresult
    rw [hother] at hresult'
    cases hresult
    cases hresult'
    exact hcoincide.agrees c.node
  result d s outputs hd := by
    obtain ⟨rfl, hplain⟩ := of?_plain hd
    cases hplain <;> rfl

end Studio

end Patchbay
