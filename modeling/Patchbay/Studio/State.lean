import Patchbay.Graph

/-!
# States of studio nodes

The node types of the studio: what people enter, what is computed from numbers and truth values,
and what the generation service makes. Every field of a state has a default, so a state may be
written with any part of its fields.
-/

namespace Patchbay

open Json

structure TextInput where
  text : String := ""
  images : List String := []
  deriving BEq, ReflBEq, LawfulBEq, Inhabited

namespace TextInput

/-- How many reference images there may be when they are added one by one. -/
def maxImages : Nat := 3

/-- Add a reference image. Nothing if there are as many as may be. -/
def addImage? (t : TextInput) (url : String) : Option TextInput :=
  if t.images.length < maxImages then some { t with images := t.images ++ [url] } else none

instance : Codec TextInput where
  encode t := .object [("text", encode t.text), ("images", encode t.images)]
  decode? d := do
    let r ← d.record? ["text", "images"]
    return ⟨← defaulted? r "text" "", ← defaulted? r "images" []⟩

end TextInput

/-- A file that was uploaded; nothing was as long as the address is empty. -/
structure FileInput where
  name : String := ""
  url : String := ""
  type : String := ""
  size : UInt64 := 0
  deriving BEq, ReflBEq, LawfulBEq, Inhabited

namespace FileInput

def hasFile (f : FileInput) : Bool := !f.url.isEmpty

instance : Codec FileInput where
  encode f := .object [("fileName", encode f.name), ("fileUrl", encode f.url),
    ("fileType", encode f.type), ("fileSize", encode f.size)]
  decode? d := do
    let r ← d.record? ["fileName", "fileUrl", "fileType", "fileSize"]
    return ⟨← defaulted? r "fileName" "", ← defaulted? r "fileUrl" "",
      ← defaulted? r "fileType" "", ← defaulted? r "fileSize" 0⟩

end FileInput

inductive Operator where
  | add
  | subtract
  | multiply
  | divide
  deriving DecidableEq, Repr, Inhabited

namespace Operator

def name : Operator → String
  | .add => "add"
  | .subtract => "subtract"
  | .multiply => "multiply"
  | .divide => "divide"

def all : List Operator := [.add, .subtract, .multiply, .divide]

instance : Codec Operator where
  encode o := .string o.name
  decode? d := d.innerName?.bind fun name => all.find? (·.name == name)

end Operator

/-- An operator with the operands that are used where no input is connected. -/
structure Arithmetic where
  operator : Operator := .add
  a : Float := 0
  b : Float := 0
  deriving BEq, Inhabited

instance : Codec Arithmetic where
  encode s := .object [("operator", encode s.operator), ("a", encode s.a), ("b", encode s.b)]
  decode? d := do
    let r ← d.record? ["operator", "a", "b"]
    return ⟨← defaulted? r "operator" .add, ← defaulted? r "a" 0, ← defaulted? r "b" 0⟩

theorem Arithmetic.beq_iff {a b : Arithmetic} :
    (a == b) = true ↔ a.operator = b.operator ∧ (a.a == b.a) = true ∧ (a.b == b.b) = true := by
  cases a; cases b
  simp [BEq.beq, instBEqArithmetic.beq]

instance : PartialEquivBEq Arithmetic where
  symm h := by
    obtain ⟨ho, ha, hb⟩ := Arithmetic.beq_iff.1 h
    exact Arithmetic.beq_iff.2 ⟨ho.symm, BEq.symm ha, BEq.symm hb⟩
  trans h h' := by
    obtain ⟨ho, ha, hb⟩ := Arithmetic.beq_iff.1 h
    obtain ⟨ho', ha', hb'⟩ := Arithmetic.beq_iff.1 h'
    exact Arithmetic.beq_iff.2 ⟨ho.trans ho', BEq.trans ha ha', BEq.trans hb hb'⟩

/-- How images are to be made, and those made last. -/
structure ImageGeneration where
  model : String := "seedream"
  mode : String := "Auto"
  quantity : UInt32 := 1
  aspectRatio : String := "1:1"
  generated : List String := []
  deriving BEq, ReflBEq, LawfulBEq, Inhabited

instance : Codec ImageGeneration where
  encode s := .object [("model", encode s.model), ("mode", encode s.mode),
    ("quantity", encode s.quantity), ("aspectRatio", encode s.aspectRatio),
    ("generatedImages", encode s.generated)]
  decode? d := do
    let r ← d.record? ["model", "mode", "quantity", "aspectRatio", "generatedImages"]
    return ⟨← defaulted? r "model" "seedream", ← defaulted? r "mode" "Auto",
      ← defaulted? r "quantity" 1, ← defaulted? r "aspectRatio" "1:1",
      ← defaulted? r "generatedImages" []⟩

inductive VideoMode where
  | textToVideo
  | imageToVideo
  deriving DecidableEq, Repr, Inhabited

namespace VideoMode

def name : VideoMode → String
  | .textToVideo => "text-to-video"
  | .imageToVideo => "image-to-video"

instance : Codec VideoMode where
  encode m := .string m.name
  decode? d := d.innerName?.bind fun name =>
    [textToVideo, imageToVideo].find? (·.name == name)

end VideoMode

/-- How a video is to be made, and the one made last. The duration is in seconds, and the address is
empty as long as there is no video. -/
structure VideoGeneration where
  model : String := "runway-gen4"
  mode : VideoMode := .textToVideo
  duration : UInt32 := 5
  aspectRatio : String := "16:9"
  generated : String := ""
  deriving BEq, ReflBEq, LawfulBEq, Inhabited

instance : Codec VideoGeneration where
  encode s := .object [("model", encode s.model), ("mode", encode s.mode),
    ("duration", encode s.duration), ("aspectRatio", encode s.aspectRatio),
    ("generatedVideoUrl", encode s.generated)]
  decode? d := do
    let r ← d.record? ["model", "mode", "duration", "aspectRatio", "generatedVideoUrl"]
    return ⟨← defaulted? r "model" "runway-gen4", ← defaulted? r "mode" .textToVideo,
      ← defaulted? r "duration" 5, ← defaulted? r "aspectRatio" "16:9",
      ← defaulted? r "generatedVideoUrl" ""⟩

/-- How a text is to be written, and the one written last. The prompt is used if no input is
connected. -/
structure TextGeneration where
  model : String := "GPT-4o"
  prompt : String := ""
  temperature : Float := 0.7
  maxTokens : UInt32 := 500
  generated : String := ""
  deriving BEq, Inhabited

instance : Codec TextGeneration where
  encode s := .object [("model", encode s.model), ("prompt", encode s.prompt),
    ("temperature", encode s.temperature), ("maxTokens", encode s.maxTokens),
    ("generatedText", encode s.generated)]
  decode? d := do
    let r ← d.record? ["model", "prompt", "temperature", "maxTokens", "generatedText"]
    return ⟨← defaulted? r "model" "GPT-4o", ← defaulted? r "prompt" "",
      ← defaulted? r "temperature" 0.7, ← defaulted? r "maxTokens" 500,
      ← defaulted? r "generatedText" ""⟩

theorem TextGeneration.beq_iff {a b : TextGeneration} :
    (a == b) = true ↔ a.model = b.model ∧ a.prompt = b.prompt ∧
      (a.temperature == b.temperature) = true ∧ a.maxTokens = b.maxTokens ∧
      a.generated = b.generated := by
  cases a; cases b
  simp [BEq.beq, instBEqTextGeneration.beq]

instance : PartialEquivBEq TextGeneration where
  symm h := by
    obtain ⟨hm, hp, ht, hx, hg⟩ := TextGeneration.beq_iff.1 h
    exact TextGeneration.beq_iff.2 ⟨hm.symm, hp.symm, BEq.symm ht, hx.symm, hg.symm⟩
  trans h h' := by
    obtain ⟨hm, hp, ht, hx, hg⟩ := TextGeneration.beq_iff.1 h
    obtain ⟨hm', hp', ht', hx', hg'⟩ := TextGeneration.beq_iff.1 h'
    exact TextGeneration.beq_iff.2
      ⟨hm.trans hm', hp.trans hp', BEq.trans ht ht', hx.trans hx', hg.trans hg'⟩

inductive StudioNode where
  | textInput (s : TextInput)
  | fileInput (s : FileInput)
  | number (value : Float)
  | arithmetic (s : Arithmetic)
  | conditional
  | imageGeneration (s : ImageGeneration)
  | videoGeneration (s : VideoGeneration)
  | textGeneration (s : TextGeneration)
  deriving BEq, Inhabited

namespace StudioNode

def typeName : StudioNode → String
  | .textInput _ => "textInput"
  | .fileInput _ => "fileInput"
  | .number _ => "number"
  | .arithmetic _ => "arithmetic"
  | .conditional => "conditional"
  | .imageGeneration _ => "imageGeneration"
  | .videoGeneration _ => "videoGeneration"
  | .textGeneration _ => "textGeneration"

def fields : StudioNode → Document
  | .textInput s => encode s
  | .fileInput s => encode s
  | .number value => .object [("value", encode value)]
  | .arithmetic s => encode s
  | .conditional => .object []
  | .imageGeneration s => encode s
  | .videoGeneration s => encode s
  | .textGeneration s => encode s

instance : Codec StudioNode where
  encode s :=
    match s.fields with
    | .object fields => .object (("type", .string s.typeName) :: fields)
    | d => d
  decode? d := do
    let (type, fields) ← d.tagged? "type"
    match type with
    | "textInput" => (decode? fields).map .textInput
    | "fileInput" => (decode? fields).map .fileInput
    | "number" => return .number (← defaulted? (← fields.record? ["value"]) "value" 0)
    | "arithmetic" => (decode? fields).map .arithmetic
    | "conditional" => (fields.record? []).map fun _ => .conditional
    | "imageGeneration" => (decode? fields).map .imageGeneration
    | "videoGeneration" => (decode? fields).map .videoGeneration
    | "textGeneration" => (decode? fields).map .textGeneration
    | _ => none

/-! ## Equality -/

inductive Equal : StudioNode → StudioNode → Prop
  | textInput {x y : TextInput} (h : (x == y) = true) : Equal (.textInput x) (.textInput y)
  | fileInput {x y : FileInput} (h : (x == y) = true) : Equal (.fileInput x) (.fileInput y)
  | number {x y : Float} (h : (x == y) = true) : Equal (.number x) (.number y)
  | arithmetic {x y : Arithmetic} (h : (x == y) = true) : Equal (.arithmetic x) (.arithmetic y)
  | conditional : Equal .conditional .conditional
  | imageGeneration {x y : ImageGeneration} (h : (x == y) = true) :
    Equal (.imageGeneration x) (.imageGeneration y)
  | videoGeneration {x y : VideoGeneration} (h : (x == y) = true) :
    Equal (.videoGeneration x) (.videoGeneration y)
  | textGeneration {x y : TextGeneration} (h : (x == y) = true) :
    Equal (.textGeneration x) (.textGeneration y)

theorem equal_of_beq : ∀ {a b : StudioNode}, (a == b) = true → Equal a b
  | .textInput _, .textInput _, h => .textInput h
  | .fileInput _, .fileInput _, h => .fileInput h
  | .number _, .number _, h => .number h
  | .arithmetic _, .arithmetic _, h => .arithmetic h
  | .conditional, .conditional, _ => .conditional
  | .imageGeneration _, .imageGeneration _, h => .imageGeneration h
  | .videoGeneration _, .videoGeneration _, h => .videoGeneration h
  | .textGeneration _, .textGeneration _, h => .textGeneration h

theorem Equal.beq : ∀ {a b : StudioNode}, Equal a b → (a == b) = true
  | _, _, .textInput h => h
  | _, _, .fileInput h => h
  | _, _, .number h => h
  | _, _, .arithmetic h => h
  | _, _, .conditional => rfl
  | _, _, .imageGeneration h => h
  | _, _, .videoGeneration h => h
  | _, _, .textGeneration h => h

theorem Equal.symm {a b : StudioNode} (h : Equal a b) : Equal b a := by
  cases h with
  | textInput h => exact .textInput (BEq.symm h)
  | fileInput h => exact .fileInput (BEq.symm h)
  | number h => exact .number (BEq.symm h)
  | arithmetic h => exact .arithmetic (BEq.symm h)
  | conditional => exact .conditional
  | imageGeneration h => exact .imageGeneration (BEq.symm h)
  | videoGeneration h => exact .videoGeneration (BEq.symm h)
  | textGeneration h => exact .textGeneration (BEq.symm h)

theorem Equal.trans {a b c : StudioNode} (h : Equal a b) (h' : Equal b c) : Equal a c := by
  cases h with
  | textInput h => cases h' with | textInput h' => exact .textInput (BEq.trans h h')
  | fileInput h => cases h' with | fileInput h' => exact .fileInput (BEq.trans h h')
  | number h => cases h' with | number h' => exact .number (BEq.trans h h')
  | arithmetic h => cases h' with | arithmetic h' => exact .arithmetic (BEq.trans h h')
  | conditional => exact h'
  | imageGeneration h =>
    cases h' with | imageGeneration h' => exact .imageGeneration (BEq.trans h h')
  | videoGeneration h =>
    cases h' with | videoGeneration h' => exact .videoGeneration (BEq.trans h h')
  | textGeneration h =>
    cases h' with | textGeneration h' => exact .textGeneration (BEq.trans h h')

instance : PartialEquivBEq StudioNode where
  symm h := (equal_of_beq h).symm.beq
  trans h h' := ((equal_of_beq h).trans (equal_of_beq h')).beq

instance : NodeState StudioNode where
  typeName := StudioNode.typeName

end StudioNode

end Patchbay
