import Patchbay.Json.Number

/-!
# JSON tokens

The lexical grammar. `Token.scan?` reads a whole text; a text with a part that is no token has
no tokens. A string that holds half of a surrogate pair and a number beyond every double are
tokens without a value.

Each token takes at least one character (`next?_length`), which is why the scan ends.
-/

namespace Patchbay.Json

/-- A lexical unit of a JSON text; a literal comes with what it denotes, if anything. -/
inductive Token where
  | openArray
  | closeArray
  | openObject
  | closeObject
  | comma
  | colon
  | null
  | bool (value : Bool)
  | number (value : Option Number)
  | string (value : Option String)

namespace Token

def isBlank (c : Char) : Bool := c == ' ' || c == '\n' || c == '\t' || c == '\r'

def hexValue? (c : Char) : Option Nat :=
  let n := c.toNat
  if 48 ≤ n && n ≤ 57 then some (n - 48)
  else if 97 ≤ n && n ≤ 102 then some (n - 87)
  else if 65 ≤ n && n ≤ 70 then some (n - 55)
  else none

/-- The code unit that four hexadecimal digits denote. -/
def codeUnit? (a b c d : Char) : Option Nat := do
  return ((← hexValue? a) * 16 + (← hexValue? b)) * 256
    + ((← hexValue? c) * 16 + (← hexValue? d))

def escape? : Char → Option Char
  | '"' => some '"'
  | '\\' => some '\\'
  | '/' => some '/'
  | 'b' => some '\x08'
  | 'f' => some '\x0c'
  | 'n' => some '\n'
  | 'r' => some '\r'
  | 't' => some '\t'
  | _ => none

/-- The rest of a string literal after its opening quote, as code units: a character outside
of an escape is one unit whatever its size. -/
def stringUnits? : List Char → Option (List Nat × List Char)
  | [] => none
  | '"' :: rest => some ([], rest)
  | '\\' :: 'u' :: a :: b :: c :: d :: rest =>
    match codeUnit? a b c d, stringUnits? rest with
    | some unit, some (units, rest) => some (unit :: units, rest)
    | _, _ => none
  | '\\' :: e :: rest =>
    match escape? e, stringUnits? rest with
    | some c, some (units, rest) => some (c.toNat :: units, rest)
    | _, _ => none
  | c :: rest =>
    if c.toNat < 0x20 then none
    else match stringUnits? rest with
      | some (units, rest) => some (c.toNat :: units, rest)
      | none => none

/-- The characters of a list of code units; nothing if a surrogate stands without its other
half. -/
def joinUnits? : List Nat → Option (List Char)
  | [] => some []
  | u :: rest =>
    if 0xD800 ≤ u && u < 0xDC00 then
      match rest with
      | v :: rest =>
        if 0xDC00 ≤ v && v < 0xE000 then
          (joinUnits? rest).map (Char.ofNat (0x10000 + (u - 0xD800) * 0x400 + (v - 0xDC00)) :: ·)
        else none
      | [] => none
    else if 0xDC00 ≤ u && u < 0xE000 then none
    else (joinUnits? rest).map (Char.ofNat u :: ·)

def digits (cs : List Char) : List Char × List Char :=
  (cs.takeWhile Char.isDigit, cs.dropWhile Char.isDigit)

def fraction? : List Char → Option (Option (List Char) × List Char)
  | '.' :: rest =>
    let (ds, rest) := digits rest
    if ds.isEmpty then none else some (some ds, rest)
  | rest => some (none, rest)

def exponentDigits? (negative : Bool) (cs : List Char) :
    Option (Option (Bool × List Char) × List Char) :=
  let (ds, rest) := digits cs
  if ds.isEmpty then none else some (some (negative, ds), rest)

def exponent? : List Char → Option (Option (Bool × List Char) × List Char)
  | c :: rest =>
    if c == 'e' || c == 'E' then
      match rest with
      | '+' :: rest => exponentDigits? false rest
      | '-' :: rest => exponentDigits? true rest
      | rest => exponentDigits? false rest
    else some (none, c :: rest)
  | [] => some (none, [])

/-- A number literal after its sign. Only zero itself starts with a zero. -/
def unsigned? (negative : Bool) (cs : List Char) : Option (NumberLiteral × List Char) :=
  let (whole, rest) := digits cs
  match whole with
  | [] => none
  | '0' :: _ :: _ => none
  | whole =>
    match fraction? rest with
    | none => none
    | some (fraction, rest) =>
      match exponent? rest with
      | none => none
      | some (exponent, rest) => some (⟨negative, whole, fraction, exponent⟩, rest)

/-- The first token of a text that starts with one. -/
def next? : List Char → Option (Token × List Char)
  | '[' :: rest => some (.openArray, rest)
  | ']' :: rest => some (.closeArray, rest)
  | '{' :: rest => some (.openObject, rest)
  | '}' :: rest => some (.closeObject, rest)
  | ',' :: rest => some (.comma, rest)
  | ':' :: rest => some (.colon, rest)
  | 'n' :: 'u' :: 'l' :: 'l' :: rest => some (.null, rest)
  | 't' :: 'r' :: 'u' :: 'e' :: rest => some (.bool true, rest)
  | 'f' :: 'a' :: 'l' :: 's' :: 'e' :: rest => some (.bool false, rest)
  | '"' :: rest =>
    match stringUnits? rest with
    | some (units, rest) => some (.string ((joinUnits? units).map String.ofList), rest)
    | none => none
  | '-' :: rest =>
    match unsigned? true rest with
    | some (literal, rest) => some (.number literal.value?, rest)
    | none => none
  | cs =>
    match unsigned? false cs with
    | some (literal, rest) => some (.number literal.value?, rest)
    | none => none

/-! ## Every token takes at least one character -/

theorem stringUnits?_length {cs rest : List Char} {units : List Nat}
    (h : stringUnits? cs = some (units, rest)) : rest.length < cs.length := by
  fun_induction stringUnits? cs generalizing units rest
  case case1 => cases h
  all_goals simp only [List.length_cons]
  all_goals grind

theorem digits_length (cs : List Char) :
    (digits cs).1.length + (digits cs).2.length = cs.length := by
  rw [digits, ← List.length_append, List.takeWhile_append_dropWhile]

theorem fraction?_length {cs rest : List Char} {f : Option (List Char)}
    (h : fraction? cs = some (f, rest)) : rest.length ≤ cs.length := by
  unfold fraction? at h
  grind [digits_length]

theorem exponentDigits?_length {negative : Bool} {cs rest : List Char}
    {e : Option (Bool × List Char)} (h : exponentDigits? negative cs = some (e, rest)) :
    rest.length ≤ cs.length := by
  unfold exponentDigits? at h
  grind [digits_length]

theorem exponent?_length {cs rest : List Char} {e : Option (Bool × List Char)}
    (h : exponent? cs = some (e, rest)) : rest.length ≤ cs.length := by
  unfold exponent? at h
  split at h
  · simp only [List.length_cons]
    split at h
    · split at h <;> have := exponentDigits?_length h <;> grind
    · grind
  · grind

theorem unsigned?_length {negative : Bool} {cs rest : List Char} {l : NumberLiteral}
    (h : unsigned? negative cs = some (l, rest)) : rest.length < cs.length := by
  have hlen := digits_length cs
  unfold unsigned? at h
  split at h
  rename_i whole after hd
  rw [hd] at hlen
  split at h
  · cases h
  · cases h
  · rename_i hne _
    have hpos : 0 < whole.length := List.length_pos_iff.2 hne
    simp only at hlen
    split at h
    · cases h
    · rename_i hf
      have := fraction?_length hf
      split at h
      · cases h
      · rename_i he
        have := exponent?_length he
        cases h
        omega

theorem next?_length {cs rest : List Char} {t : Token} (h : next? cs = some (t, rest)) :
    rest.length < cs.length := by
  unfold next? at h
  split at h
  case h_10 =>
    split at h
    · rename_i hs
      have := stringUnits?_length hs
      cases h
      simp only [List.length_cons]
      omega
    · cases h
  case h_11 =>
    split at h
    · rename_i hs
      have := unsigned?_length hs
      cases h
      simp only [List.length_cons]
      omega
    · cases h
  case h_12 =>
    split at h
    · rename_i hs
      have := unsigned?_length hs
      cases h
      exact this
    · cases h
  all_goals
    cases h
    simp only [List.length_cons]
    omega

def scan? : List Char → Option (List Token)
  | [] => some []
  | c :: cs =>
    if isBlank c then scan? cs
    else
      match _h : next? (c :: cs) with
      | none => none
      | some (t, rest) => (scan? rest).map (t :: ·)
termination_by cs => cs.length
decreasing_by
  · simp
  · exact next?_length _h

end Token

end Patchbay.Json
