import Patchbay.Http.Message

/-!
# Messages on the wire

A request as the bytes that are sent, and a response from the bytes that came until the
connection was closed. A response is whole if its length is told and all of it is there, or if it
came in chunks up to the last, or if nothing is told of its length.
-/

namespace Patchbay.Http

/-- The text that sends a request over a connection of its own. -/
def Request.text (r : Request) : String :=
  let head := [s!"{r.method.name} {r.url.target} HTTP/1.1", s!"Host: {r.url.authority}",
    "Accept: */*", "Connection: close"]
    ++ (r.apiKey.map fun key => s!"X-API-Key: {key}").toList
    ++ match r.body with
      | some body => ["Content-Type: application/json", s!"Content-Length: {body.utf8ByteSize}"]
      | none => []
  "\r\n".intercalate head ++ "\r\n\r\n" ++ r.body.getD ""

/-! ## Responses -/

/-- Bytes up to the end of a line, and those after it; nothing if no line ends. -/
def splitLine : List UInt8 → Option (List UInt8 × List UInt8)
  | [] => none
  | 13 :: 10 :: rest => some ([], rest)
  | b :: rest => (splitLine rest).map fun (line, after) => (b :: line, after)

theorem length_splitLine {l line rest : List UInt8} (h : splitLine l = some (line, rest)) :
    rest.length < l.length := by
  fun_induction splitLine l generalizing line with
  | case1 => cases h
  | case2 => cases h; simp only [List.length_cons]; omega
  | case3 b bs _ ih =>
    cases hs : splitLine bs with
    | none => simp [hs] at h
    | some p =>
      obtain ⟨first, after⟩ := p
      simp only [hs, Option.map_some, Option.some.injEq, Prod.mk.injEq] at h
      obtain ⟨_, rfl⟩ := h
      exact Nat.lt_succ_of_lt (ih hs)

def byteChar (b : UInt8) : Char := Char.ofNat b.toNat

def lineText (line : List UInt8) : String := String.ofList (line.map byteChar)

/-- The lines of a head, which an empty line ends, and what comes after it. -/
def splitHead (l : List UInt8) : Option (List String × List UInt8) :=
  match h : splitLine l with
  | none => none
  | some ([], rest) => some ([], rest)
  | some (line, rest) =>
    have := length_splitLine h
    (splitHead rest).map fun (lines, after) => (lineText line :: lines, after)
termination_by l.length

def trimmed (l : List Char) : List Char :=
  ((l.dropWhile (· == ' ')).reverse.dropWhile (· == ' ')).reverse

/-- The header that a line writes: its name in small letters, and its value. -/
def header (line : String) : String × String :=
  let name := line.toList.takeWhile (· != ':')
  ((String.ofList name).toLower, String.ofList (trimmed (line.toList.drop (name.length + 1))))

def hexNat? (digits : List Char) : Option Nat :=
  if digits.isEmpty then none
  else digits.foldlM (fun n c =>
    if c.isDigit then some (16 * n + (c.toNat - 48))
    else if 'a' ≤ c && c ≤ 'f' then some (16 * n + (c.toNat - 87))
    else if 'A' ≤ c && c ≤ 'F' then some (16 * n + (c.toNat - 55))
    else none) 0

/-- What came in chunks, each with its length in front; the last one has the length zero. -/
def chunks? (l : List UInt8) : Option (List UInt8) :=
  match h : splitLine l with
  | none => none
  | some (line, rest) =>
    match hexNat? (trimmed ((line.map byteChar).takeWhile (· != ';'))) with
    | none => none
    | some 0 => some []
    | some size =>
      have := length_splitLine h
      if rest.length < size + 2 then none
      else (chunks? (rest.drop (size + 2))).map (rest.take size ++ ·)
termination_by l.length
decreasing_by simp only [List.length_drop]; omega

def body? (headers : List (String × String)) (l : List UInt8) : Option (List UInt8) :=
  match List.lookup "transfer-encoding" headers, List.lookup "content-length" headers with
  | some _, _ => chunks? l
  | none, some size => size.toNat?.bind fun n => if l.length < n then none else some (l.take n)
  | none, none => some l

def status? (line : String) : Option Nat :=
  match (line.splitOn " ") with
  | _ :: code :: _ => if code.length = 3 then code.toNat? else none
  | _ => none

def Response.ofBytes? (l : List UInt8) : Option Response := do
  let (lines, rest) ← splitHead l
  let status ← status? (← lines.head?)
  if status = 204 || status = 304 then return ⟨status, ""⟩
  let body ← body? (lines.tail.map header) rest
  return ⟨status, (String.fromUTF8? ⟨body.toArray⟩).getD ""⟩

end Patchbay.Http
