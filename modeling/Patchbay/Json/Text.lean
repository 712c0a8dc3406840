import Patchbay.Json.Document

/-!
# JSON text

The two written forms of a document: in one line without blanks, and indented by two blanks for
each open array or object.
-/

namespace Patchbay.Json

def hexDigit (n : Nat) : Char := Nat.digitChar n

/-- A character inside of a string literal. Only the quote, the backslash and the control
characters are escaped. -/
def escaped (c : Char) : String :=
  match c with
  | '"' => "\\\""
  | '\\' => "\\\\"
  | '\x08' => "\\b"
  | '\t' => "\\t"
  | '\n' => "\\n"
  | '\x0c' => "\\f"
  | '\r' => "\\r"
  | c =>
    if c.toNat < 0x20 then
      String.ofList ['\\', 'u', '0', '0', hexDigit (c.toNat / 16), hexDigit (c.toNat % 16)]
    else String.singleton c

def quoted (s : String) : String :=
  "\"" ++ String.join (s.toList.map escaped) ++ "\""

namespace Document

mutual
def compact : Document → String
  | .null | .unreadable => "null"
  | .bool b => if b then "true" else "false"
  | .number n => n.text
  | .string s => quoted s
  | .array items => "[" ++ ",".intercalate (compactItems items) ++ "]"
  | .object members => "\x7b" ++ ",".intercalate (compactMembers members) ++ "\x7d"
def compactItems : List Document → List String
  | [] => []
  | d :: rest => compact d :: compactItems rest
def compactMembers : List (String × Document) → List String
  | [] => []
  | (k, d) :: rest => (quoted k ++ ":" ++ compact d) :: compactMembers rest
end

/-- The start of a line inside of `depth` arrays and objects. -/
def margin (depth : Nat) : String := "".pushn ' ' (2 * depth)

/-- Lines between brackets, or the brackets alone if there are none. -/
def block (opening closing : String) (depth : Nat) (lines : List String) : String :=
  if lines.isEmpty then opening ++ closing
  else
    opening ++ "\n" ++ ",\n".intercalate (lines.map (margin (depth + 1) ++ ·)) ++ "\n"
      ++ margin depth ++ closing

mutual
/-- The document in indented form, inside of `depth` arrays and objects. -/
def indented (depth : Nat) : Document → String
  | .array items => block "[" "]" depth (indentedItems (depth + 1) items)
  | .object members => block "\x7b" "\x7d" depth (indentedMembers (depth + 1) members)
  | d => compact d
def indentedItems (depth : Nat) : List Document → List String
  | [] => []
  | d :: rest => indented depth d :: indentedItems depth rest
def indentedMembers (depth : Nat) : List (String × Document) → List String
  | [] => []
  | (k, d) :: rest => (quoted k ++ ": " ++ indented depth d) :: indentedMembers depth rest
end

def pretty (d : Document) : String := d.indented 0

end Document

def Value.compact (v : Value) : String := (Document.ofValue v).compact

end Patchbay.Json
