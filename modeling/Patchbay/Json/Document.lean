import Patchbay.Json.Value

/-!
# JSON documents

A `Document` is a JSON text as a tree: members in the order they are written, repeated keys
kept. Records are read from documents, because what a repeated key means is for each record to
say; a free-form value is read with `value?`, where the last of the repeated members counts.

`unreadable` stands for a well-formed part of a text that denotes no value: a number beyond
every double, a string with half of a surrogate pair, or a part nested too deeply. Such a part
may stand where nothing reads it.
-/

namespace Patchbay.Json

/-- A JSON text as it is written. -/
inductive Document where
  | null
  | bool (value : Bool)
  | number (value : Number)
  | string (value : String)
  | array (items : List Document)
  | object (members : List (String × Document))
  | unreadable
  deriving Inhabited

namespace Document

mutual
/-- The value that the document denotes. -/
def value? : Document → Option Value
  | .null => some .null
  | .bool b => some (.bool b)
  | .number n => some (.number n)
  | .string s => some (.string s)
  | .array items => (values? items).map .array
  | .object members => (memberValues? members).map Value.ofMembers
  | .unreadable => none
def values? : List Document → Option (List Value)
  | [] => some []
  | d :: rest => do
    let v ← value? d
    let vs ← values? rest
    return v :: vs
def memberValues? : List (String × Document) → Option (List (String × Value))
  | [] => some []
  | (k, d) :: rest => do
    let v ← value? d
    let vs ← memberValues? rest
    return (k, v) :: vs
end

/-- Whether every part of the document denotes a value. -/
def isReadable (d : Document) : Bool := d.value?.isSome

mutual
def ofValue : Value → Document
  | .null => .null
  | .bool b => .bool b
  | .number n => .number n
  | .string s => .string s
  | .array items => .array (ofValues items)
  | .object members => .object (ofMemberValues members)
def ofValues : List Value → List Document
  | [] => []
  | v :: rest => ofValue v :: ofValues rest
def ofMemberValues : List (String × Value) → List (String × Document)
  | [] => []
  | (k, v) :: rest => (k, ofValue v) :: ofMemberValues rest
end

mutual
/-- The document with every array and object that lies inside `depth` others made
unreadable. -/
def within (depth : Nat) : Document → Document
  | .array items => if depth = 0 then .unreadable else .array (withinItems (depth - 1) items)
  | .object members =>
    if depth = 0 then .unreadable else .object (withinMembers (depth - 1) members)
  | d => d
def withinItems (depth : Nat) : List Document → List Document
  | [] => []
  | d :: rest => within depth d :: withinItems depth rest
def withinMembers (depth : Nat) : List (String × Document) → List (String × Document)
  | [] => []
  | (k, d) :: rest => (k, within depth d) :: withinMembers depth rest
end

end Document

end Patchbay.Json
