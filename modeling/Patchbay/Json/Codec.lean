import Patchbay.Json.Nesting

/-!
# Reading and writing records

A type that has a JSON form is a `Codec`. The rules of reading are the same for every record:
unknown members are ignored, a declared member may be written once, and an array may stand for
the record with the members in the order in which they are declared, of which the last ones may
be missing if they have a default. A member that is written must have the form of its type;
only optional members accept null.
-/

namespace Patchbay.Json

class Codec (α : Type) where
  encode : α → Document
  decode? : Document → Option α

export Codec (encode decode?)

namespace Document

/-- The declared members of a record, as far as they are written. -/
def record? (names : List String) : Document → Option (List (String × Document))
  | .object members =>
    let known := members.filter fun m => names.contains m.1
    if names.all fun n => known.countP (·.1 == n) ≤ 1 then some known else none
  | .array items => if items.length ≤ names.length then some (names.zip items) else none
  | _ => none

/-- A tagged record: its tag, which is the string member of that name or the first item, and
the rest. Every part of it must denote a value. -/
def tagged? (tag : String) (d : Document) : Option (String × Document) :=
  if d.isReadable then
    match d with
    | .object members =>
      match members.filter (·.1 == tag) with
      | [(_, .string name)] => some (name, .object (members.filter (·.1 != tag)))
      | _ => none
    | .array (.string name :: rest) => some (name, .array rest)
    | _ => none
  else none

/-- A name that stands for a value: the string itself, or an object with null under the
name. -/
def name? : Document → Option String
  | .string s => some s
  | .object [(s, .null)] => some s
  | _ => none

/-- A name that stands for a value inside of a tagged record. There the object form may hold an
empty object as well as null. -/
def innerName? : Document → Option String
  | .object [(s, .object [])] => some s
  | d => d.name?

def named? {α : Type} (table : List (String × α)) (d : Document) : Option α :=
  d.name?.bind fun name => List.lookup name table

end Document

def required? {α : Type} [Codec α] (record : List (String × Document)) (name : String) :
    Option α :=
  (List.lookup name record).bind decode?

/-- A member with a default. -/
def defaulted? {α : Type} [Codec α] (record : List (String × Document)) (name : String)
    (default : α) : Option α :=
  match List.lookup name record with
  | none => some default
  | some d => decode? d

instance : Codec Bool where
  encode := .bool
  decode?
    | .bool b => some b
    | _ => none

instance : Codec String where
  encode := .string
  decode?
    | .string s => some s
    | _ => none

instance : Codec Value where
  encode := .ofValue
  decode? := Document.value?

/-- A double accepts every number; infinities are written as null. -/
instance : Codec Float where
  encode x := .ofValue (.ofFloat x)
  decode?
    | .number n => some n.toFloat
    | _ => none

def natBelow? (bound : Nat) : Document → Option Nat
  | .number n => n.toNat?.filter (· < bound)
  | _ => none

instance : Codec UInt32 where
  encode n := .number (.int n.toNat)
  decode? d := (natBelow? (Nat.pow 2 32) d).map UInt32.ofNat

instance : Codec UInt64 where
  encode n := .number (.int n.toNat)
  decode? d := (natBelow? (Nat.pow 2 64) d).map UInt64.ofNat

instance {α : Type} [Codec α] : Codec (List α) where
  encode items := .array (items.map encode)
  decode?
    | .array items => items.mapM decode?
    | _ => none

/-- Null stands for nothing. -/
instance {α : Type} [Codec α] : Codec (Option α) where
  encode
    | none => .null
    | some a => encode a
  decode?
    | .null => some none
    | d => (decode? d).map some

/-- A dictionary is an object; of two members with one key the later counts. -/
instance {α : Type} [Codec α] : Codec (Dict String α) where
  encode d := .object (d.entries.map fun e => (e.1, encode e.2))
  decode?
    | .object members => (members.mapM fun m => (decode? m.2).map (m.1, ·)).map Dict.ofList
    | _ => none

def ofText? {α : Type} [Codec α] (text : String) : Option α :=
  (Document.ofText? text).bind decode?

def ofValue? {α : Type} [Codec α] (v : Value) : Option α := decode? (Document.ofValue v)

end Patchbay.Json
