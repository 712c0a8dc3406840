import Patchbay.Json.Document
import Patchbay.Json.Token

/-!
# Documents from tokens

The grammar of JSON, read in one pass over the tokens. The pass holds the arrays and objects
that are open, innermost first, each with what it has so far in reverse order, and what may
come next. A text is a document when all of its tokens are accepted and exactly one value is
complete at the end.
-/

namespace Patchbay.Json

/-- An array or object that is still open, with what it holds so far. A key is missing where its
text denotes none. -/
inductive Level where
  | items (done : List Document)
  | members (done : List (Option String × Document))
  | member (done : List (Option String × Document)) (key : Option String)

inductive Expectation where
  | value
  | itemOrEnd
  | memberOrEnd
  | member
  | colon
  | separator
  | nothing (document : Document)

/-- How far a text is read. -/
structure Cursor where
  levels : List Level
  next : Expectation

namespace Cursor

def start : Cursor := ⟨[], .value⟩

/-- A complete value takes its place in the innermost open array or object. -/
def place? (d : Document) : List Level → Option Cursor
  | [] => some ⟨[], .nothing d⟩
  | .items done :: outer => some ⟨.items (d :: done) :: outer, .separator⟩
  | .member done key :: outer => some ⟨.members ((key, d) :: done) :: outer, .separator⟩
  | .members _ :: _ => none

def begin? (levels : List Level) : Token → Option Cursor
  | .openArray => some ⟨.items [] :: levels, .itemOrEnd⟩
  | .openObject => some ⟨.members [] :: levels, .memberOrEnd⟩
  | .null => place? .null levels
  | .bool b => place? (.bool b) levels
  | .number n => place? (n.elim .unreadable .number) levels
  | .string s => place? (s.elim .unreadable .string) levels
  | _ => none

def members? (done : List (Option String × Document)) : Option (List (String × Document)) :=
  done.reverse.mapM fun (key, d) => key.map (·, d)

def end? : List Level → Token → Option Cursor
  | .items done :: outer, .closeArray => place? (.array done.reverse) outer
  | .members done :: outer, .closeObject =>
    place? ((members? done).elim .unreadable .object) outer
  | _, _ => none

def key? : List Level → Token → Option Cursor
  | .members done :: outer, .string k => some ⟨.member done k :: outer, .colon⟩
  | _, _ => none

def step? (c : Cursor) (t : Token) : Option Cursor :=
  match c.next with
  | .value => begin? c.levels t
  | .itemOrEnd => if let .closeArray := t then end? c.levels t else begin? c.levels t
  | .memberOrEnd => if let .closeObject := t then end? c.levels t else key? c.levels t
  | .member => key? c.levels t
  | .colon => if let .colon := t then some ⟨c.levels, .value⟩ else none
  | .separator =>
    match c.levels, t with
    | .items _ :: _, .comma => some ⟨c.levels, .value⟩
    | .members _ :: _, .comma => some ⟨c.levels, .member⟩
    | levels, t => end? levels t
  | .nothing _ => none

def document? (c : Cursor) : Option Document :=
  match c.next with
  | .nothing d => some d
  | _ => none

end Cursor

namespace Document

/-- How many arrays and objects may lie inside each other. -/
def depthLimit : Nat := 127

def ofTokens? (tokens : List Token) : Option Document :=
  (tokens.foldlM Cursor.step? Cursor.start).bind Cursor.document?

def ofText? (text : String) : Option Document :=
  ((Token.scan? text.toList).bind ofTokens?).map (within depthLimit)

end Document

def Value.ofText? (text : String) : Option Value :=
  (Document.ofText? text).bind Document.value?

end Patchbay.Json
