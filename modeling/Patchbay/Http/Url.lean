/-!
# Addresses

Addresses with the scheme `http`. Reading one brings it into the form in which it is sent:
slashes one way, dot segments gone, characters that may not stand in an address written as their
bytes, the host in small letters and without the usual port.
-/

namespace Patchbay.Http

/-- An address. The authority has the port if it is not the usual one, the target is the path with
the query, and the fragment is not sent. -/
structure Url where
  authority : String
  target : String
  fragment : Option String
  deriving DecidableEq, Repr, Inhabited

namespace Url

def text (u : Url) : String :=
  "http://" ++ u.authority ++ u.target ++ (u.fragment.map ("#" ++ ·)).getD ""

/-! ## Escapes -/

def escapedByte (b : UInt8) : String :=
  let digit := fun n : Nat => (Nat.digitChar n).toUpper
  String.ofList ['%', digit (b.toNat / 16), digit (b.toNat % 16)]

/-- The text with every character escaped that is not ASCII, does not show or is in the list. -/
def escape (special : List Char) (text : List Char) : String :=
  String.join (text.map fun c =>
    if c.toNat ≤ 0x20 || 0x7E < c.toNat || special.contains c then
      String.join ((String.singleton c).toUTF8.toList.map escapedByte)
    else String.singleton c)

def inPath : List Char := ['"', '#', '<', '>', '?', '`', '\x7b', '\x7d']

def inQuery : List Char := ['"', '#', '<', '>', '\'']

def inFragment : List Char := ['"', '<', '>', '`']

/-! ## Paths -/

def isSlash (c : Char) : Bool := c == '/' || c == '\\'

def segments : List Char → List (List Char)
  | [] => [[]]
  | c :: rest =>
    match segments rest with
    | [] => [[]]
    | first :: others => if isSlash c then [] :: first :: others else (c :: first) :: others

def dots : List Char → Option Nat
  | [] => some 0
  | '.' :: rest => (dots rest).map (· + 1)
  | '%' :: '2' :: 'e' :: rest | '%' :: '2' :: 'E' :: rest => (dots rest).map (· + 1)
  | _ => none

/-- The parts of a path without dot segments: one dot stays where it is, two dots go back one
part. A dot segment at the end leaves an empty part. `kept` has the parts so far, last first. -/
def resolve (kept : List (List Char)) : List (List Char) → List (List Char)
  | [] => kept.reverse
  | s :: rest =>
    let back := if dots s = some 2 then kept.tail else kept
    if dots s = some 1 || dots s = some 2 then
      if rest.isEmpty then ([] :: back).reverse else resolve back rest
    else resolve (s :: kept) rest

def path (text : List Char) : String :=
  let parts := resolve [] (segments (text.drop 1))
  "/" ++ "/".intercalate (parts.map (escape inPath))

/-! ## Authorities -/

def isHostChar (c : Char) : Bool := c.isAlphanum || "!$&'()*+,-.;=_`~\"\x7b\x7d".toList.contains c

/-- A port; the usual one is not written. -/
def port? (text : List Char) : Option String :=
  if text.isEmpty then some ""
  else if text.all Char.isDigit then
    let n := text.foldl (fun n c => 10 * n + (c.toNat - 48)) 0
    if n = 80 then some "" else if n < 65536 then some s!":{n}" else none
  else none

/-- A host with a port. A name and a password before it belong to the one who asks. -/
def authority? (text : List Char) : Option String :=
  let place := (text.reverse.takeWhile (· != '@')).reverse
  let host := place.takeWhile (· != ':')
  if host.isEmpty || !host.all isHostChar then none
  else (port? (place.drop (host.length + 1))).map
    ((String.ofList host).toLower ++ ·)

/-! ## Reading -/

/-- The text without the characters that are overlooked in an address: line breaks and tabs
anywhere, and whatever does not show at both ends. -/
def stripped (text : String) : List Char :=
  let isHidden := fun c : Char => c.toNat ≤ 0x20
  let trimmed := ((text.toList.dropWhile isHidden).reverse.dropWhile isHidden).reverse
  trimmed.filter fun c => c != '\t' && c != '\n' && c != '\r'

def ofRest? (text : List Char) : Option Url :=
  let text := text.dropWhile isSlash
  let isEnd := fun c : Char => isSlash c || c == '?' || c == '#'
  let place := text.takeWhile (!isEnd ·)
  let rest := text.drop place.length
  let start := rest.takeWhile fun c => c != '?' && c != '#'
  let rest := rest.drop start.length
  let query := rest.takeWhile (· != '#')
  let mark := rest.drop query.length
  (authority? place).map fun authority =>
    { authority := authority
      target := path start
        ++ if query.isEmpty then "" else "?" ++ escape inQuery (query.drop 1)
      fragment := if mark.isEmpty then none else some (escape inFragment (mark.drop 1)) }

def ofText? (text : String) : Option Url :=
  let text := stripped text
  if (String.ofList (text.take 5)).toLower = "http:" then ofRest? (text.drop 5) else none

end Url

end Patchbay.Http
