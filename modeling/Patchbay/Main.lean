import Patchbay.Http.Wire
import Patchbay.Runner.Run
import Std.Async.DNS
import Std.Async.TCP

/-!
# The runner as a program

The command line: it runs one node of a saved graph and shows the events, one a line.
-/

namespace Patchbay.Program

open Std Async

/-! ## The network -/

def place (authority : String) : String × UInt16 :=
  match authority.splitOn ":" with
  | [host, port] => (host, (port.toNat?.getD 80).toUInt16)
  | _ => (authority, 80)

/-- All that comes before the connection is closed, in `fuel` pieces at most. -/
def receive (c : TCP.Socket.Client) : Nat → ByteArray → Async ByteArray
  | 0, got => pure got
  | fuel + 1, got => do
    match ← c.recv? 65536 with
    | some piece => receive c fuel (got ++ piece)
    | none => pure got

/-- Send a request over a connection of its own to one address. -/
def exchange (address : Net.IPAddr) (port : UInt16) (r : Http.Request) : Async ByteArray := do
  let c ← TCP.Socket.Client.mk
  c.connect (match address with
    | .v4 a => .v4 ⟨a, port⟩
    | .v6 a => .v6 ⟨a, port⟩)
  c.send r.text.toUTF8
  receive c 1000000 .empty

def send (r : Http.Request) : Async (Option Http.Response) := do
  let (host, port) := place r.url.authority
  match (← DNS.getAddrInfo host (toString port)).toList with
  | [] => return none
  | address :: _ => return Http.Response.ofBytes? (← exchange address port r).data.toList

def network : Http.Transport IO where
  send r := do
    match ← (send r).block.toBaseIO with
    | .ok response => return response
    | .error _ => return none
  pause milliseconds := IO.sleep (min milliseconds 4294967295).toUInt32

/-! ## Files and the environment -/

def attempt? {α : Type} (action : IO α) : IO (Option α) := do
  match ← action.toBaseIO with
  | .ok a => return some a
  | .error _ => return none

/-- The directory that a file is in, as far as its name tells. -/
def directory (name : String) : String :=
  String.ofList (name.toList.reverse.dropWhile (· != '/')).reverse

/-- Write a file into a directory that is made if there is none. -/
def write (name text : String) : IO Unit := do
  unless (directory name).isEmpty do IO.FS.createDirAll (directory name)
  IO.FS.writeFile name text

def machine : Runner.Host IO where
  transport := network
  lookup? name := IO.getEnv name
  isThere name := do
    match ← (IO.FS.Handle.mk name .read).toBaseIO with
    | .error (.noFileOrDirectory ..) => return false
    | _ => return true
  contents? name := attempt? (IO.FS.readFile name)
  store name text := return (← attempt? (write name text)).isSome

/-! ## The command line -/

def usage : String := "Run one node of a saved graph

Usage: patchbay [OPTIONS] <GRAPH> <NODE>

Arguments:
  <GRAPH>  The file of the graph
  <NODE>   The node to execute

Options:
  -c, --config <FILE>  The file of the settings
      --no-save        Do not write the graph back
  -h, --help           Show this help"

end Patchbay.Program

open Patchbay in
def main (args : List String) : IO UInt32 := do
  match Runner.Arguments.ofList args with
  | .error .help =>
    IO.println Program.usage
    return 0
  | .error .usage =>
    IO.eprintln Program.usage
    return 2
  | .ok a =>
    let report ← Runner.run Program.machine a
    for line in report.lines do IO.println line
    return report.exit.toUInt32
