/-!
# Arguments of the runner

Two places, for the file of the graph and for the node, and three options: `-c` or `--config`
with a file, `--no-save`, and `-h` or `--help`. Options may stand anywhere before `--`, each once;
the value of an option stands in the next argument or after an equals sign, and after `-c` also
without one. Arguments are read from the left, and the first one that is wrong, or that asks for
help, decides.
-/

namespace Patchbay.Runner

structure Arguments where
  graph : String
  node : String
  config : Option String
  save : Bool
  deriving DecidableEq, Repr, Inhabited

/-- Why arguments are not followed. -/
inductive Refusal where
  | help
  | usage
  deriving DecidableEq, Repr

namespace Arguments

/-- What was read so far. -/
structure Draft where
  graph : Option String := none
  node : Option String := none
  config : Option String := none
  noSave : Bool := false

namespace Draft

def place (d : Draft) (text : String) : Except Refusal Draft :=
  match d.graph, d.node with
  | none, _ => if text.isEmpty then .error .usage else .ok { d with graph := some text }
  | some _, none => .ok { d with node := some text }
  | some _, some _ => .error .usage

def withConfig (d : Draft) (text : String) : Except Refusal Draft :=
  if d.config.isSome || text.isEmpty then .error .usage else .ok { d with config := some text }

def withNoSave (d : Draft) : Except Refusal Draft :=
  if d.noSave then .error .usage else .ok { d with noSave := true }

def complete (d : Draft) : Except Refusal Arguments :=
  match d.graph, d.node with
  | some graph, some node => .ok ⟨graph, node, d.config, !d.noSave⟩
  | _, _ => .error .usage

end Draft

/-- What an argument is: the mark after which there are only places, an option with its value if
that is in the same argument, or a place or the value of the option before it. -/
inductive Shape where
  | escape
  | option (name : String) (value : Option String)
  | plain

/-- What this argument is. Of an option with one dash only the first letter is its name. -/
def shape (arg : String) : Shape :=
  match arg.toList with
  | ['-', '-'] => .escape
  | '-' :: '-' :: rest =>
    let name := rest.takeWhile (· != '=')
    let value := rest.drop name.length
    .option (String.ofList name)
      (if value.isEmpty then none else some (String.ofList (value.drop 1)))
  | '-' :: 'h' :: _ => .option "help" none
  | '-' :: 'c' :: '=' :: value => .option "config" (some (String.ofList value))
  | ['-', 'c'] => .option "config" none
  | '-' :: 'c' :: value => .option "config" (some (String.ofList value))
  | '-' :: _ :: _ => .option "" none
  | _ => .plain

def read (d : Draft) : List String → Except Refusal Draft
  | [] => .ok d
  | arg :: rest =>
    match shape arg with
    | .escape => rest.foldlM Draft.place d
    | .plain => do read (← d.place arg) rest
    | .option "help" none => .error .help
    | .option "no-save" none => do read (← d.withNoSave) rest
    | .option "config" (some value) => do read (← d.withConfig value) rest
    | .option "config" none =>
      match rest with
      | value :: rest =>
        match shape value with
        | .plain => do read (← d.withConfig value) rest
        | _ => .error .usage
      | [] => .error .usage
    | .option _ _ => .error .usage

def ofList (args : List String) : Except Refusal Arguments := do (← read {} args).complete

end Arguments

end Patchbay.Runner
