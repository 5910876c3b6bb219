import PostfixCompiler.Command.Run

/-!
# The program

The arguments of the process are run on the files of the machine.

## Main definitions

* `PostfixCompiler.Files.ofMachine`: what the machine's files hold, as far as a command needs it.
* `main`: runs the arguments.
-/

namespace PostfixCompiler

/-- The reason that a file operation gives for its failure. -/
def reasonOf (e : IO.Error) : String :=
  match e with
  | .noFileOrDirectory .. => "No such file or directory (os error 2)"
  | .permissionDenied .. => "Permission denied (os error 13)"
  | .inappropriateType .. => "Is a directory (os error 21)"
  | e => toString e

/-- The contents of a file, or the reason why it cannot be read. -/
def readOrReason (path : String) : IO (Except String String) := do
  try
    let bytes ← IO.FS.readBinFile path
    match String.fromUTF8? bytes with
    | some s => pure (.ok s)
    | none => pure (.error "stream did not contain valid UTF-8")
  catch e => pure (.error (reasonOf e))

/-- The input of a command line, if it has one. -/
def Command.input? : Command → Option String
  | .check input => some input
  | .compile input _ _ _ => input
  | _ => none

/-- A view of the machine's files that knows the input of a command. -/
def Files.ofMachine (c : Option Command) : IO Files := do
  match c.bind Command.input? with
  | none => pure ⟨fun _ => .error "", fun _ => none⟩
  | some path =>
    let contents ← readOrReason path
    pure ⟨fun _ => contents, fun _ => none⟩

/-- Writes the file that an outcome asks for, and returns the outcome, or the failure to write. -/
def Outcome.deliver (o : Outcome) : IO Outcome := do
  match o.written with
  | none => pure o
  | some (path, contents) =>
    try
      IO.FS.writeFile path contents
      pure o
    catch e => pure (Outcome.ofFile "writing" path (reasonOf e))

end PostfixCompiler

open PostfixCompiler in
/-- Runs the arguments, prints what comes out, and returns the exit code. -/
def main (args : List String) : IO UInt32 := do
  let files ← Files.ofMachine (Command.parse? args)
  let o ← (runArguments files args).deliver
  IO.print o.stdout
  IO.eprint o.stderr
  pure (UInt32.ofNat o.code)
