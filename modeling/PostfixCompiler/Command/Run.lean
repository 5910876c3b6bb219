import PostfixCompiler.Command.Line
import PostfixCompiler.Compile
import PostfixCompiler.Json.Printer
import PostfixCompiler.Postfix.Listing
import PostfixCompiler.Syntax.Decode

/-!
# Running a command

A command is run on a view of the file system: what a file holds or why it cannot be read, and why a
file cannot be written. What comes out is the exit code, the two output texts and the file that is
to be written.

## Main definitions

* `PostfixCompiler.Files`: the view of the file system.
* `PostfixCompiler.Outcome`: what comes out of a command.
* `PostfixCompiler.Command.run`: the outcome of a command.
* `PostfixCompiler.runArguments`: the outcome of a list of arguments.
-/

namespace PostfixCompiler

/-- A view of the file system. -/
structure Files where
  /-- What a file holds, or why it cannot be read. -/
  read : String → Except String String
  /-- Why a file cannot be written, if it cannot. -/
  refuses : String → Option String

/-- What comes out of a command. -/
structure Outcome where
  /-- The exit code. -/
  code : Nat
  /-- What goes to the standard output. -/
  stdout : String
  /-- What goes to the standard error output. -/
  stderr : String
  /-- The file that is to be written, with its contents. -/
  written : Option (String × String)
deriving DecidableEq

namespace Outcome

/-- All is well. -/
def success (stdout stderr : String) : Outcome := ⟨0, stdout, stderr, none⟩

/-- A message, and the exit code that says that something is wrong. -/
def failure (message : String) : Outcome := ⟨1, "", message ++ "\n", none⟩

/-- The arguments are no command line. -/
def misuse : Outcome :=
  ⟨2, "", "error: unexpected arguments\n\nUsage: ogc [OPTIONS] [FILE] [COMMAND]\n", none⟩

/-- The file could not be read or written. -/
def ofFile (doing path reason : String) : Outcome :=
  failure ("Error: " ++ doing ++ " " ++ path ++ ": " ++ reason)

/-- The report of an error. An error in the compiler itself aborts the program. -/
def ofError (e : Error) : Outcome :=
  let r := e.report
  if r.isInternal then { failure r.text with code := 134 } else failure r.diagnostic

end Outcome

namespace Command

/-- The version of the program. -/
def versionText : String := "ogc 0.1.0\n"

/-- How the program is used. -/
def helpText : String :=
  "Usage: ogc [OPTIONS] [FILE] [COMMAND]\n\n"
    ++ "Commands:\n  check  Check a syntax tree for errors\n\n"
    ++ "Options:\n  -o, --output <FILE>\n      --entry <ENTRY>\n      --emit-frames\n"
    ++ "  -h, --help\n  -V, --version\n"

/-- The tree in a file. -/
def load (files : Files) (path : String) : Except Outcome SyntaxTree :=
  match files.read path with
  | .error reason => .error (.ofFile "reading" path reason)
  | .ok text =>
    match SyntaxTree.ofText text with
    | .error f => .error (.ofError (.tree f))
    | .ok t => .ok t

/-- The frames as they are printed. -/
def frameText (frames : List FrameLayout) : String :=
  (Json.array (frames.map FrameLayout.summary)).pretty ++ "\n"

/-- The listing and the frames go where they are asked for. The standard output is left to the
listing where that is not written to a file. -/
def deliver (files : Files) (c : Compilation) (output : Option String) (emitFrames : Bool) :
    Outcome :=
  let listing := Listing.render c.code
  let frames := if emitFrames then frameText c.frames else ""
  match output with
  | none => .success listing frames
  | some path =>
    match files.refuses path with
    | some reason => .ofFile "writing" path reason
    | none => ⟨0, frames, "", some (path, listing)⟩

/-- The outcome of compiling a file. -/
def runCompile (files : Files) (input : String) (output : Option String) (entry : String)
    (emitFrames : Bool) : Outcome :=
  match load files input with
  | .error o => o
  | .ok t =>
    match PostfixCompiler.compile t { Config.default with entryPoint := entry } with
    | .error e => .ofError e
    | .ok c => deliver files c output emitFrames

/-- The outcome of checking a file. -/
def runCheck (files : Files) (input : String) : Outcome :=
  match load files input with
  | .error o => o
  | .ok t =>
    match Typing.checkTree t with
    | .error e => .ofError e
    | .ok _ => .success "No errors found\n" ""

/-- The outcome of a command. -/
def run (files : Files) : Command → Outcome
  | .version => .success versionText ""
  | .help => .success helpText ""
  | .check input => runCheck files input
  | .compile none _ _ _ =>
    .failure "Error: No input file specified\nUsage: ogc <FILE> or ogc check <FILE>"
  | .compile (some input) output entry emitFrames =>
    runCompile files input output entry emitFrames

end Command

/-- The outcome of a list of arguments. -/
def runArguments (files : Files) (args : List String) : Outcome :=
  match Command.parse? args with
  | some c => c.run files
  | none => .misuse

end PostfixCompiler
