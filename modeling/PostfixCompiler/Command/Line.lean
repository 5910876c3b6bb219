/-!
# Command lines

A command line names a file with a tree, or the command `check` and such a file, or asks for the
version or for help. Options may stand before or behind the file; each is given at most once, with
its value as the next argument or, after an equals sign, as part of the same one. Behind `--`
nothing is an option.

## Main definitions

* `PostfixCompiler.Command`: what a command line asks for.
* `PostfixCompiler.Command.parse?`: what a list of arguments asks for, if it is a command line.
-/

namespace PostfixCompiler

/-- What a command line asks for. -/
inductive Command where
  /-- The version of the program. -/
  | version
  /-- How the program is used. -/
  | help
  /-- Whether there are errors in a file. -/
  | check (input : String)
  /-- The listing of a file. -/
  | compile (input : Option String) (output : Option String) (entry : String) (emitFrames : Bool)
deriving DecidableEq

namespace Command

/-- The options and the file found so far. -/
structure Options where
  /-- The file with the tree. -/
  input : Option String
  /-- Where the listing goes. -/
  output : Option String
  /-- The function in which the program starts. -/
  entry : Option String
  /-- The frames are asked for. -/
  emitFrames : Bool

namespace Options

/-- Nothing is found yet. -/
def none : Options := ⟨.none, .none, .none, false⟩

/-- Sets the file; there is only one, and its name is not empty. -/
def setInput? (o : Options) (s : String) : Option Options :=
  if o.input.isSome ∨ s = "" then .none else some { o with input := s }

/-- Sets where the listing goes. -/
def setOutput? (o : Options) (s : String) : Option Options :=
  if o.output.isSome ∨ s = "" then .none else some { o with output := s }

/-- Sets the function in which the program starts. -/
def setEntry? (o : Options) (s : String) : Option Options :=
  if o.entry.isSome then .none else some { o with entry := s }

/-- Asks for the frames. -/
def setEmitFrames? (o : Options) : Option Options :=
  if o.emitFrames then .none else some { o with emitFrames := true }

/-- The command that the options make up. -/
def command (o : Options) : Command :=
  .compile o.input o.output (o.entry.getD "og") o.emitFrames

end Options

/-- How an argument is meant. -/
inductive Meaning where
  /-- As it stands: a file, a command or a value. -/
  | plain
  /-- An option that stands alone, or the wrong way to write one. -/
  | flag
  /-- An option with its value behind it. -/
  | output
  /-- An option with its value behind it. -/
  | entry
  /-- An option with its value in the same argument. -/
  | outputIs (value : String)
  /-- An option with its value in the same argument. -/
  | entryIs (value : String)

/-- What follows `start` in `cs`. -/
def after? (start : String) (cs : List Char) : Option String :=
  let n := start.length
  if cs.take n = start.toList then some (String.ofList (cs.drop n)) else none

/-- How an argument is meant. -/
def meaning (arg : String) : Meaning :=
  let cs := arg.toList
  if arg = "-o" ∨ arg = "--output" then .output
  else if arg = "--entry" then .entry
  else
    match after? "--output=" cs, after? "--entry=" cs, after? "-o=" cs, after? "-o" cs with
    | some v, _, _, _ => .outputIs v
    | _, some v, _, _ => .entryIs v
    | _, _, some v, _ => .outputIs v
    | _, _, _, some v => .outputIs v
    | _, _, _, _ => if cs.take 1 = ['-'] ∧ 1 < cs.length then .flag else .plain

/-- The argument can be the value of the option before it. -/
def isValue (arg : String) : Bool := arg.toList.take 1 ≠ ['-'] ∨ arg = "-"

/-- The argument asks for the version or for help, whatever else is asked for. -/
def isInquiry? (arg : String) : Option Command :=
  if arg = "--help" ∨ (after? "-h" arg.toList).isSome then some .help
  else if arg = "--version" ∨ (after? "-V" arg.toList).isSome then some .version
  else none

/-- Arguments that are all files. -/
def parseFiles? (o : Options) : List String → Option Command
  | [] => some o.command
  | arg :: rest => (o.setInput? arg).bind fun o => parseFiles? o rest

/-- The arguments of `check`: one file. -/
def parseCheck? (input : Option String) : List String → Option Command
  | [] => input.map check
  | "--" :: rest => if input.isNone ∧ rest.length = 1 ∧ rest ≠ [""] then rest.head?.map check
    else if rest.isEmpty then input.map check
    else none
  | arg :: rest =>
    if arg = "--help" ∨ (after? "-h" arg.toList).isSome then some .help
    else if !isValue arg ∨ input.isSome ∨ arg = "" then none
    else parseCheck? (some arg) rest

/-- The arguments of the program behind those that are found already. -/
def parseFrom? (o : Options) : List String → Option Command
  | [] => some o.command
  | "--" :: rest => parseFiles? o rest
  | "--emit-frames" :: rest => o.setEmitFrames?.bind fun o => parseFrom? o rest
  | arg :: rest =>
    match meaning arg, rest with
    | .outputIs v, rest => (o.setOutput? v).bind fun o => parseFrom? o rest
    | .entryIs v, rest => (o.setEntry? v).bind fun o => parseFrom? o rest
    | .output, v :: rest =>
      if isValue v then (o.setOutput? v).bind fun o => parseFrom? o rest else none
    | .entry, v :: rest =>
      if isValue v then (o.setEntry? v).bind fun o => parseFrom? o rest else none
    | .output, [] | .entry, [] => none
    | .flag, _ => isInquiry? arg
    | .plain, rest =>
      if arg = "check" then parseCheck? none rest
      else if arg = "help" then some .help
      else (o.setInput? arg).bind fun o => parseFrom? o rest

/-- What a list of arguments asks for, if it is a command line. -/
def parse? (args : List String) : Option Command := parseFrom? .none args

end Command

end PostfixCompiler
