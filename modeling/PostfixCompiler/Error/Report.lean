import PostfixCompiler.Error.Fault

/-!
# Errors and their reports

The first error ends every run. An error is a fault, with the line that it is about where the
program is to blame. What a user gets to see is its report: a class, a line and a message.

## Main definitions

* `PostfixCompiler.Report`: class, line and message, with its two texts.
* `PostfixCompiler.Error`: a fault of one of four classes.
* `PostfixCompiler.Error.report`: the report of an error.
-/

namespace PostfixCompiler

/-- What a user gets to see of an error. -/
inductive Report where
  /-- The program is ill-typed. -/
  | type (line : UInt32) (message : String)
  /-- Control leaves a function or a block where it must not. -/
  | flow (line : UInt32) (message : String)
  /-- The input is not a tree of the language. -/
  | tree (message : String)
  /-- The compiler is to blame. -/
  | internal (message : String)
deriving DecidableEq

namespace Report

/-- The line that the report is about. -/
def line? : Report → Option UInt32
  | .type line _ | .flow line _ => some line
  | .tree _ | .internal _ => none

/-- The compiler is to blame. -/
def isInternal : Report → Bool
  | .internal _ => true
  | _ => false

/-- The report without its line. -/
def text : Report → String
  | .type _ message | .flow _ message => message
  | .tree message => "malformed syntax tree: " ++ message
  | .internal message => "ICE: " ++ message

/-- The report with its line in front, where it has one. -/
def diagnostic (r : Report) : String :=
  match r.line? with
  | some line => toString line.toNat ++ ": " ++ r.text
  | none => r.text

end Report

/-- A fault, with the line that it is about where the program is to blame. -/
inductive Error where
  /-- The program is ill-typed. -/
  | type (line : UInt32) (fault : TypeFault)
  /-- Control leaves a function or a block where it must not. -/
  | flow (line : UInt32) (fault : FlowFault)
  /-- The nodes do not form a tree of the language. -/
  | tree (fault : TreeFault)
  /-- The passes before should have refused the program. -/
  | internal (fault : InternalFault)
deriving DecidableEq

/-- What a user gets to see of the error. -/
def Error.report : Error → Report
  | .type line fault => .type line fault.message
  | .flow line fault => .flow line fault.message
  | .tree fault => .tree fault.message
  | .internal fault => .internal fault.message

end PostfixCompiler
