import PostfixCompiler.Json.Value

/-!
# Configuration

A program starts in one of its functions. The configuration names that function and the label under
which the linker looks for it.

## Main definitions

* `PostfixCompiler.Config`, with `PostfixCompiler.Config.default`.
* `PostfixCompiler.Config.ofJson?`, `PostfixCompiler.Config.toJson`.
-/

namespace PostfixCompiler

/-- Settings of code generation. -/
structure Config where
  /-- The function in which the program starts. -/
  entryPoint : String
  /-- The label of that function. -/
  entrySymbol : String
deriving DecidableEq

namespace Config

/-- The program starts in `og`, which the linker knows as `_main`. -/
def default : Config := ⟨"og", "_main"⟩

/-- The configuration that a JSON object describes; what it leaves out is as in the default. -/
def ofJson? : Json → Option Config
  | .object ms => do
    let ms ← (Json.object ms).members? ["entry_point", "entry_symbol"]
    pure ⟨← ms.defaulted? "entry_point" Json.text? default.entryPoint,
      ← ms.defaulted? "entry_symbol" Json.text? default.entrySymbol⟩
  | _ => none

/-- The configuration as JSON. -/
def toJson (c : Config) : Json :=
  .object [("entry_point", .text c.entryPoint), ("entry_symbol", .text c.entrySymbol)]

end Config

end PostfixCompiler
