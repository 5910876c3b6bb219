import PostfixCompiler.Emission.Unit
import PostfixCompiler.Typing.Unit

/-!
# Compiling a unit

A tree is checked, and if it is in order its code is written. The first fault ends the run, and then
there is no code.

## Main definitions

* `PostfixCompiler.Compilation`: the code of a unit and the frames of its functions.
* `PostfixCompiler.compile`: the compilation of a tree.
-/

namespace PostfixCompiler

/-- The code of a unit and the frames of its functions. -/
structure Compilation where
  /-- The code. -/
  code : List Instr
  /-- The frames, in the order of the functions. -/
  frames : List FrameLayout

/-- The compilation of a tree, or the first fault in it. -/
def compile (t : SyntaxTree) (config : Config) : Except Error Compilation := do
  let (types, symbols) ← Typing.checkTree t
  let o := Emission.codeUnit types symbols config t.declarations
  let frames ← o.frames
  pure ⟨o.code, frames⟩

end PostfixCompiler
