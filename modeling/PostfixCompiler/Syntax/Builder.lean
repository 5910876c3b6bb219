import PostfixCompiler.Syntax.Tree

/-!
# Building trees

A tree can be built from the leaves up: each node is added behind the nodes that it refers to and
gets the line that is current at that moment. The finished nodes are read like any others.

## Main definitions

* `PostfixCompiler.TreeBuilder`: the nodes so far and the current line.
* `PostfixCompiler.TreeBuilder.push`: adds a node.
* `PostfixCompiler.TreeBuilder.pushRead`: adds the value of a named variable, which takes two nodes.
* `PostfixCompiler.TreeBuilder.finish`: the tree.
-/

namespace PostfixCompiler

/-- The nodes of a tree under construction. -/
structure TreeBuilder where
  /-- The nodes so far. -/
  nodes : Array Node
  /-- The line of the nodes to come. -/
  line : UInt32

namespace TreeBuilder

/-- No nodes, at line 1. -/
def empty : TreeBuilder := ⟨#[], 1⟩

/-- Sets the line of the nodes to come. -/
def moveTo (b : TreeBuilder) (line : UInt32) : TreeBuilder := { b with line }

/-- Adds a node, and returns its id. -/
def push (b : TreeBuilder) (kind : Kind) : NodeId × TreeBuilder :=
  (.ofIndex b.nodes.size, { b with nodes := b.nodes.push ⟨b.line, kind⟩ })

/-- Adds the place of a variable and the value that it holds, and returns the id of the latter. -/
def pushRead (b : TreeBuilder) (name : String) : NodeId × TreeBuilder :=
  let (place, b) := b.push (.variable name)
  b.push (.rvalue place)

/-- Adds the declaration of an argument. -/
def pushArgument (b : TreeBuilder) (type : Ty) (name : String) : NodeId × TreeBuilder :=
  b.push (.variableDeclaration .private type [name] none)

/-- The tree that the nodes form under the given root. -/
def finish (b : TreeBuilder) (root : NodeId) : Except TreeFault SyntaxTree :=
  SyntaxTree.ofNodes b.nodes root

end TreeBuilder

end PostfixCompiler
