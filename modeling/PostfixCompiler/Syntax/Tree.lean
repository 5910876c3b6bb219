import PostfixCompiler.Error.Fault
import PostfixCompiler.Syntax.Phrase

/-!
# Syntax trees

An array of nodes forms a tree of the language if every node refers to earlier nodes only, no two
references lead to the same node, and every node is what the one above it needs there. The nodes are
read once, from the first to the last, and the phrase of each is made from the phrases before it; so
whatever is accepted comes with its phrases. Nodes that the root does not reach have phrases too.

## Main definitions

* `PostfixCompiler.SyntaxTree`: the nodes of a unit with their phrases.
* `PostfixCompiler.SyntaxTree.ofNodes`: reads the nodes, or says what is wrong with them.
* `PostfixCompiler.SyntaxTree.declarations`: the declarations of the unit.
-/

namespace PostfixCompiler

/-- What is known of the nodes read so far. -/
structure Forest where
  /-- Their phrases, in order. -/
  phrases : Array Phrase
  /-- Whether a later node refers to them, in order. -/
  taken : Array Bool

namespace Forest

/-- No node is read yet. -/
def empty : Forest := ⟨#[], #[]⟩

/-- Notes that the next node refers to `child`, which must be an earlier node that no other
reference leads to. -/
def take (taken : Array Bool) (index : Nat) (child : NodeId) : Except TreeFault (Array Bool) :=
  match taken[child.index]? with
  | none => .error (.notBefore index child)
  | some true => .error (.shared child)
  | some false => .ok (taken.setIfInBounds child.index true)

/-- The phrase of `child` as what the node `id` needs there. -/
def expect {α : Type} (phrases : Array Phrase) (id : NodeId) (position : Position)
    (as? : Phrase → Option α) (child : NodeId) : Except TreeFault α :=
  match phrases[child.index]?.bind as? with
  | some a => .ok a
  | none => .error (.misplaced id position child)

/-- The phrase of an optional child. -/
def expectOption {α : Type} (phrases : Array Phrase) (id : NodeId) (position : Position)
    (as? : Phrase → Option α) : Option NodeId → Except TreeFault (Option α)
  | none => .ok none
  | some child => (expect phrases id position as? child).map some

/-- The phrases of several children. -/
def expectAll {α : Type} (phrases : Array Phrase) (id : NodeId) (position : Position)
    (as? : Phrase → Option α) (children : List NodeId) : Except TreeFault (List α) :=
  children.mapM (expect phrases id position as?)

/-- The phrase of a node, from the phrases of the nodes before it. -/
def phrase (phrases : Array Phrase) (site : Site) : Kind → Except TreeFault Phrase
  | .program ds => do
    let ds ← expectAll phrases site.id .declaration Phrase.decl? ds
    pure (.program site ds)
  | .variableDeclaration q t names init => do
    if names.isEmpty then throw (.noNames site.id)
    let init ← expectOption phrases site.id .value Phrase.value? init
    pure (.declaration (.variable ⟨site, q, t, names, init⟩))
  | .functionDeclaration q t name args => do
    let args ← expectAll phrases site.id .argument Phrase.varDecl? args
    pure (.declaration (.declare ⟨site, q, t, name, args⟩))
  | .functionDefinition q t name args body => do
    let args ← expectAll phrases site.id .argument Phrase.varDecl? args
    let body ← expect phrases site.id .block Phrase.block? body
    pure (.declaration (.define ⟨⟨site, q, t, name, args⟩, body⟩))
  | .block ds body => do
    let ds ← expectAll phrases site.id .variableDeclaration Phrase.varDecl? ds
    let body ← expectAll phrases site.id .statement Phrase.stmt? body
    pure (.statement (.block site ds body))
  | .evaluation e => do
    let e ← expect phrases site.id .value Phrase.value? e
    pure (.statement (.evaluation site e))
  | .write args newline => do
    let args ← expectAll phrases site.id .value Phrase.value? args
    pure (.statement (.write site args newline))
  | .ifThen c t => do
    let c ← expect phrases site.id .value Phrase.value? c
    let t ← expect phrases site.id .statement Phrase.stmt? t
    pure (.statement (.ifThen site c t))
  | .ifElse c t e => do
    let c ← expect phrases site.id .value Phrase.value? c
    let t ← expect phrases site.id .statement Phrase.stmt? t
    let e ← expect phrases site.id .statement Phrase.stmt? e
    pure (.statement (.ifElse site c t e))
  | .forLoop inits c incs body => do
    let inits ← expectAll phrases site.id .initializer Phrase.loopInit? inits
    let c ← expectOption phrases site.id .value Phrase.value? c
    let incs ← expectAll phrases site.id .value Phrase.value? incs
    let body ← expect phrases site.id .statement Phrase.stmt? body
    pure (.statement (.forLoop site inits c incs body))
  | .break => pure (.statement (.break site))
  | .continue => pure (.statement (.continue site))
  | .return v => do
    let v ← expectOption phrases site.id .value Phrase.value? v
    pure (.statement (.return site v))
  | .integer n => pure (.expression (.integer site n))
  | .double d => pure (.expression (.double site d))
  | .string s => pure (.expression (.string site s))
  | .nullptr => pure (.expression (.nullptr site))
  | .input => pure (.expression (.input site))
  | .variable name => pure (.expression (.variable site name))
  | .pointerIndex b i => do
    let b ← expect phrases site.id .value Phrase.value? b
    let i ← expect phrases site.id .value Phrase.value? i
    pure (.expression (.pointerIndex site b i))
  | .tupleIndex b i => do
    let b ← expect phrases site.id .expression Phrase.expr? b
    pure (.expression (.tupleIndex site b i))
  | .rvalue p => do
    let p ← expect phrases site.id .lvalue Phrase.place? p
    pure (.expression (.rvalue site p))
  | .addressOf p => do
    let p ← expect phrases site.id .lvalue Phrase.place? p
    pure (.expression (.addressOf site p))
  | .assignment p v => do
    let p ← expect phrases site.id .lvalue Phrase.place? p
    let v ← expect phrases site.id .value Phrase.value? v
    pure (.expression (.assignment site p v))
  | .unary op a => do
    let a ← expect phrases site.id .value Phrase.value? a
    pure (.expression (.unary site op a))
  | .binary op l r => do
    let l ← expect phrases site.id .value Phrase.value? l
    let r ← expect phrases site.id .value Phrase.value? r
    pure (.expression (.binary site op l r))
  | .stackAlloc n => do
    let n ← expect phrases site.id .value Phrase.value? n
    pure (.expression (.stackAlloc site n))
  | .sizeof e => do
    let e ← expect phrases site.id .expression Phrase.expr? e
    pure (.expression (.sizeof site e))
  | .tuple es => do
    let es ← expectAll phrases site.id .value Phrase.value? es
    pure (.expression (.tuple site es))
  | .functionCall name args => do
    let args ← expectAll phrases site.id .value Phrase.value? args
    pure (.expression (.call site name args))

/-- Reads the next node: its references first, then what they lead to. -/
def read (f : Forest) (node : Node) : Except TreeFault Forest := do
  let index := f.phrases.size
  let taken ← node.kind.children.foldlM (fun taken child => take taken index child) f.taken
  let p ← phrase f.phrases ⟨.ofIndex index, node.line⟩ node.kind
  pure ⟨f.phrases.push p, taken.push false⟩

end Forest

/-- The nodes of a unit, with the phrase of each. -/
structure SyntaxTree where
  /-- The nodes. -/
  nodes : Array Node
  /-- The node of the unit itself. -/
  root : NodeId
  /-- The phrases of the nodes, in order. -/
  phrases : Array Phrase
  /-- The declarations of the unit. -/
  declarations : List Decl

namespace SyntaxTree

/-- The nodes and the root as a tree of the language, or what is wrong with them. The root is looked
at first, then each node in order. -/
def ofNodes (nodes : Array Node) (root : NodeId) : Except TreeFault SyntaxTree := do
  match nodes[root.index]? with
  | none => throw (.rootMissing root)
  | some ⟨_, .program _⟩ => pure ()
  | some _ => throw (.rootNotProgram root)
  let f ← nodes.toList.foldlM Forest.read Forest.empty
  match f.phrases[root.index]? with
  | some (.program _ ds) => pure ⟨nodes, root, f.phrases, ds⟩
  | _ => throw (.rootNotProgram root)

/-- The phrase of a node. -/
def phrase? (t : SyntaxTree) (id : NodeId) : Option Phrase := t.phrases[id.index]?

/-- The kind of a node. -/
def kind? (t : SyntaxTree) (id : NodeId) : Option Kind := t.nodes[id.index]?.map Node.kind

/-- The number of nodes. -/
def size (t : SyntaxTree) : Nat := t.nodes.size

end SyntaxTree

end PostfixCompiler
