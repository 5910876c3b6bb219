import PostfixCompiler.Proofs.Outcome
import PostfixCompiler.Syntax.Tree

/-!
# Inspecting nodes in place

The reading of a tree makes a phrase of each node, and what a child is it finds out from the phrase
of the child. The nodes can also be **inspected in place**: nothing is made of them, the kind of a
child is looked up in the array of nodes, and whether a node has a parent already in an array beside
it. Such a look may go outside of the array, which is an outcome of its own here, unlike every
fault.

The two agree: nodes are read as a tree exactly if their inspection finds nothing, and the fault
that the reading ends with is the one that the inspection ends with. So whatever holds of the
inspection, where it looks included, holds of the reading.

## Main definitions

* `PostfixCompiler.Position.admits`: what a node in a position must be.
* `PostfixCompiler.Kind.positions`: the children of a node with their positions.
* `PostfixCompiler.SyntaxTree.inspect`: the inspection, which stops at a fault or at a look outside.
* `PostfixCompiler.SyntaxTree.Agree`: a part of the reading and a part of the inspection end alike.

## Main statements

* `PostfixCompiler.Kind.map_snd_positions`: every child has a position.
* `PostfixCompiler.SyntaxTree.agree_phrase`: the phrase of a node is made exactly if its children
  are in their places.
* `PostfixCompiler.SyntaxTree.agree_inspect`: the reading and the inspection of nodes end alike.
-/

namespace PostfixCompiler

/-! ### Positions -/

namespace Kind

/-- The node is the unit as a whole. -/
def isProgram : Kind → Bool
  | .program _ => true
  | _ => false

/-- The node declares variables. -/
def isVariableDeclaration : Kind → Bool
  | .variableDeclaration .. => true
  | _ => false

/-- The node is a block. -/
def isBlock : Kind → Bool
  | .block .. => true
  | _ => false

/-- The node has a value: it is an expression that does not denote a place. -/
def isValue (k : Kind) : Bool := k.isExpression && !k.isLvalue

/-- The node declares variables, but names none. -/
def isNameless : Kind → Bool
  | .variableDeclaration _ _ names _ => names.isEmpty
  | _ => false

/-- **The children of a node with their positions**, in the order of their evaluation. -/
def positions : Kind → List (Position × NodeId)
  | .program ds => ds.map (.declaration, ·)
  | .variableDeclaration _ _ _ init => init.toList.map (.value, ·)
  | .functionDeclaration _ _ _ args => args.map (.argument, ·)
  | .functionDefinition _ _ _ args body => args.map (.argument, ·) ++ [(.block, body)]
  | .block ds is => ds.map (.variableDeclaration, ·) ++ is.map (.statement, ·)
  | .ifThen c t => [(.value, c), (.statement, t)]
  | .ifElse c t e => [(.value, c), (.statement, t), (.statement, e)]
  | .forLoop inits c incs body =>
    inits.map (.initializer, ·) ++
      (c.toList.map (.value, ·) ++ (incs.map (.value, ·) ++ [(.statement, body)]))
  | .tupleIndex b _ => [(.expression, b)]
  | .sizeof e => [(.expression, e)]
  | .rvalue p => [(.lvalue, p)]
  | .addressOf p => [(.lvalue, p)]
  | .assignment p v => [(.lvalue, p), (.value, v)]
  | k => k.children.map (.value, ·)

/-- **Every child has a position**, and nothing else has. -/
theorem map_snd_positions (k : Kind) : k.positions.map Prod.snd = k.children := by
  cases k <;> simp [positions, children, Function.comp_def]

end Kind

/-- **What a node in a position must be.** -/
def Position.admits : Position → Kind → Bool
  | .declaration, k => k.isDeclaration
  | .argument, k => k.isVariableDeclaration
  | .block, k => k.isBlock
  | .variableDeclaration, k => k.isVariableDeclaration
  | .statement, k => k.isStatement
  | .value, k => k.isValue
  | .initializer, k => k.isValue || k.isVariableDeclaration
  | .lvalue, k => k.isLvalue
  | .expression, k => k.isExpression

namespace SyntaxTree

/-! ### The inspection -/

/-- What may stop an inspection. -/
inductive Stop where
  /-- A look outside of the array. -/
  | outside
  /-- Something is wrong with the nodes. -/
  | fault (e : TreeFault)

/-- The entry at an index. -/
def look {α : Type} (entries : Array α) (i : Nat) : Except Stop α :=
  match entries[i]? with
  | some a => .ok a
  | none => .error .outside

/-- Notes that the node at `index` refers to `child`, which must be an earlier node without a
parent. -/
def visit (index : Nat) (parents : Array Bool) (child : NodeId) : Except Stop (Array Bool) := do
  if index ≤ child.index then throw (.fault (.notBefore index child))
  if (← look parents child.index) then throw (.fault (.shared child))
  pure (parents.setIfInBounds child.index true)

/-- A child of the node `id` must be what its position needs. -/
def inspectChild (nodes : Array Node) (id : NodeId) (x : Position × NodeId) : Except Stop Unit := do
  let child ← look nodes x.2.index
  if !x.1.admits child.kind then throw (.fault (.misplaced id x.1 x.2))

/-- A declaration of variables must name some, and the children of every node must be what their
positions need. -/
def inspectKind (nodes : Array Node) (id : NodeId) (k : Kind) : Except Stop Unit := do
  if k.isNameless then throw (.fault (.noNames id))
  forM k.positions (inspectChild nodes id)

/-- Inspects the node at `index`: its references first, then what they lead to. -/
def inspectNode (nodes : Array Node) (index : Nat) (parents : Array Bool) (n : Node) :
    Except Stop (Array Bool) := do
  let parents ← n.kind.children.foldlM (visit index) parents
  inspectKind nodes (.ofIndex index) n.kind
  pure parents

/-- Inspects the nodes from an index on, in order. -/
def inspectFrom (nodes : Array Node) : Nat → Array Bool → List Node → Except Stop Unit
  | _, _, [] => pure ()
  | index, parents, n :: ns => do
    let parents ← inspectNode nodes index parents n
    inspectFrom nodes (index + 1) parents ns

/-- **The inspection of nodes**: the root is looked at first, then each node in order. -/
def inspect (nodes : Array Node) (root : NodeId) : Except Stop Unit := do
  if nodes.size ≤ root.index then throw (.fault (.rootMissing root))
  if !(← look nodes root.index).kind.isProgram then throw (.fault (.rootNotProgram root))
  inspectFrom nodes 0 (.replicate nodes.size false) nodes.toList

/-! ### Parts that end alike -/

/-- **A part of the reading and a part of the inspection end alike**: with the same fault, or with
answers that belong together. -/
inductive Agree {α β : Type} (R : α → β → Prop) : Except TreeFault α → Except Stop β → Prop where
  /-- Both end with an answer. -/
  | ok {a : α} {b : β} (h : R a b) : Agree R (.ok a) (.ok b)
  /-- Both end with the same fault. -/
  | fault (e : TreeFault) : Agree R (.error e) (.error (.fault e))

namespace Agree

variable {α β γ δ : Type} {R : α → β → Prop} {R' : γ → δ → Prop}

/-- Two parts one after the other. -/
theorem bind {m : Except TreeFault α} {m' : Except Stop β} {f : α → Except TreeFault γ}
    {f' : β → Except Stop δ} (h : Agree R m m') (hf : ∀ a b, R a b → Agree R' (f a) (f' b)) :
    Agree R' (m >>= f) (m' >>= f') := by
  cases h with
  | ok h => exact hf _ _ h
  | fault e => exact .fault e

theorem imp {R' : α → β → Prop} {m : Except TreeFault α} {m' : Except Stop β} (h : Agree R m m')
    (hR : ∀ a b, R a b → R' a b) : Agree R' m m' := by
  cases h with
  | ok h => exact .ok (hR _ _ h)
  | fault e => exact .fault e

/-- The reading goes on with its answer, of which the inspection has no use. -/
theorem make {R' : γ → β → Prop} {m : Except TreeFault α} {m' : Except Stop β}
    {f : α → Except TreeFault γ} (h : Agree R m m') (hf : ∀ a b, R a b → Agree R' (f a) (.ok b)) :
    Agree R' (m >>= f) m' := by
  cases h with
  | ok h => exact hf _ _ h
  | fault e => exact .fault e

end Agree

/-! ### Phrases and kinds -/

/-- What a position asks of a phrase. -/
def fits (p : Phrase) : Position → Bool
  | .declaration => p.decl?.isSome
  | .argument => p.varDecl?.isSome
  | .block => p.block?.isSome
  | .variableDeclaration => p.varDecl?.isSome
  | .statement => p.stmt?.isSome
  | .value => p.value?.isSome
  | .initializer => p.loopInit?.isSome
  | .lvalue => p.place?.isSome
  | .expression => p.expr?.isSome

/-- **A phrase is one for a kind**: it fits into the positions that admit the kind. -/
def Stands (p : Phrase) (k : Kind) : Prop :=
  ∀ position : Position, fits p position = position.admits k

/-- Only a program has the phrase of a program. -/
theorem Stands.exists_program {p : Phrase} {k : Kind} (h : Stands p k) (hk : k.isProgram = true) :
    ∃ site ds, p = .program site ds := by
  cases k with
  | program ds =>
    cases p with
    | program site ds => exact ⟨site, ds, rfl⟩
    | declaration d => cases h .declaration
    | statement s => cases h .statement
    | expression e => cases h .expression
  | _ => cases hk

section Children

variable {α : Type} {phrases : Array Phrase} {nodes : Array Node} {id : NodeId}
  {position : Position}
  {as? : Phrase → Option α}

/-- The phrase of a child is known, and it is one for the kind of that node. -/
def Known (phrases : Array Phrase) (nodes : Array Node) (child : NodeId) : Prop :=
  ∃ p n, phrases[child.index]? = some p ∧ nodes[child.index]? = some n ∧ Stands p n.kind

theorem agree_expect (has : ∀ p, (as? p).isSome = fits p position) {child : NodeId}
    (h : Known phrases nodes child) :
    Agree (fun _ _ => True) (Forest.expect phrases id position as? child)
      (inspectChild nodes id (position, child)) := by
  obtain ⟨p, n, hp, hn, hstands⟩ := h
  have hfits : (as? p).isSome = position.admits n.kind := (has p).trans (hstands position)
  have hchild : inspectChild nodes id (position, child) =
      if (!position.admits n.kind) = true then
        .error (.fault (.misplaced id position child)) else .ok () := by
    unfold inspectChild look
    rw [hn]
    rfl
  unfold Forest.expect
  rw [hp, Option.bind_some, hchild, ← hfits]
  cases as? p with
  | some a => exact .ok trivial
  | none => exact .fault _

theorem agree_expectOption (has : ∀ p, (as? p).isSome = fits p position) {child : Option NodeId}
    (h : ∀ c ∈ child.toList, Known phrases nodes c) :
    Agree (fun _ _ => True) (Forest.expectOption phrases id position as? child)
      (forM (child.toList.map (position, ·)) (inspectChild nodes id)) := by
  cases child with
  | none => exact .ok trivial
  | some c =>
    have hc : Agree (fun _ _ => True) (Forest.expect phrases id position as? c)
        (inspectChild nodes id (position, c)) :=
      agree_expect has (h c List.mem_cons_self)
    change Agree _ ((Forest.expect phrases id position as? c).map some)
      (inspectChild nodes id (position, c) >>= pure)
    generalize Forest.expect phrases id position as? c = m,
      inspectChild nodes id (position, c) = m' at hc ⊢
    cases hc with
    | ok => exact .ok trivial
    | fault e => exact .fault e

theorem agree_expectAll (has : ∀ p, (as? p).isSome = fits p position) {children : List NodeId}
    (h : ∀ c ∈ children, Known phrases nodes c) :
    Agree (fun _ _ => True) (Forest.expectAll phrases id position as? children)
      (forM (children.map (position, ·)) (inspectChild nodes id)) := by
  unfold Forest.expectAll
  induction children with
  | nil => exact .ok trivial
  | cons c cs ih =>
    rw [List.forall_mem_cons] at h
    rw [List.mapM_cons]
    exact (agree_expect has h.1).bind fun _ _ _ => (ih h.2).make fun _ _ _ => .ok trivial

end Children

section Phrase

variable {phrases : Array Phrase} {nodes : Array Node}

/-- **The phrase of a node is made exactly if its children are in their places**, and is one for its
kind. -/
theorem agree_phrase {site : Site} {k : Kind} (h : ∀ c ∈ k.children, Known phrases nodes c) :
    Agree (fun p _ => Stands p k) (Forest.phrase phrases site k) (inspectKind nodes site.id k) := by
  cases k with
  | «break» | «continue» | integer | double | string | nullptr | input | «variable» =>
    exact .ok fun position => by cases position <;> rfl
  | program cs | write cs | tuple cs =>
    exact (agree_expectAll (fun _ => rfl) h).make fun _ _ _ => .ok fun position => by
      cases position <;> rfl
  | functionDeclaration _ _ _ cs | functionCall _ cs =>
    exact (agree_expectAll (fun _ => rfl) h).make fun _ _ _ => .ok fun position => by
      cases position <;> rfl
  | «return» v =>
    exact (agree_expectOption (fun _ => rfl) h).make fun _ _ _ => .ok fun position => by
      cases position <;> rfl
  | variableDeclaration q t names init =>
    cases names with
    | nil => exact .fault _
    | cons name names =>
      exact (agree_expectOption (fun _ => rfl) h).make fun _ _ _ => .ok fun position => by
        cases position <;> rfl
  | evaluation e | tupleIndex e | rvalue e | addressOf e | unary op e | stackAlloc e | sizeof e =>
    refine .bind (agree_expect (fun _ => rfl) (h e List.mem_cons_self)) fun _ _ _ => ?_
    exact .ok fun position => by cases position <;> rfl
  | ifThen a b | pointerIndex a b | assignment a b | binary op a b =>
    refine .bind (agree_expect (fun _ => rfl) (h a (by simp [Kind.children]))) fun _ _ _ => ?_
    refine .bind (agree_expect (fun _ => rfl) (h b (by simp [Kind.children]))) fun _ _ _ => ?_
    exact .ok fun position => by cases position <;> rfl
  | ifElse c t e =>
    refine .bind (agree_expect (fun _ => rfl) (h c (by simp [Kind.children]))) fun _ _ _ => ?_
    refine .bind (agree_expect (fun _ => rfl) (h t (by simp [Kind.children]))) fun _ _ _ => ?_
    refine .bind (agree_expect (fun _ => rfl) (h e (by simp [Kind.children]))) fun _ _ _ => ?_
    exact .ok fun position => by cases position <;> rfl
  | functionDefinition q t name args body =>
    simp only [inspectKind, Kind.positions, List.forM_append]
    refine .bind (agree_expectAll (fun _ => rfl) fun c hc => h c (List.mem_append_left _ hc))
      fun _ _ _ => ?_
    refine .bind (agree_expect (fun _ => rfl) (h body (by simp [Kind.children]))) fun _ _ _ => ?_
    exact .ok fun position => by cases position <;> rfl
  | block ds body =>
    simp only [inspectKind, Kind.positions, List.forM_append]
    refine .bind (agree_expectAll (fun _ => rfl) fun c hc => h c (List.mem_append_left _ hc))
      fun _ _ _ => ?_
    refine .make (agree_expectAll (fun _ => rfl) fun c hc => h c (List.mem_append_right _ hc))
      fun _ _ _ => ?_
    exact .ok fun position => by cases position <;> rfl
  | forLoop inits c incs body =>
    simp only [inspectKind, Kind.positions, List.forM_append]
    have hinits : ∀ i ∈ inits, Known phrases nodes i :=
      fun i hi => h i (by simp [Kind.children, hi])
    have hc : ∀ i ∈ c.toList, Known phrases nodes i := fun i hi =>
      h i (List.mem_append_left _ (List.mem_append_left _ (List.mem_append_right _ hi)))
    have hincs : ∀ i ∈ incs, Known phrases nodes i := fun i hi => h i (by simp [Kind.children, hi])
    refine .bind (agree_expectAll (fun _ => rfl) hinits) fun _ _ _ => ?_
    refine .bind (agree_expectOption (fun _ => rfl) hc) fun _ _ _ => ?_
    refine .bind (agree_expectAll (fun _ => rfl) hincs) fun _ _ _ => ?_
    refine .bind (agree_expect (fun _ => rfl) (h body (by simp [Kind.children]))) fun _ _ _ => ?_
    exact .ok fun position => by cases position <;> rfl

end Phrase

/-! ### Parents -/

/-- **Two arrays say the same of the parents**: that of the inspection has an entry for every node,
that of the reading for the nodes read so far. -/
def SameParents (size : Nat) (taken parents : Array Bool) : Prop :=
  ∀ i, parents[i]? = if i < size then some (taken[i]?.getD false) else none

section Parents

variable {size index : Nat} {taken parents : Array Bool}

theorem sameParents_empty (size : Nat) : SameParents size #[] (.replicate size false) := by
  intro i
  rw [Array.getElem?_replicate]
  rfl

theorem SameParents.push (h : SameParents size taken parents) :
    SameParents size (taken.push false) parents := by
  intro i
  rw [h i, Array.getElem?_push]
  by_cases hi : i = taken.size
  · rw [if_pos hi, hi, Array.getElem?_eq_none (Nat.le_refl _)]
    rfl
  · rw [if_neg hi]

theorem SameParents.set (h : SameParents size taken parents) {child : Nat}
    (hchild : child < taken.size) (hsize : child < size) :
    SameParents size (taken.setIfInBounds child true) (parents.setIfInBounds child true) := by
  intro i
  have hparents : child < parents.size := by
    have hsome := h child
    rw [if_pos hsize] at hsome
    exact (Array.getElem?_eq_some_iff.mp hsome).1
  rw [Array.getElem?_setIfInBounds, Array.getElem?_setIfInBounds]
  by_cases hi : child = i
  · subst hi
    rw [if_pos rfl, if_pos rfl, if_pos hparents, if_pos hchild, if_pos hsize]
    rfl
  · rw [if_neg hi, if_neg hi, h i]

/-- **A reference is noted alike**, and leads to an earlier node. -/
theorem agree_visit (h : SameParents size taken parents) (hindex : taken.size = index)
    (hsize : index ≤ size) (child : NodeId) :
    Agree (fun taken' parents' => (SameParents size taken' parents' ∧ taken'.size = index) ∧
      child.index < index)
      (Forest.take taken index child) (visit index parents child) := by
  unfold Forest.take visit look
  by_cases hle : index ≤ child.index
  · rw [if_pos hle, Array.getElem?_eq_none (hindex ▸ hle)]
    exact .fault _
  · have hlt : child.index < taken.size := hindex ▸ Nat.lt_of_not_le hle
    have hlt' : child.index < size := Nat.lt_of_lt_of_le (Nat.lt_of_not_le hle) hsize
    have hparent := h child.index
    rw [if_pos hlt', Array.getElem?_eq_getElem hlt, Option.getD_some] at hparent
    rw [if_neg hle, hparent, Array.getElem?_eq_getElem hlt]
    cases taken[child.index] with
    | true => exact .fault _
    | false => exact .ok ⟨⟨h.set hlt hlt', Array.size_setIfInBounds.trans hindex⟩, hindex ▸ hlt⟩

/-- The references of a node are noted alike, and lead to earlier nodes. -/
theorem agree_visits (h : SameParents size taken parents) (hindex : taken.size = index)
    (hsize : index ≤ size) (children : List NodeId) :
    Agree (fun taken' parents' =>
        (SameParents size taken' parents' ∧ taken'.size = index) ∧ ∀ c ∈ children, c.index < index)
      (children.foldlM (fun taken child => Forest.take taken index child) taken)
      (children.foldlM (visit index) parents) := by
  induction children generalizing taken parents with
  | nil => exact .ok ⟨⟨h, hindex⟩, fun _ hc => by cases hc⟩
  | cons c cs ih =>
    rw [List.foldlM_cons, List.foldlM_cons]
    refine (agree_visit h hindex hsize c).bind fun _ _ ⟨⟨h, hindex⟩, hc⟩ => ?_
    exact (ih h hindex).imp fun _ _ ⟨h, hcs⟩ => ⟨h, List.forall_mem_cons.mpr ⟨hc, hcs⟩⟩

end Parents

/-! ### Nodes -/

/-- **What is read so far** is in line with the nodes and with what is inspected so far. -/
structure Mirrors (nodes : Array Node) (f : Forest) (parents : Array Bool) : Prop where
  /-- Every phrase is either taken or not. -/
  size_eq : f.taken.size = f.phrases.size
  /-- Each phrase is one for the kind of its node. -/
  stands : ∀ (i : Nat) (p : Phrase), f.phrases[i]? = some p →
    ∃ n : Node, nodes[i]? = some n ∧ Stands p n.kind
  /-- The same is known of the parents. -/
  parents : SameParents nodes.size f.taken parents

variable {nodes : Array Node} {f : Forest} {parents : Array Bool}

theorem Mirrors.empty (nodes : Array Node) :
    Mirrors nodes .empty (.replicate nodes.size false) where
  size_eq := rfl
  stands _ _ h := by cases h
  parents := sameParents_empty _

/-- The phrases of earlier nodes are known. -/
theorem Mirrors.known (h : Mirrors nodes f parents) {child : NodeId}
    (hchild : child.index < f.phrases.size) :
    Known f.phrases nodes child := by
  have hp := Array.getElem?_eq_getElem hchild
  obtain ⟨n, hn, hstands⟩ := h.stands _ _ hp
  exact ⟨_, n, hp, hn, hstands⟩

/-- One more phrase is one for the kind of its node. -/
theorem Mirrors.push (h : Mirrors nodes f parents) {n : Node}
    (hn : nodes[f.phrases.size]? = some n) {p : Phrase} (hp : Stands p n.kind)
    {taken parents' : Array Bool}
    (htaken : SameParents nodes.size taken parents') (hsize : taken.size = f.phrases.size) :
    Mirrors nodes ⟨f.phrases.push p, taken.push false⟩ parents' where
  size_eq := by rw [Array.size_push, Array.size_push, hsize]
  stands i q hq := by
    rw [Array.getElem?_push] at hq
    split at hq
    · next hi =>
      cases hq
      exact ⟨n, hi ▸ hn, hp⟩
    · exact h.stands i q hq
  parents := htaken.push

/-- **A node is read and inspected alike.** -/
theorem agree_read (h : Mirrors nodes f parents) {n : Node} (hn : nodes[f.phrases.size]? = some n) :
    Agree (fun g parents' => Mirrors nodes g parents' ∧
      g.phrases.size = f.phrases.size + 1) (f.read n)
      (inspectNode nodes f.phrases.size parents n) := by
  have hlt : f.phrases.size < nodes.size := (Array.getElem?_eq_some_iff.mp hn).1
  refine (agree_visits h.parents h.size_eq (Nat.le_of_lt hlt) n.kind.children).bind
    fun taken parents' hvisits => ?_
  obtain ⟨⟨htaken, hsize⟩, hbefore⟩ := hvisits
  -- The references lead to earlier nodes, so all of the phrases that are asked for are known.
  refine (agree_phrase fun c hc => h.known (hbefore c hc)).bind fun p _ hp => ?_
  exact .ok ⟨h.push hn hp htaken hsize, Array.size_push ..⟩

/-- **The nodes are read and inspected alike**, from any node on. -/
theorem agree_inspectFrom (h : Mirrors nodes f parents) {ns : List Node}
    (hns : ∀ i, nodes[f.phrases.size + i]? = ns[i]?) :
    Agree (fun g _ => ∃ parents', Mirrors nodes g parents' ∧
      g.phrases.size = f.phrases.size + ns.length)
      (ns.foldlM Forest.read f) (inspectFrom nodes f.phrases.size parents ns) := by
  induction ns generalizing f parents with
  | nil => exact .ok ⟨parents, h, rfl⟩
  | cons n ns ih =>
    rw [List.foldlM_cons]
    refine (agree_read h (hns 0)).bind fun g parents' ⟨hg, hsize⟩ => ?_
    have hrest := ih hg fun i => by
      rw [hsize, Nat.add_right_comm]
      exact hns (i + 1)
    rw [hsize, Nat.add_right_comm] at hrest
    exact hrest

/-- **The reading and the inspection of nodes end alike.** -/
theorem agree_inspect (nodes : Array Node) (root : NodeId) :
    Agree (fun t _ => t.nodes = nodes ∧ t.root = root) (ofNodes nodes root)
      (inspect nodes root) := by
  unfold ofNodes inspect look
  by_cases hsize : nodes.size ≤ root.index
  · rw [if_pos hsize, Array.getElem?_eq_none hsize]
    exact .fault _
  rw [if_neg hsize]
  have hlt := Nat.lt_of_not_le hsize
  obtain ⟨⟨line, kind⟩, hroot⟩ : ∃ n, nodes[root.index]? = some n :=
    ⟨_, Array.getElem?_eq_getElem hlt⟩
  rw [hroot]
  cases kind with
  | program ds =>
    have hall : ∀ i : Nat, nodes[Forest.empty.phrases.size + i]? = nodes.toList[i]? := fun i => by
      rw [Array.getElem?_toList]
      exact congrArg (nodes[·]?) (Nat.zero_add i)
    refine (agree_inspectFrom (.empty nodes) hall).make fun f _ ⟨_, hf, hlength⟩ => ?_
    rw [Array.length_toList, show Forest.empty.phrases.size = 0 from rfl, Nat.zero_add] at hlength
    -- The phrase of the root is one for its kind, so it is that of a program.
    have hphrase := Array.getElem?_eq_getElem (hlength ▸ hlt : root.index < f.phrases.size)
    obtain ⟨n, hn, hstands⟩ := hf.stands _ _ hphrase
    cases hroot.symm.trans hn
    obtain ⟨site, ds, hp⟩ := hstands.exists_program rfl
    rw [hphrase, hp]
    exact .ok ⟨rfl, rfl⟩
  | _ => exact .fault _

/-- A tree has the nodes and the root that it was read from. -/
theorem eq_of_ofNodes {nodes : Array Node} {root : NodeId} {t : SyntaxTree}
    (h : ofNodes nodes root = .ok t) :
    t.nodes = nodes ∧ t.root = root := by
  have hagree := agree_inspect nodes root
  rw [h] at hagree
  generalize inspect nodes root = r at hagree
  cases hagree with
  | ok ht => exact ht

end SyntaxTree

end PostfixCompiler
