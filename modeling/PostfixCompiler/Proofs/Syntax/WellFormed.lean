import Mathlib.Data.List.Induction
import Mathlib.Data.List.Nodup
import PostfixCompiler.Proofs.Syntax.Ids
import PostfixCompiler.Proofs.Syntax.Inspect

/-!
# Which nodes form a tree

Nodes form a tree of the language exactly if they are **well-formed**, and that can be said without
an order in which they are looked at: the root is a program, children come before their parents, no
reference leads to where another one leads to, declarations of variables name some, and every child
is what its position needs. The inspection of nodes decides this, and it never looks outside of the
array, whatever the ids are; so does the reading, which ends like it.

In a tree a chain of child steps gets shorter with each step that is taken, because children come
first, and no two chains from the root lead to the same node, because no two references do.

## Main definitions

* `PostfixCompiler.SyntaxTree.WellFormed`: nodes form a tree of the language.
* `PostfixCompiler.SyntaxTree.Decides`: an inspection decides whether something holds, and never
  looks outside.
* `PostfixCompiler.SyntaxTree.descend?`: the node at the end of a chain of child steps.

## Main statements

* `PostfixCompiler.SyntaxTree.decides_inspect`: the inspection decides whether nodes are
  well-formed.
* `PostfixCompiler.SyntaxTree.WellFormed.unique_descent`,
  `PostfixCompiler.SyntaxTree.WellFormed.length_add_index_le`: at most one chain of child steps
  leads from the root to a node, and every chain ends.
* `PostfixCompiler.SyntaxTree.ofNodes_decides`: nodes are read as a tree exactly if they are
  well-formed.
-/

namespace PostfixCompiler

namespace SyntaxTree

/-! ### Well-formed nodes -/

/-- The child is a node that its position admits. -/
def Placed (nodes : Array Node) (x : Position × NodeId) : Prop :=
  ∃ m : Node, nodes[x.2.index]? = some m ∧ x.1.admits m.kind = true

/-- **A node at an index is well-formed.** -/
structure NodeWellFormed (nodes : Array Node) (index : Nat) (n : Node) : Prop where
  /-- Its children come before it. -/
  before : ∀ c ∈ n.kind.children, c.index < index
  /-- If it declares variables, it names some. -/
  named : ∀ q t names init, n.kind = .variableDeclaration q t names init → names ≠ []
  /-- Its children are what their positions need. -/
  placed : ∀ x ∈ n.kind.positions, Placed nodes x

/-- **Nodes form a tree of the language.** -/
structure WellFormed (nodes : Array Node) (root : NodeId) : Prop where
  /-- The root is a program. -/
  root : ∃ n : Node, nodes[root.index]? = some n ∧ n.kind.isProgram = true
  /-- Every node is well-formed. -/
  node : ∀ (i : Nat) (n : Node), nodes[i]? = some n → NodeWellFormed nodes i n
  /-- No two references lead to the same node. -/
  once : (nodes.toList.flatMap fun n => n.kind.children).Nodup

/-! ### Inspections that decide -/

/-- **An inspection decides whether `P` holds**: it ends with an answer, of which `Q` is true,
exactly if it does, and with a fault otherwise. It never looks outside. -/
inductive Decides {α : Type} (P : Prop) (Q : α → Prop) : Except Stop α → Prop where
  /-- It holds. -/
  | ok {a : α} (h : P) (ha : Q a) : Decides P Q (.ok a)
  /-- It does not hold. -/
  | fault {e : TreeFault} (h : ¬P) : Decides P Q (.error (.fault e))

namespace Decides

variable {α β : Type} {P P' : Prop} {Q : α → Prop} {Q' : β → Prop} {m : Except Stop α}

/-- Two inspections one after the other. -/
theorem bind {f : α → Except Stop β} (h : Decides P Q m) (hf : ∀ a, P → Q a → Decides P' Q' (f a)) :
    Decides (P ∧ P') Q' (m >>= f) := by
  cases h with
  | @ok a h ha =>
    change Decides (P ∧ P') Q' (f a)
    generalize f a = r, hf a h ha = hr
    cases hr with
    | ok h' hb => exact .ok ⟨h, h'⟩ hb
    | fault h' => exact .fault fun hp => h' hp.2
  | fault h => exact .fault fun hp => h hp.1

theorem congr (h : Decides P Q m) (hP : P ↔ P') : Decides P' Q m := by
  cases h with
  | ok h ha => exact .ok (hP.mp h) ha
  | fault h => exact .fault fun hp => h (hP.mpr hp)

/-- A test that ends with a fault if something does not hold, and goes on otherwise. -/
theorem test {c : Bool} {e : TreeFault} {m : Except Stop β} (h : c = true ↔ ¬P)
    (hm : P → Decides P' Q' m) :
    Decides (P ∧ P') Q' (if c = true then .error (.fault e) else m) := by
  by_cases hc : c = true
  · rw [if_pos hc]
    exact .fault fun hp => h.mp hc hp.1
  · rw [if_neg hc]
    have hp : P := not_not.mp fun hp => hc (h.mpr hp)
    exact (hm hp).congr ⟨fun hp' => ⟨hp, hp'⟩, And.right⟩

end Decides

/-! ### References -/

/-- **The array beside the nodes marks the children** that were met: its entries say which nodes
these are. -/
structure Marks (size : Nat) (met : List NodeId) (parents : Array Bool) : Prop where
  /-- There is an entry for every node. -/
  size_eq : parents.size = size
  /-- The entry of a child says so. -/
  entry : ∀ c : NodeId, c.index < size → parents[c.index]? = some (decide (c ∈ met))

private theorem nodup_meet {met : List NodeId} {c : NodeId} :
    (met ++ [c]).Nodup ↔ met.Nodup ∧ c ∉ met := by
  rw [List.nodup_append_comm, List.singleton_append, List.nodup_cons, and_comm]

section References

variable {size index : Nat} {met : List NodeId} {parents : Array Bool}

theorem marks_nil (size : Nat) : Marks size [] (.replicate size false) where
  size_eq := Array.size_replicate
  entry c hc := by
    rw [Array.getElem?_replicate, if_pos hc]
    rfl

/-- One more child is met. -/
theorem Marks.meet (h : Marks size met parents) {child : NodeId} (hchild : child.index < size) :
    Marks size (met ++ [child]) (parents.setIfInBounds child.index true) where
  size_eq := Array.size_setIfInBounds.trans h.size_eq
  entry c hc := by
    rw [Array.getElem?_setIfInBounds]
    by_cases heq : child.index = c.index
    · rw [if_pos heq, if_pos (h.size_eq ▸ hchild), NodeId.index_injective heq]
      simp
    · have hne : c ≠ child := fun h => heq (congrArg NodeId.index h).symm
      rw [if_neg heq, h.entry c hc]
      simp [hne]

/-- **One reference**: it must lead to an earlier node that no reference led to so far. -/
theorem decides_visit (h : Marks size met parents) (hsize : index ≤ size) (child : NodeId) :
    Decides (child.index < index ∧ child ∉ met) (Marks size (met ++ [child]))
      (visit index parents child) := by
  unfold visit look
  by_cases hle : index ≤ child.index
  · rw [if_pos hle]
    exact .fault fun hp => Nat.not_le_of_lt hp.1 hle
  · have hlt := Nat.lt_of_not_le hle
    have hchild := Nat.lt_of_lt_of_le hlt hsize
    rw [if_neg hle, h.entry child hchild]
    by_cases hmet : child ∈ met
    · rw [decide_eq_true hmet]
      exact .fault fun hp => hp.2 hmet
    · rw [decide_eq_false hmet]
      exact .ok ⟨hlt, hmet⟩ (h.meet hchild)

/-- **The references of a node** must lead to earlier nodes, no two to the same one. -/
theorem decides_visits (h : Marks size met parents) (hmet : met.Nodup) (hsize : index ≤ size)
    (children : List NodeId) :
    Decides ((∀ c ∈ children, c.index < index) ∧ (met ++ children).Nodup)
      (Marks size (met ++ children)) (children.foldlM (visit index) parents) := by
  induction children generalizing met parents with
  | nil =>
    rw [List.append_nil]
    exact .ok ⟨fun _ hc => (by cases hc), hmet⟩ h
  | cons c cs ih =>
    rw [List.foldlM_cons, List.append_cons]
    have hall := (decides_visit h hsize c).bind fun _ ⟨_, hfresh⟩ hmarks =>
      ih hmarks (nodup_meet.mpr ⟨hmet, hfresh⟩)
    refine hall.congr ⟨fun ⟨⟨hc, _⟩, hcs, hnodup⟩ => ?_, fun ⟨hcs, hnodup⟩ => ?_⟩
    · exact ⟨List.forall_mem_cons.mpr ⟨hc, hcs⟩, hnodup⟩
    · obtain ⟨hc, hcs⟩ := List.forall_mem_cons.mp hcs
      exact ⟨⟨hc, (nodup_meet.mp (List.nodup_append.mp hnodup).1).2⟩, hcs, hnodup⟩

end References

/-! ### Nodes -/

section Nodes

variable {nodes : Array Node} {met : List NodeId} {parents : Array Bool}

/-- **The children of a node** must be what their positions need. All of them are inside of the
array. -/
theorem decides_children (id : NodeId) {xs : List (Position × NodeId)}
    (hxs : ∀ x ∈ xs, x.2.index < nodes.size) :
    Decides (∀ x ∈ xs, Placed nodes x) (fun _ => True) (forM xs (inspectChild nodes id)) := by
  induction xs with
  | nil => exact .ok (fun _ hx => by cases hx) trivial
  | cons x xs ih =>
    rw [List.forall_mem_cons] at hxs
    have hx : Decides (Placed nodes x) (fun _ => True) (inspectChild nodes id x) := by
      unfold Placed inspectChild look
      rw [Array.getElem?_eq_getElem hxs.1]
      exact (Decides.test (by simp) fun _ => .ok trivial trivial).congr (and_iff_left trivial)
    rw [List.forM_cons]
    exact (hx.bind fun _ _ _ => ih hxs.2).congr List.forall_mem_cons.symm

/-- **What a node needs**: a declaration of variables names, and the children what their positions
need. -/
theorem decides_kind (id : NodeId) {k : Kind} (hk : ∀ c ∈ k.children, c.index < nodes.size) :
    Decides ((∀ q t names init, k = .variableDeclaration q t names init → names ≠ []) ∧
        ∀ x ∈ k.positions, Placed nodes x) (fun _ => True)
      (inspectKind nodes id k) := by
  have hnamed : k.isNameless = true ↔ ¬∀ q t names init, k = .variableDeclaration q t names init →
      names ≠ [] := by
    cases k <;> simp [Kind.isNameless]
  refine .test hnamed fun _ => decides_children id fun x hx => hk x.2 ?_
  rw [← k.map_snd_positions]
  exact List.mem_map_of_mem hx

/-- **One node** must be well-formed, and its references lead to nodes that none led to so far. -/
theorem decides_node (h : Marks nodes.size met parents) (hmet : met.Nodup) {index : Nat}
    (hindex : index ≤ nodes.size) (n : Node) :
    Decides (NodeWellFormed nodes index n ∧ (met ++ n.kind.children).Nodup)
      (Marks nodes.size (met ++ n.kind.children)) (inspectNode nodes index parents n) := by
  have hall :=
    (decides_visits h hmet hindex n.kind.children).bind fun parents' ⟨hbefore, _⟩ hmarks =>
    (decides_kind (.ofIndex index) fun c hc => Nat.lt_of_lt_of_le (hbefore c hc) hindex).bind
      fun _ _ _ => Decides.ok (P := True) trivial hmarks
  exact hall.congr ⟨fun ⟨⟨hbefore, hnodup⟩, ⟨hnamed, hplaced⟩, _⟩ =>
    ⟨⟨hbefore, hnamed, hplaced⟩, hnodup⟩,
    fun ⟨hn, hnodup⟩ => ⟨⟨hn.before, hnodup⟩, ⟨hn.named, hn.placed⟩, trivial⟩⟩

/-- **The nodes from an index on** must be well-formed, and no two references lead to the same
node. -/
theorem decides_from (h : Marks nodes.size met parents) (hmet : met.Nodup) {index : Nat}
    {ns : List Node} (hindex : index + ns.length ≤ nodes.size) :
    Decides ((∀ i n, ns[i]? = some n → NodeWellFormed nodes (index + i) n) ∧
        (met ++ ns.flatMap fun n => n.kind.children).Nodup) (fun _ => True)
      (inspectFrom nodes index parents ns) := by
  induction ns generalizing met parents index with
  | nil =>
    rw [List.flatMap_nil, List.append_nil]
    exact .ok ⟨fun _ _ hn => (by cases hn), hmet⟩ trivial
  | cons n ns ih =>
    rw [List.length_cons] at hindex
    rw [List.flatMap_cons, ← List.append_assoc]
    have hall :=
      (decides_node h hmet (by omega : index ≤ nodes.size) n).bind fun _ ⟨_, hnodup⟩ hmarks =>
      ih hmarks hnodup (by omega : index + 1 + ns.length ≤ nodes.size)
    refine hall.congr ⟨fun ⟨⟨hn, _⟩, hns, hnodup⟩ => ⟨fun i m hm => ?_, hnodup⟩,
      fun ⟨hns, hnodup⟩ => ?_⟩
    · cases i with
      | zero =>
        cases hm
        exact hn
      | succ i =>
        rw [← Nat.add_assoc, Nat.add_right_comm]
        exact hns i m hm
    · refine ⟨⟨hns 0 n rfl, (List.nodup_append.mp hnodup).1⟩, fun i m hm => ?_, hnodup⟩
      rw [Nat.add_right_comm, Nat.add_assoc]
      exact hns (i + 1) m hm

/-- **The inspection decides whether nodes are well-formed**, and never looks outside of the
array. -/
theorem decides_inspect (nodes : Array Node) (root : NodeId) :
    Decides (WellFormed nodes root) (fun _ => True) (inspect nodes root) := by
  unfold inspect look
  by_cases hroot : nodes.size ≤ root.index
  · rw [if_pos hroot]
    refine .fault fun h => ?_
    obtain ⟨n, hn, -⟩ := h.root
    exact Nat.not_lt_of_le hroot (Array.getElem?_eq_some_iff.mp hn).1
  · have hn := Array.getElem?_eq_getElem (Nat.lt_of_not_le hroot)
    rw [if_neg hroot, hn]
    have hsize : 0 + nodes.toList.length = nodes.size := by rw [Nat.zero_add, Array.length_toList]
    have hnodes := decides_from (marks_nil nodes.size) List.nodup_nil (Nat.le_of_eq hsize)
    have hprogram : (!nodes[root.index].kind.isProgram) = true ↔
        ¬∃ n : Node, nodes[root.index]? = some n ∧ n.kind.isProgram = true := by simp [hn]
    refine (Decides.test hprogram fun _ => hnodes).congr ⟨fun ⟨hp, hns, hnodup⟩ => ?_, fun h => ?_⟩
    · refine ⟨hp, fun i n hi => ?_, hnodup⟩
      rw [← Nat.zero_add i]
      exact hns i n (Array.getElem?_toList.trans hi)
    · refine ⟨h.root, fun i n hi => ?_, h.once⟩
      rw [Nat.zero_add]
      exact h.node i n (Array.getElem?_toList.symm.trans hi)

end Nodes

/-! ### Chains of child steps -/

/-- **The node at the end of a chain of child steps**, if there is one. Each step goes to the child
of that number. -/
def descend? (nodes : Array Node) : NodeId → List Nat → Option NodeId
  | id, [] => some id
  | id, i :: path => do
    let n ← nodes[id.index]?
    let child ← n.kind.children[i]?
    descend? nodes child path

section Descent

variable {nodes : Array Node} {root : NodeId}

/-- The last step of a chain goes from the node at the end of the others. -/
theorem descend?_concat (id : NodeId) (path : List Nat) (i : Nat) :
    descend? nodes id (path ++ [i]) =
      (descend? nodes id path).bind fun p => nodes[p.index]?.bind fun n => n.kind.children[i]? := by
  induction path generalizing id with
  | nil =>
    change (nodes[id.index]?.bind fun n => n.kind.children[i]?.bind some) =
      nodes[id.index]?.bind fun n => n.kind.children[i]?
    simp only [Option.bind_fun_some]
  | cons j path ih =>
    change (nodes[id.index]?.bind fun n => n.kind.children[j]?.bind fun c =>
      descend? nodes c (path ++ [i])) =
      (nodes[id.index]?.bind fun n => n.kind.children[j]?.bind fun c =>
        descend? nodes c path).bind _
    simp only [ih, Option.bind_assoc]

/-- **Every chain ends**: each step leads to a smaller index. -/
theorem WellFormed.length_add_index_le (h : WellFormed nodes root) {id j : NodeId} {path : List Nat}
    (hpath : descend? nodes id path = some j) : path.length + j.index ≤ id.index := by
  induction path generalizing id with
  | nil =>
    cases hpath
    exact Nat.le_of_eq (Nat.zero_add _)
  | cons i path ih =>
    obtain ⟨n, hn, hpath⟩ := Option.bind_eq_some_iff.mp hpath
    obtain ⟨c, hc, hpath⟩ := Option.bind_eq_some_iff.mp hpath
    have hlt := (h.node _ n hn).before c (List.mem_of_getElem? hc)
    have hle := ih hpath
    rw [List.length_cons]
    omega

/-- A node is a child of one node at most, and only one of its children. -/
theorem WellFormed.parent_unique (h : WellFormed nodes root) {p q : Nat} {m n : Node}
    (hm : nodes[p]? = some m) (hn : nodes[q]? = some n) {i j : Nat} {c : NodeId}
    (hi : m.kind.children[i]? = some c) (hj : n.kind.children[j]? = some c) : p = q ∧ i = j := by
  -- Among all references those of one node are distinct, and no two nodes have one in common.
  obtain ⟨hone, hpairs⟩ := List.nodup_flatMap.mp h.once
  rw [← Array.getElem?_toList] at hm hn
  have hlt : ∀ {p q : Nat} {m n : Node}, nodes.toList[p]? = some m → nodes.toList[q]? = some n →
      c ∈ m.kind.children → c ∈ n.kind.children → ¬p < q := by
    intro p q m n hm hn hcm hcn hpq
    obtain ⟨hp, rfl⟩ := List.getElem?_eq_some_iff.mp hm
    obtain ⟨hq, rfl⟩ := List.getElem?_eq_some_iff.mp hn
    exact List.pairwise_iff_getElem.mp hpairs p q hp hq hpq hcm hcn
  have hcm := List.mem_of_getElem? hi
  have hcn := List.mem_of_getElem? hj
  obtain rfl : p = q :=
    Nat.le_antisymm (Nat.le_of_not_lt (hlt hn hm hcn hcm)) (Nat.le_of_not_lt (hlt hm hn hcm hcn))
  cases hm.symm.trans hn
  refine ⟨rfl, ?_⟩
  exact List.getElem?_inj (List.getElem?_eq_some_iff.mp hi).1 (hone m (List.mem_of_getElem? hm))
    |>.mp (hi.trans hj.symm)

/-- **At most one chain leads from the root to a node.** -/
theorem WellFormed.unique_descent (h : WellFormed nodes root) {id : NodeId} {path path' : List Nat}
    (hpath : descend? nodes root path = some id) (hpath' : descend? nodes root path' = some id) :
    path = path' := by
  -- No chain leads from the root back to it, and the last steps of two chains to a node are the
  -- same.
  have hroot : ∀ {path}, descend? nodes root path = some root → path = [] := fun {path} hpath => by
    have hle := h.length_add_index_le hpath
    exact List.length_eq_zero_iff.mp (by omega)
  induction path using List.reverseRecOn generalizing path' id with
  | nil =>
    cases hpath
    exact (hroot hpath').symm
  | append_singleton path i ih =>
    induction path' using List.reverseRecOn with
    | nil =>
      cases hpath'
      exact hroot hpath
    | append_singleton path' i' _ =>
      rw [descend?_concat] at hpath hpath'
      obtain ⟨p, hp, hlast⟩ := Option.bind_eq_some_iff.mp hpath
      obtain ⟨m, hm, hi⟩ := Option.bind_eq_some_iff.mp hlast
      obtain ⟨p', hp', hlast'⟩ := Option.bind_eq_some_iff.mp hpath'
      obtain ⟨n, hn, hi'⟩ := Option.bind_eq_some_iff.mp hlast'
      obtain ⟨hindex, rfl⟩ := h.parent_unique hm hn hi hi'
      rw [ih hp (NodeId.index_injective hindex ▸ hp')]

end Descent

/-- **Nodes are read as a tree exactly if they are well-formed.** The tree has these nodes and this
root, at most one chain of child steps leads from the root to a node of it, and a chain from any
node has at most as many steps as the index of that node says. Nodes that are not well-formed have a
fault, which is the one that their inspection stops at, and that never looks outside of the
array. -/
theorem ofNodes_decides (nodes : Array Node) (root : NodeId) :
    match ofNodes nodes root with
    | .ok t => WellFormed nodes root ∧ inspect nodes root = .ok () ∧ t.nodes = nodes ∧
        t.root = root ∧
        (∀ path path' id, descend? t.nodes t.root path = some id →
          descend? t.nodes t.root path' = some id →
          path = path') ∧
        ∀ id path j, descend? t.nodes id path = some j → path.length + j.index ≤ id.index
    | .error e => ¬WellFormed nodes root ∧ inspect nodes root = .error (.fault e) := by
  have hagree := agree_inspect nodes root
  have hdecides := decides_inspect nodes root
  generalize ofNodes nodes root = r, inspect nodes root = r' at hagree hdecides ⊢
  cases hagree with
  | ok ht =>
    cases hdecides with
    | ok h _ =>
      obtain ⟨rfl, rfl⟩ := ht
      exact ⟨h, rfl, rfl, rfl, fun _ _ _ => h.unique_descent, fun _ _ _ => h.length_add_index_le⟩
  | fault e =>
    cases hdecides with
    | fault h => exact ⟨h, rfl⟩

end SyntaxTree

end PostfixCompiler
