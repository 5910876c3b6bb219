import PostfixCompiler.Proofs.Json.Nesting
import PostfixCompiler.Proofs.Symbol.View
import PostfixCompiler.Proofs.Syntax.Inspect
import PostfixCompiler.Proofs.Syntax.Valid
import PostfixCompiler.Syntax.Decode

/-!
# Trees are read back from JSON

A tree is written with every part of every node. A part that has its default may be **left out**,
and any choice of such parts may: what is read is the same tree. The parts of a kind are looked up
by their names, so a part is found if it was not left out, whichever others were.

A tree is put into a JSON value and taken out of one. How the value becomes a text and is read again
is up to a library, of which no more is asked than that values are read back; the library of this
project is one that does.

## Main definitions

* `PostfixCompiler.Kind.mayOmit`: a part of a kind has its default.
* `PostfixCompiler.SyntaxTree.toJsonWithout`: the tree as JSON, with some of the parts left out that
  may be.
* `PostfixCompiler.SyntaxTree.ofTextBy`: the tree that a text describes, as a library reads it.

## Main statements

* `PostfixCompiler.Ty.ofJson?_toJson`: a type is read back, however deep.
* `PostfixCompiler.Kind.ofParts?_kept`: a kind is read back from the parts that are not left out.
* `PostfixCompiler.SyntaxTree.ofText_toJsonWithout`: a tree is read back.
-/

namespace PostfixCompiler

open Json

/-! ### What the parts say -/

section Parts

variable {isBlank : Json → Bool}

mutual

/-- **A type is read back**, however deep it is. -/
theorem Ty.ofJson?_toJson : ∀ t : Ty, Ty.ofJson? isBlank t.toJson = some t
  | .void | .int | .double | .string | .auto => by rw [Ty.toJson, Ty.ofJson?, Ty.ofName?]
  | .pointer t => by rw [Ty.toJson, Ty.ofJson?, Ty.ofJson?_toJson t, Option.map_some]
  | .tuple ts => by rw [Ty.toJson, Ty.ofJson?, Ty.eachOfJson?_toJson ts, Option.map_some]

theorem Ty.eachOfJson?_toJson : ∀ ts : List Ty, Ty.eachOfJson? isBlank (Ty.eachToJson ts) = some ts
  | [] => by rw [Ty.eachToJson, Ty.eachOfJson?]
  | t :: ts => by
    rw [Ty.eachToJson, Ty.eachOfJson?, Ty.ofJson?_toJson t, Ty.eachOfJson?_toJson ts]
    rfl

end

/-- **Items are read back if each of them is**, in whichever way it is written. -/
theorem Json.list?_mapIdx {α : Type} {item? : Json → Option α}
    {write : Nat → α → Json} {as : List α} (h : ∀ i, ∀ a ∈ as, item? (write i a) = some a) :
    list? item? (.array (as.mapIdx write)) = some as := by
  rw [list?]
  induction as generalizing write with
  | nil => rfl
  | cons a as ih =>
    rw [List.mapIdx_cons, List.mapM_cons, h 0 a List.mem_cons_self,
      ih fun i b hb => h (i + 1) b (List.mem_cons_of_mem a hb)]
    rfl

/-- A function that does not look at the index. -/
theorem mapIdx_ignoring {α β : Type} (f : α → β) (as : List α) :
    as.mapIdx (fun _ => f) = as.map f := by
  induction as with
  | nil => rfl
  | cons a as ih => rw [List.mapIdx_cons, ih, List.map_cons]

theorem Json.list?_map {α : Type} {item? : Json → Option α} {write : α → Json}
    (h : ∀ a, item? (write a) = some a) (as : List α) :
    list? item? (.array (as.map write)) = some as := by
  rw [← mapIdx_ignoring]
  exact list?_mapIdx fun _ a _ => h a

theorem Json.list?_text (ss : List String) : list? text? (.array (ss.map .text)) = some ss := by
  have htext : ∀ s : String, text? (.text s) = some s := fun _ => rfl
  exact list?_map htext ss

/-- An integer within the bounds is read back. -/
theorem Json.intWithin?_int {low high n : Int} (hlow : low ≤ n) (hhigh : n ≤ high) :
    intWithin? low high (.int n) = some n := by
  rw [intWithin?, if_pos ⟨hlow, hhigh⟩]

theorem Json.uint32?_int (n : UInt32) : uint32? (.int n.toNat) = some n := by
  have hlt := n.toNat_lt
  rw [uint32?, intWithin?_int (Int.natCast_nonneg _) (by simp only [UInt32.size]; omega),
    Option.map_some, Int.toNat_natCast, UInt32.ofNat_toNat]

theorem Json.int32?_int (n : Int32) : int32? (.int n.toInt) = some n := by
  rw [int32?, intWithin?_int n.minValue_le_toInt n.toInt_le, Option.map_some, Int32.ofInt_toInt]

theorem NodeId.ofJson?_toJson (id : NodeId) : NodeId.ofJson? id.toJson = some id := by
  rw [NodeId.ofJson?, NodeId.toJson, NodeId.index, Json.uint32?_int]
  rfl

theorem NodeId.allOfJson?_allToJson (ids : List NodeId) :
    NodeId.allOfJson? (NodeId.allToJson ids) = some ids :=
  Json.list?_map NodeId.ofJson?_toJson ids

theorem NodeId.optionOfJson?_optionToJson (id : Option NodeId) :
    NodeId.optionOfJson? (NodeId.optionToJson id) = some id := by
  cases id with
  | none => rfl
  | some id =>
    change (NodeId.ofJson? id.toJson).map some = some (some id)
    rw [NodeId.ofJson?_toJson, Option.map_some]

theorem Qualifier.ofJson?_name (q : Qualifier) :
    Qualifier.ofJson? isBlank (.text q.name) = some q := by
  cases q <;> rfl

theorem UnaryOp.ofJson?_name (op : UnaryOp) :
    UnaryOp.ofJson? isBlank (.text op.name) = some op := by
  cases op <;> rfl

theorem BinaryOp.ofJson?_name (op : BinaryOp) :
    BinaryOp.ofJson? isBlank (.text op.name) = some op := by
  cases op <;> rfl

end Parts

/-! ### Parts that are left out -/

namespace Kind

/-- **The part of that name has its default**, and a reader fills it in. -/
def mayOmit : Kind → String → Bool
  | .variableDeclaration q _ _ init, name => name = "qualifier" ∧ q = .private ∨
      name = "initializer" ∧ init = none
  | .functionDeclaration q _ _ args, name => name = "qualifier" ∧ q = .private ∨
      name = "arguments" ∧ args = []
  | .functionDefinition q _ _ args _, name => name = "qualifier" ∧ q = .private ∨
      name = "arguments" ∧ args = []
  | .block ds body, name => name = "declarations" ∧ ds = [] ∨ name = "instructions" ∧ body = []
  | .write _ newline, name => name = "newline" ∧ newline = false
  | .forLoop inits c incs _, name =>
    name = "initializers" ∧ inits = [] ∨ name = "condition" ∧ c = none ∨
      name = "increments" ∧ incs = []
  | .return v, name => name = "value" ∧ v = none
  | .functionCall _ args, name => name = "arguments" ∧ args = []
  | _, _ => false

/-- The part of that name is written: it has to be, or it is not left out. -/
def keeps (leave : String → Bool) (k : Kind) (name : String) : Bool :=
  !(leave name && k.mayOmit name)

/-- The parts of a kind without those that are left out. -/
def partsWithout (leave : String → Bool) (k : Kind) : List (String × Json) :=
  k.parts.filter fun m => k.keeps leave m.1

/-- **The kind as JSON**, with parts left out that may be. -/
def toJsonWithout (leave : String → Bool) (k : Kind) : Json :=
  .object (("node", .text k.tag) :: k.partsWithout leave)

variable {leave : String → Bool} {k : Kind}

theorem lookup_partsWithout (name : String) :
    (k.partsWithout leave).lookup name = if k.keeps leave name then k.parts.lookup name else none :=
  lookup_filter (k.keeps leave) k.parts name

/-- A part that has to be there is read. -/
theorem required?_kept {α : Type} (name : String) {v : Json} {part? : Json → Option α} {a : α}
    (hkept : k.mayOmit name = false) (hv : k.parts.lookup name = some v) (ha : part? v = some a) :
    Members.required? (k.partsWithout leave) name part? = some a := by
  rw [Members.required?, lookup_partsWithout, keeps, hkept, Bool.and_false, Bool.not_false,
    if_pos rfl, hv, Option.bind_some, ha]

/-- A part that may be left out is read, or it has its default. -/
theorem defaulted?_kept {α : Type} (name : String) {v : Json} {part? : Json → Option α}
    {a default : α} (hv : k.parts.lookup name = some v) (ha : part? v = some a)
    (hdefault : k.mayOmit name = true → a = default) :
    Members.defaulted? (k.partsWithout leave) name part? default = some a := by
  rw [Members.defaulted?, lookup_partsWithout]
  cases hkeeps : k.keeps leave name with
  | true =>
    rw [if_pos rfl, hv]
    exact ha
  | false =>
    rw [keeps, Bool.not_eq_false', Bool.and_eq_true] at hkeeps
    rw [if_neg Bool.false_ne_true, hdefault hkeeps.2]

/-- **A kind is read back from the parts that are not left out.** -/
theorem ofParts?_kept (leave : String → Bool) (k : Kind) :
    ofParts? k.tag (k.partsWithout leave) = some k := by
  cases k with
  | program ds =>
    rw [tag, ofParts?, required?_kept "declarations" rfl rfl (NodeId.allOfJson?_allToJson ds)]
    rfl
  | variableDeclaration q t names init =>
    rw [tag, ofParts?, defaulted?_kept "qualifier" rfl q.ofJson?_name (by simp [mayOmit]),
      required?_kept "var_type" (by simp [mayOmit]) rfl t.ofJson?_toJson,
      required?_kept "identifiers" (by simp [mayOmit]) rfl (Json.list?_text names),
      defaulted?_kept "initializer" rfl (NodeId.optionOfJson?_optionToJson init)
        (by simp [mayOmit])]
    rfl
  | functionDeclaration q t name args =>
    rw [tag, ofParts?, defaulted?_kept "qualifier" rfl q.ofJson?_name (by simp [mayOmit]),
      required?_kept "return_type" (by simp [mayOmit]) rfl t.ofJson?_toJson,
      required?_kept "name" (by simp [mayOmit]) rfl (rfl : text? (.text name) = some name),
      defaulted?_kept "arguments" rfl (NodeId.allOfJson?_allToJson args) (by simp [mayOmit])]
    rfl
  | functionDefinition q t name args body =>
    rw [tag, ofParts?, defaulted?_kept "qualifier" rfl q.ofJson?_name (by simp [mayOmit]),
      required?_kept "return_type" (by simp [mayOmit]) rfl t.ofJson?_toJson,
      required?_kept "name" (by simp [mayOmit]) rfl (rfl : text? (.text name) = some name),
      defaulted?_kept "arguments" rfl (NodeId.allOfJson?_allToJson args) (by simp [mayOmit]),
      required?_kept "body" (by simp [mayOmit]) rfl body.ofJson?_toJson]
    rfl
  | block ds body =>
    rw [tag, ofParts?,
      defaulted?_kept "declarations" rfl (NodeId.allOfJson?_allToJson ds) (by simp [mayOmit]),
      defaulted?_kept "instructions" rfl (NodeId.allOfJson?_allToJson body) (by simp [mayOmit])]
    rfl
  | evaluation e =>
    rw [tag, ofParts?, required?_kept "expression" rfl rfl e.ofJson?_toJson]
    rfl
  | write args newline =>
    rw [tag, ofParts?,
      required?_kept "arguments" (by simp [mayOmit]) rfl (NodeId.allOfJson?_allToJson args),
      defaulted?_kept "newline" rfl (rfl : bool? (.bool newline) = some newline)
        (by simp [mayOmit])]
    rfl
  | ifThen c t =>
    rw [tag, ofParts?, required?_kept "condition" rfl rfl c.ofJson?_toJson,
      required?_kept "then_block" rfl rfl t.ofJson?_toJson]
    rfl
  | ifElse c t e =>
    rw [tag, ofParts?, required?_kept "condition" rfl rfl c.ofJson?_toJson,
      required?_kept "then_block" rfl rfl t.ofJson?_toJson,
      required?_kept "else_block" rfl rfl e.ofJson?_toJson]
    rfl
  | forLoop inits c incs body =>
    rw [tag, ofParts?,
      defaulted?_kept "initializers" rfl (NodeId.allOfJson?_allToJson inits) (by simp [mayOmit]),
      defaulted?_kept "condition" rfl (NodeId.optionOfJson?_optionToJson c) (by simp [mayOmit]),
      defaulted?_kept "increments" rfl (NodeId.allOfJson?_allToJson incs) (by simp [mayOmit]),
      required?_kept "body" (by simp [mayOmit]) rfl body.ofJson?_toJson]
    rfl
  | «break» | «continue» | nullptr | input => rw [tag, ofParts?]
  | «return» v =>
    rw [tag, ofParts?,
      defaulted?_kept "value" rfl (NodeId.optionOfJson?_optionToJson v) (by simp [mayOmit])]
    rfl
  | integer n =>
    rw [tag, ofParts?, required?_kept "value" rfl rfl (Json.int32?_int n)]
    rfl
  | double d =>
    rw [tag, ofParts?, required?_kept "value" rfl rfl (rfl : double? (.double d) = some d)]
    rfl
  | string s =>
    rw [tag, ofParts?, required?_kept "value" rfl rfl (rfl : text? (.text s) = some s)]
    rfl
  | «variable» name =>
    rw [tag, ofParts?, required?_kept "name" rfl rfl (rfl : text? (.text name) = some name)]
    rfl
  | pointerIndex b i =>
    rw [tag, ofParts?, required?_kept "base" rfl rfl b.ofJson?_toJson,
      required?_kept "index" rfl rfl i.ofJson?_toJson]
    rfl
  | tupleIndex b i =>
    rw [tag, ofParts?, required?_kept "base" rfl rfl b.ofJson?_toJson,
      required?_kept "index" rfl rfl (Json.int32?_int i)]
    rfl
  | rvalue p | addressOf p =>
    rw [tag, ofParts?, required?_kept "lvalue" rfl rfl p.ofJson?_toJson]
    rfl
  | assignment p v =>
    rw [tag, ofParts?, required?_kept "lvalue" rfl rfl p.ofJson?_toJson,
      required?_kept "rvalue" rfl rfl v.ofJson?_toJson]
    rfl
  | unary op a =>
    rw [tag, ofParts?, required?_kept "op" rfl rfl op.ofJson?_name,
      required?_kept "argument" rfl rfl a.ofJson?_toJson]
    rfl
  | binary op l r =>
    rw [tag, ofParts?, required?_kept "op" rfl rfl op.ofJson?_name,
      required?_kept "left" rfl rfl l.ofJson?_toJson,
      required?_kept "right" rfl rfl r.ofJson?_toJson]
    rfl
  | stackAlloc n =>
    rw [tag, ofParts?, required?_kept "count" rfl rfl n.ofJson?_toJson]
    rfl
  | sizeof e =>
    rw [tag, ofParts?, required?_kept "expression" rfl rfl e.ofJson?_toJson]
    rfl
  | tuple es =>
    rw [tag, ofParts?, required?_kept "elements" rfl rfl (NodeId.allOfJson?_allToJson es)]
    rfl
  | functionCall name args =>
    rw [tag, ofParts?,
      required?_kept "name" (by simp [mayOmit]) rfl (rfl : text? (.text name) = some name),
      defaulted?_kept "arguments" rfl (NodeId.allOfJson?_allToJson args) (by simp [mayOmit])]
    rfl

/-- The parts of a kind have the names that a reader asks for. -/
theorem map_fst_parts (k : Kind) : k.parts.map Prod.fst = partNames k.tag := by
  cases k <;> rfl

/-- No two parts of a kind have the same name, and none has that of the kind itself. -/
theorem nodup_partNames (k : Kind) : ("node" :: partNames k.tag).Nodup := by
  cases k <;> exact of_decide_eq_true rfl

/-- The names of the parts that are not left out. -/
theorem sublist_map_fst_partsWithout (leave : String → Bool) (k : Kind) :
    ((k.partsWithout leave).map Prod.fst).Sublist (partNames k.tag) := by
  rw [← map_fst_parts]
  exact List.filter_sublist.map _

/-- The name of a kind is found among its parts. -/
theorem tagged?_toJsonWithout (leave : String → Bool) (k : Kind) :
    tagged? (k.toJsonWithout leave) = some (k.tag, .object (k.partsWithout leave)) := by
  have hne : ∀ m ∈ k.partsWithout leave, m.1 ≠ "node" := fun m hm hname =>
    (List.nodup_cons.mp k.nodup_partNames).1
      ((k.sublist_map_fst_partsWithout leave).subset (hname ▸ List.mem_map_of_mem hm))
  have hnone : (k.partsWithout leave).filter (fun m => m.1 = "node") = [] :=
    List.filter_eq_nil_iff.mpr fun m hm => by simpa using hne m hm
  have hall : (k.partsWithout leave).filter (fun m => m.1 ≠ "node") = k.partsWithout leave :=
    List.filter_eq_self.mpr fun m hm => by simpa using hne m hm
  unfold toJsonWithout tagged?
  dsimp only
  rw [List.filter_cons, if_pos (decide_eq_true rfl), hnone]
  dsimp only
  rw [List.filter_cons, if_neg (by simp), hall]

end Kind

/-- The names of a record's parts are told apart. -/
theorem Json.isUnique_iff {ms : Members} : ms.isUnique = true ↔ (ms.map Prod.fst).Nodup := by
  induction ms with
  | nil => simp [Members.isUnique]
  | cons m ms ih =>
    rw [Members.isUnique, Bool.and_eq_true, ih, List.map_cons, List.nodup_cons, List.all_eq_true]
    simp only [bne_iff_ne, List.mem_map, not_exists, not_and]

/-- A record that is written as an object with some of the parts is read with these parts. -/
theorem Json.members?_object {names : List String} {ms : Members}
    (hms : (ms.map Prod.fst).Sublist names) (hnames : names.Nodup) :
    members? names (.object ms) = some ms := by
  have hall : ms.filter (fun m => names.contains m.1) = ms := List.filter_eq_self.mpr fun m hm => by
    simpa using hms.subset (List.mem_map_of_mem hm)
  rw [members?, hall, if_pos (isUnique_iff.mpr (hnames.sublist hms))]

/-! ### What is written is faithful -/

section Faithful

variable {reads : Double → Prop}

theorem NodeId.faithful_toJson (id : NodeId) : id.toJson.Faithful reads := by
  have hlt := Forest.index_lt_size id
  exact isInt64_of_le (by omega) (by simp only [UInt32.size] at hlt; omega)

theorem NodeId.faithful_allToJson (ids : List NodeId) : (NodeId.allToJson ids).Faithful reads :=
  allFaithful_iff.mpr (List.forall_mem_map.mpr fun id _ => id.faithful_toJson)

theorem NodeId.faithful_optionToJson (id : Option NodeId) :
    (NodeId.optionToJson id).Faithful reads := by
  cases id with
  | none => trivial
  | some id => exact id.faithful_toJson

mutual

theorem Ty.faithful_toJson : ∀ t : Ty, t.toJson.Faithful reads
  | .void | .int | .double | .string | .auto => by rw [Ty.toJson]; trivial
  | .pointer t => by
    rw [Ty.toJson]
    exact ⟨t.faithful_toJson, trivial⟩
  | .tuple ts => by
    rw [Ty.toJson]
    exact ⟨Ty.faithful_eachToJson ts, trivial⟩

theorem Ty.faithful_eachToJson : ∀ ts : List Ty, AllFaithful reads (Ty.eachToJson ts)
  | [] => by rw [Ty.eachToJson]; trivial
  | t :: ts => by
    rw [Ty.eachToJson]
    exact ⟨t.faithful_toJson, Ty.faithful_eachToJson ts⟩

end

theorem Json.faithful_int32 (n : Int32) : (Json.int n.toInt).Faithful reads := by
  have hlow := n.le_toInt
  have hhigh := n.toInt_lt
  exact isInt64_of_le (by omega) (by omega)

theorem Json.faithful_text (s : String) : (Json.text s).Faithful reads := trivial

theorem Json.faithful_bool (b : Bool) : (Json.bool b).Faithful reads := trivial

/-- The parts of a kind are faithful if the double in it is read back. -/
theorem Kind.faithful_parts {k : Kind} (hdouble : ∀ d, k = .double d → reads d) :
    ∀ m ∈ k.parts, m.2.Faithful reads := by
  have htexts : ∀ ss : List String, (Json.array (ss.map .text)).Faithful reads := fun ss =>
    allFaithful_iff.mpr (List.forall_mem_map.mpr fun _ _ => trivial)
  cases k with
  | double d => exact fun m hm => List.mem_singleton.mp hm ▸ hdouble d rfl
  | _ =>
    simp [parts, NodeId.faithful_toJson, NodeId.faithful_allToJson, NodeId.faithful_optionToJson,
      Ty.faithful_toJson, htexts, Json.faithful_int32, Json.faithful_text, Json.faithful_bool]

end Faithful

/-! ### Trees -/

/-- **The node as JSON**, with parts left out that may be: those of its kind, and the line if that
is not known. -/
def Node.toJsonWithout (leave : String → Bool) (n : Node) : Json :=
  .object ((if leave "line" ∧ n.line = 0 then [] else [("line", .int n.line.toNat)]) ++
    [("kind", n.kind.toJsonWithout leave)])

/-- **The tree as JSON**, with parts left out that may be. Which of them are is chosen for each node
by itself. -/
def SyntaxTree.toJsonWithout (leave : Nat → String → Bool) (t : SyntaxTree) : Json :=
  .object [("nodes", .array (t.nodes.toList.mapIdx fun i n => n.toJsonWithout (leave i))),
    ("root", t.root.toJson)]

/-- The double of a kind that is one is read back. -/
def Kind.ReadsDouble (reads : Double → Prop) (k : Kind) : Prop := ∀ d, k = .double d → reads d

section Kinds

variable {reads : Double → Prop} {leave : String → Bool} {k : Kind}

/-- A kind is faithful, whatever is left out. -/
theorem Kind.faithful_toJsonWithout (hdouble : k.ReadsDouble reads) :
    (k.toJsonWithout leave).Faithful reads :=
  ⟨trivial, membersFaithful_iff.mpr fun m hm => faithful_parts hdouble m (List.mem_filter.mp hm).1⟩

/-- **A kind is read back**, whatever is left out. -/
theorem Kind.ofJsonWithin?_toJsonWithout (hdouble : k.ReadsDouble reads) {limit : Nat}
    (hlimit : k.toJson.nesting ≤ limit - outerContainers) :
    ofJsonWithin? limit (k.toJsonWithout leave) = some k := by
  have hnesting : (k.toJsonWithout leave).nesting ≤ k.toJson.nesting :=
    nesting_object_le fun m hm =>
      (List.mem_cons.mp hm).elim (fun h => h ▸ List.mem_cons_self) fun h =>
      List.mem_cons_of_mem _ (List.mem_filter.mp h).1
  have hreadable : (k.toJsonWithout leave).readableWithin (limit - outerContainers) = true :=
    readableWithin_of_nesting_le _ (faithful_toJsonWithout hdouble) (Nat.le_trans hnesting hlimit)
  have hmembers :
      members? (partNames k.tag) (.object (k.partsWithout leave)) = some (k.partsWithout leave) :=
    Json.members?_object (sublist_map_fst_partsWithout leave k)
      (List.nodup_cons.mp k.nodup_partNames).2
  rw [ofJsonWithin?, hreadable, tagged?_toJsonWithout]
  change ((members? (partNames k.tag) (.object (k.partsWithout leave))).bind fun ms =>
    ofParts? k.tag ms) = some k
  rw [hmembers, Option.bind_some, ofParts?_kept]

/-- A node is faithful, whatever is left out. -/
theorem Node.faithful_toJsonWithout {n : Node} (hdouble : n.kind.ReadsDouble reads) :
    (n.toJsonWithout leave).Faithful reads := by
  have hlt := n.line.toNat_lt
  have hline : (Json.int n.line.toNat).Faithful reads := isInt64_of_le (by omega) (by omega)
  have hkind : (n.kind.toJsonWithout leave).Faithful reads := Kind.faithful_toJsonWithout hdouble
  unfold toJsonWithout
  split
  · exact ⟨hkind, trivial⟩
  · exact ⟨hline, hkind, trivial⟩

/-- **A node is read back**, whatever is left out. -/
theorem Node.ofJsonWithin?_toJsonWithout {n : Node}
    (hdouble : n.kind.ReadsDouble reads) {limit : Nat}
    (hlimit : n.kind.toJson.nesting ≤ limit - Kind.outerContainers) :
    ofJsonWithin? limit (n.toJsonWithout leave) = some n := by
  have hkind : Kind.ofJsonWithin? limit (n.kind.toJsonWithout leave) = some n.kind :=
    Kind.ofJsonWithin?_toJsonWithout hdouble hlimit
  have hnames : ["line", "kind"].Nodup := by decide
  unfold toJsonWithout
  split
  · next h =>
    have hmembers :
        members? ["line", "kind"] (.object [("kind", n.kind.toJsonWithout leave)]) = some _ :=
      Json.members?_object (.cons _ (.refl _)) hnames
    rw [List.nil_append, ofJsonWithin?, hmembers]
    change (Kind.ofJsonWithin? limit (n.kind.toJsonWithout leave)).bind (fun k =>
      some ⟨0, k⟩) = some n
    rw [hkind, Option.bind_some, ← h.2]
  · have hmembers : members? ["line", "kind"]
        (.object [("line", .int n.line.toNat), ("kind", n.kind.toJsonWithout leave)]) = some _ :=
      Json.members?_object (.refl _) hnames
    rw [List.singleton_append, ofJsonWithin?, hmembers]
    change (uint32? (.int n.line.toNat)).bind (fun line =>
      (Kind.ofJsonWithin? limit (n.kind.toJsonWithout leave)).bind fun k => some ⟨line, k⟩) = some n
    rw [hkind, Json.uint32?_int, Option.bind_some, Option.bind_some]

end Kinds

namespace SyntaxTree

variable {reads : Double → Prop} {t : SyntaxTree}

/-- The nodes are nested in the tree. -/
theorem nesting_le_of_mem {n : Node} (hn : n ∈ t.nodes) {limit : Nat}
    (hlimit : t.toJson.nesting ≤ limit) :
    n.kind.toJson.nesting ≤ limit - Kind.outerContainers := by
  have hkind : n.kind.toJson.nesting < n.toJson.nesting :=
    nesting_lt_of_mem_object (m := ("kind", n.kind.toJson)) (.tail _ List.mem_cons_self)
  have hnode : n.toJson.nesting < (Json.array (t.nodes.toList.map Node.toJson)).nesting :=
    nesting_lt_of_mem_array (List.mem_map_of_mem hn.val)
  have hnodes : (Json.array (t.nodes.toList.map Node.toJson)).nesting < t.toJson.nesting :=
    nesting_lt_of_mem_object (m := ("nodes", .array (t.nodes.toList.map Node.toJson)))
      List.mem_cons_self
  rw [Kind.outerContainers]
  omega

theorem faithful_toJsonWithout (hdouble : ∀ n ∈ t.nodes, n.kind.ReadsDouble reads)
    (leave : Nat → String → Bool) :
    (t.toJsonWithout leave).Faithful reads := by
  refine ⟨allFaithful_iff.mpr fun v hv => ?_, t.root.faithful_toJson, trivial⟩
  obtain ⟨i, hi, rfl⟩ := List.mem_mapIdx.mp hv
  exact Node.faithful_toJsonWithout (hdouble _ (Array.mem_toList_iff.mp (List.getElem_mem hi)))

/-- **A tree is read back from its JSON form**, whatever is left out. -/
theorem ofJsonWithin_toJsonWithout {nodes : Array Node} {root : NodeId}
    (h : ofNodes nodes root = .ok t) (hdouble : ∀ n ∈ t.nodes, n.kind.ReadsDouble reads)
    (leave : Nat → String → Bool) {limit : Nat} (hlimit : t.toJson.nesting ≤ limit) :
    ofJsonWithin limit (t.toJsonWithout leave) = .ok t := by
  have hnodes : list? (Node.ofJsonWithin? limit)
      (.array (t.nodes.toList.mapIdx fun i n => n.toJsonWithout (leave i))) = some t.nodes.toList :=
    Json.list?_mapIdx fun i n hn =>
      Node.ofJsonWithin?_toJsonWithout (hdouble n (Array.mem_toList_iff.mp hn))
      (nesting_le_of_mem (Array.mem_toList_iff.mp hn) hlimit)
  have hmembers : members? ["nodes", "root"] (t.toJsonWithout leave) = some _ :=
    Json.members?_object (.refl _) (by decide)
  have hparts :
      partsOfJsonWithin? limit (t.toJsonWithout leave) = some (t.nodes.toList, t.root) := by
    rw [partsOfJsonWithin?, hmembers]
    change (list? (Node.ofJsonWithin? limit)
      (.array (t.nodes.toList.mapIdx fun i n => n.toJsonWithout (leave i)))).bind
      (fun ns => (NodeId.ofJson? t.root.toJson).bind fun root => some (ns, root)) = _
    rw [hnodes, NodeId.ofJson?_toJson, Option.bind_some, Option.bind_some]
  obtain ⟨rfl, rfl⟩ := eq_of_ofNodes h
  rw [ofJsonWithin, hparts]
  exact h

/-- If nothing is left out, the tree is written as it always is. -/
theorem toJsonWithout_nothing (t : SyntaxTree) : t.toJsonWithout (fun _ _ => false) = t.toJson := by
  have hkind : ∀ k : Kind, k.toJsonWithout (fun _ => false) = k.toJson := fun k => by
    have hall : k.partsWithout (fun _ => false) = k.parts := List.filter_eq_self.mpr fun _ _ => rfl
    rw [Kind.toJsonWithout, hall, Kind.toJson]
  have hnode : ∀ n : Node, n.toJsonWithout (fun _ => false) = n.toJson := fun n => by
    rw [Node.toJsonWithout, if_neg fun h => Bool.false_ne_true h.1, hkind, Node.toJson]
    rfl
  rw [toJsonWithout, mapIdx_ignoring, List.map_congr_left fun n _ => hnode n, toJson]

/-- **The tree that a text describes, as a library reads it**, if containers may be nested `limit`
deep. -/
def ofTextBy (L : Library) (limit : Nat) (s : String) : Except TreeFault SyntaxTree :=
  match L.read? s with
  | some v => ofJsonWithin limit v
  | none => .error .unreadable

/-- With the library of this project it is the tree that the text describes. -/
theorem ofTextBy_own (limit : Nat) (s : String) :
    ofTextBy .own limit s = ofTextWithin limit s := rfl

/-- Whatever a library writes for a tree, it reads back. -/
theorem ofTextBy_write (L : Library) {nodes : Array Node} {root : NodeId}
    (h : ofNodes nodes root = .ok t) (hdouble : ∀ n ∈ t.nodes, n.kind.ReadsDouble L.ReadsBack)
    (leave : Nat → String → Bool) {limit : Nat} (hlimit : t.toJson.nesting ≤ limit) :
    ofTextBy L limit (L.write (t.toJsonWithout leave)) = .ok t := by
  rw [ofTextBy, L.read?_write _ (faithful_toJsonWithout hdouble leave)]
  exact ofJsonWithin_toJsonWithout h hdouble leave hlimit

/-- **A tree is read back from its text**, whatever parts are left out that may be: by any library
that reads values back as it wrote them, if it reads the doubles of the tree back and the limit on
how deep containers may be nested is high enough for all of the tree. The library of this project is
one. Nothing is left out of what is usually written. -/
theorem ofText_toJsonWithout {nodes : Array Node} {root : NodeId} (h : ofNodes nodes root = .ok t)
    (leave : Nat → String → Bool) :
    (∀ L : Library, (∀ n ∈ t.nodes, ∀ d, n.kind = .double d → L.ReadsBack d) →
      ∀ limit, t.toJson.nesting ≤ limit →
      ofTextBy L limit (L.write (t.toJsonWithout leave)) = .ok t) ∧
    ((∀ n ∈ t.nodes, ∀ d, n.kind = .double d → parse? (d.write doubleFormat) = some (.double d)) →
      (∀ limit, t.toJson.nesting ≤ limit →
        ofTextWithin limit (t.toJsonWithout leave).pretty = .ok t) ∧
      (t.toJson.nesting ≤ nestingLimit → ofText (t.toJsonWithout leave).pretty = .ok t)) ∧
    t.toJsonWithout (fun _ _ => false) = t.toJson := by
  refine ⟨fun L hdouble limit => ofTextBy_write L h hdouble leave, fun hdouble => ?_,
    t.toJsonWithout_nothing⟩
  have hown : ∀ n ∈ t.nodes, n.kind.ReadsDouble Library.own.ReadsBack := fun n hn d hd =>
    Library.readsBack_own.mpr (hdouble n hn d hd)
  have hwithin : ∀ limit, t.toJson.nesting ≤ limit →
      ofTextWithin limit (t.toJsonWithout leave).pretty = .ok t := fun limit hlimit => by
    rw [← ofTextBy_own]
    exact ofTextBy_write .own h hown leave hlimit
  exact ⟨hwithin, hwithin nestingLimit⟩

/-- The nodes of a unit with a variable that is initialized with `2.5` and a function with an empty
body. -/
def sparseNodes : Array Node := #[
  ⟨1, .double ⟨0x4004000000000000⟩⟩,
  ⟨1, .variableDeclaration .private .double ["x"] (some (.ofIndex 0))⟩,
  ⟨0, .block [] []⟩, ⟨2, .functionDefinition .private .void "f" [] (.ofIndex 2)⟩,
  ⟨0, .program [.ofIndex 1, .ofIndex 3]⟩]

/-- The double in these nodes is read back. -/
theorem parse?_half : parse? ((⟨0x4004000000000000⟩ : Double).write doubleFormat) =
    some (.double ⟨0x4004000000000000⟩) := by
  have hread : (parse? ((⟨0x4004000000000000⟩ : Double).write doubleFormat)).any (fun
      | .double d => d = ⟨0x4004000000000000⟩
      | _ => false) = true := by
    decide +kernel
  cases hv : parse? ((⟨0x4004000000000000⟩ : Double).write doubleFormat) with
  | none =>
    rw [hv] at hread
    cases hread
  | some v =>
    rw [hv] at hread
    cases v with
    | double d => rw [of_decide_eq_true hread]
    | _ => cases hread

theorem ofText_toJsonWithout_sparse : ∃ t, ofNodes sparseNodes (.ofIndex 4) = .ok t ∧
    (∀ n ∈ t.nodes, ∀ d, n.kind = .double d → Library.own.ReadsBack d) ∧
    ofTextBy .own nestingLimit (Library.own.write (t.toJsonWithout fun _ _ => true)) = .ok t ∧
    (∀ n ∈ t.nodes, ∀ d, n.kind = .double d → parse? (d.write doubleFormat) = some (.double d)) ∧
    ofText (t.toJsonWithout fun _ _ => true).pretty = .ok t := by
  have hok : (ofNodes sparseNodes (.ofIndex 4)).toOption.any (fun t =>
      decide (t.toJson.nesting ≤ nestingLimit)) =
      true := by
    decide +kernel
  obtain ⟨t, ht, hnesting⟩ := any_toOption.mp hok
  have hlimit : t.toJson.nesting ≤ nestingLimit := of_decide_eq_true hnesting
  have hdouble : ∀ n ∈ t.nodes, ∀ d, n.kind = .double d →
      parse? (d.write doubleFormat) = some (.double d) := by
    intro n hn d hd
    rw [(eq_of_ofNodes ht).1, ← Array.mem_toList_iff] at hn
    simp only [sparseNodes, List.mem_cons, List.not_mem_nil, or_false] at hn
    rcases hn with rfl | rfl | rfl | rfl | rfl <;> cases hd
    exact parse?_half
  have hown : ∀ n ∈ t.nodes, ∀ d, n.kind = .double d → Library.own.ReadsBack d := fun n hn d hd =>
    Library.readsBack_own.mpr (hdouble n hn d hd)
  obtain ⟨hby, htext, -⟩ := ofText_toJsonWithout ht fun _ _ => true
  exact ⟨t, ht, hown, hby .own hown nestingLimit hlimit, hdouble, (htext hdouble).2 hlimit⟩

end SyntaxTree

end PostfixCompiler
