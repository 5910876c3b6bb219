import Mathlib.Data.List.Nodup
import PostfixCompiler.Proofs.Outcome
import PostfixCompiler.Proofs.Syntax.Ids
import PostfixCompiler.Syntax.Tree

/-!
# What the reading of a tree ensures

The nodes of a unit are read once, each after the nodes that it refers to. The invariant of the
reading is about the phrases that no later node has taken: their nodes are apart. A node that is
read takes some of them and puts itself on top, so its phrase has no id twice, and the phrases left
over are still apart.

## Main statements

* `PostfixCompiler.Forest.gathers`: the ids of a phrase are the id of its node and those of the
  node's children.
* `PostfixCompiler.Forest.Sound.read`: reading a node keeps the invariant.
* `PostfixCompiler.SyntaxTree.nodup_ids`, `PostfixCompiler.SyntaxTree.wellPlaced`: in a tree no id
  occurs twice, and everything is where it belongs.
-/

namespace PostfixCompiler

namespace Forest

/-! ### The phrase of a node -/

/-- The ids of the phrase that is known for a node; none where no phrase is known. -/
def idsAt (phrases : Array Phrase) (child : NodeId) : List NodeId :=
  match phrases[child.index]? with
  | some p => p.ids
  | none => []

/-- A way to look at phrases that shows all of their ids and whether everything is in its place. -/
structure Shows {α : Type} (as? : Phrase → Option α) (ids : α → List NodeId) (good : α → Prop) :
    Prop where
  /-- All ids are shown. -/
  ids_eq : ∀ {p a}, as? p = some a → p.ids = ids a
  /-- Positions are shown. -/
  good : ∀ {p a}, as? p = some a → p.WellPlaced → good a

theorem shows_decl : Shows Phrase.decl? Decl.ids Decl.WellPlaced := by
  constructor <;> intro p a h <;> cases p <;> cases h
  · rfl
  · exact id

theorem shows_varDecl : Shows Phrase.varDecl? VarDecl.ids VarDecl.WellPlaced := by
  constructor <;> intro p a h <;> rcases p with _ | (_ | _ | _) | _ | _ <;> cases h
  · rfl
  · exact id

theorem shows_stmt : Shows Phrase.stmt? Stmt.ids Stmt.WellPlaced := by
  constructor <;> intro p a h <;> cases p <;> cases h
  · rfl
  · exact id

theorem shows_block :
    Shows Phrase.block? (fun b => b.stmt.ids) (fun b => b.stmt.WellPlaced) := by
  constructor <;> intro p a h <;>
    rcases p with _ | _ | (_ | _ | _ | _ | _ | _ | _ | _ | _) | _ <;> cases h
  · rfl
  · exact id

theorem shows_expr : Shows Phrase.expr? Expr.ids Expr.WellPlaced := by
  constructor <;> intro p a h <;> cases p <;> cases h
  · rfl
  · exact id

theorem shows_place :
    Shows Phrase.place? Expr.ids (fun e => e.isPlace = true ∧ e.WellPlaced) := by
  constructor <;> intro p a h <;> cases p <;> simp only [Phrase.place?] at h <;>
    first | cases h | (split at h <;> cases h)
  · rfl
  · exact fun hp => ⟨‹_›, hp⟩

theorem shows_value : Shows Phrase.value? Expr.ids Expr.IsValue := by
  constructor <;> intro p a h <;> cases p <;> simp only [Phrase.value?] at h <;>
    first | cases h | (split at h <;> cases h)
  · rfl
  · exact fun hp => ⟨Bool.eq_false_iff.mpr ‹_›, hp⟩

theorem shows_loopInit : Shows Phrase.loopInit? LoopInit.ids LoopInit.WellPlaced := by
  constructor <;> intro p a h <;> rw [Phrase.loopInit?] at h <;> split at h
  · cases h
    exact shows_varDecl.ids_eq ‹_›
  · obtain ⟨e, he, rfl⟩ := Option.map_eq_some_iff.mp h
    exact shows_value.ids_eq he
  · cases h
    exact shows_varDecl.good ‹_›
  · obtain ⟨e, he, rfl⟩ := Option.map_eq_some_iff.mp h
    exact shows_value.good he

section Children

variable {α : Type} {phrases : Array Phrase} {id : NodeId} {position : Position}
  {as? : Phrase → Option α} {ids : α → List NodeId} {good : α → Prop}

/-- A child that is what it should be brings its ids, and everything in it is in its place. -/
theorem of_expect (hs : Shows as? ids good) (hw : ∀ p ∈ phrases, p.WellPlaced) {child : NodeId}
    {a : α} (h : expect phrases id position as? child = .ok a) :
    idsAt phrases child = ids a ∧ good a := by
  rw [expect] at h
  split at h
  · cases h
    obtain ⟨p, hp, ha⟩ := Option.bind_eq_some_iff.mp ‹_›
    rw [idsAt, hp]
    exact ⟨hs.ids_eq ha, hs.good ha (hw p (Array.mem_of_getElem? hp))⟩
  · cases h

/-- As `of_expect`, for an optional child. -/
theorem of_expectOption (hs : Shows as? ids good) (hw : ∀ p ∈ phrases, p.WellPlaced)
    {child : Option NodeId} {a : Option α}
    (h : expectOption phrases id position as? child = .ok a) :
    child.toList.flatMap (idsAt phrases) = a.toList.flatMap ids ∧ ∀ b ∈ a, good b := by
  cases child with
  | none =>
    cases h
    exact ⟨rfl, by simp⟩
  | some c =>
    obtain ⟨b, hb, rfl⟩ := map_eq_ok.mp h
    have hc := of_expect hs hw hb
    simp only [Option.toList_some, List.flatMap_cons, List.flatMap_nil, List.append_nil,
      Option.mem_def, Option.some.injEq, forall_eq']
    exact hc

/-- As `of_expect`, for several children. -/
theorem of_expectAll (hs : Shows as? ids good) (hw : ∀ p ∈ phrases, p.WellPlaced)
    {children : List NodeId} {as : List α}
    (h : expectAll phrases id position as? children = .ok as) :
    children.flatMap (idsAt phrases) = as.flatMap ids ∧ ∀ a ∈ as, good a := by
  have hall := mapM_eq_ok.mp h
  clear h
  induction hall with
  | nil => exact ⟨rfl, by simp⟩
  | cons hc _ ih =>
    have hfirst := of_expect hs hw hc
    rw [List.flatMap_cons, List.flatMap_cons, hfirst.1, ih.1, List.forall_mem_cons]
    exact ⟨rfl, hfirst.2, ih.2⟩

end Children

/-- **What a kind of node gathers**: a phrase made of a node of this kind has the node's own id and
those of its children, in order; and everything in it is in its place if that holds for the phrases
before it. -/
def Gathers (k : Kind) : Prop :=
  ∀ (phrases : Array Phrase) (site : Site) (p : Phrase), (∀ q ∈ phrases, q.WellPlaced) →
    phrase phrases site k = .ok p →
      p.ids = site.id :: k.children.flatMap (idsAt phrases) ∧ p.WellPlaced

theorem gathers_program (ds : List NodeId) : Gathers (.program ds) := by
  intro phrases site p hw h
  obtain ⟨as, has, h⟩ := bind_eq_ok.mp h
  cases h
  have hc := of_expectAll shows_decl hw has
  refine ⟨?_, hc.2⟩
  show site.id :: Decl.idsOfAll as = site.id :: ds.flatMap (idsAt phrases)
  rw [Decl.idsOfAll_eq_flatMap, hc.1]

/-! Declarations. -/

theorem gathers_variableDeclaration (q : Qualifier) (t : Ty) (names : List String)
    (init : Option NodeId) : Gathers (.variableDeclaration q t names init) := by
  intro phrases site p hw h
  rw [phrase] at h
  split at h
  · cases h
  · obtain ⟨a, ha, h⟩ := bind_eq_ok.mp h
    cases h
    have hc := of_expectOption shows_value hw ha
    refine ⟨?_, by simpa using ‹¬names.isEmpty = true›, (Expr.isOptionalValue_iff a).mpr hc.2⟩
    show site.id :: Expr.idsOfOption a = site.id :: init.toList.flatMap (idsAt phrases)
    rw [Expr.idsOfOption_eq_flatMap, hc.1]

theorem gathers_functionDeclaration (q : Qualifier) (t : Ty) (name : String)
    (args : List NodeId) : Gathers (.functionDeclaration q t name args) := by
  intro phrases site p hw h
  obtain ⟨as, has, h⟩ := bind_eq_ok.mp h
  cases h
  have hc := of_expectAll shows_varDecl hw has
  refine ⟨?_, hc.2⟩
  show site.id :: VarDecl.idsOfAll as = site.id :: args.flatMap (idsAt phrases)
  rw [VarDecl.idsOfAll_eq_flatMap, hc.1]

theorem gathers_functionDefinition (q : Qualifier) (t : Ty) (name : String)
    (args : List NodeId) (body : NodeId) : Gathers (.functionDefinition q t name args body) := by
  intro phrases site p hw h
  obtain ⟨as, has, h⟩ := bind_eq_ok.mp h
  obtain ⟨b, hb, h⟩ := bind_eq_ok.mp h
  cases h
  have hc := of_expectAll shows_varDecl hw has
  have hd := of_expect shows_block hw hb
  refine ⟨?_, hc.2, hd.2⟩
  show site.id :: (VarDecl.idsOfAll as ++ b.stmt.ids) =
    site.id :: (args ++ [body]).flatMap (idsAt phrases)
  rw [VarDecl.idsOfAll_eq_flatMap, List.flatMap_append, hc.1, List.flatMap_singleton, hd.1]

/-! Statements. -/

theorem gathers_block (ds body : List NodeId) : Gathers (.block ds body) := by
  intro phrases site p hw h
  obtain ⟨as, has, h⟩ := bind_eq_ok.mp h
  obtain ⟨bs, hbs, h⟩ := bind_eq_ok.mp h
  cases h
  have hc := of_expectAll shows_varDecl hw has
  have hd := of_expectAll shows_stmt hw hbs
  refine ⟨?_, hc.2, (Stmt.allWellPlaced_iff bs).mpr hd.2⟩
  show site.id :: (VarDecl.idsOfAll as ++ Stmt.idsOfAll bs) =
    site.id :: (ds ++ body).flatMap (idsAt phrases)
  rw [VarDecl.idsOfAll_eq_flatMap, Stmt.idsOfAll_eq_flatMap, List.flatMap_append, hc.1, hd.1]

theorem gathers_evaluation (e : NodeId) : Gathers (.evaluation e) := by
  intro phrases site p hw h
  obtain ⟨a, ha, h⟩ := bind_eq_ok.mp h
  cases h
  have hc := of_expect shows_value hw ha
  refine ⟨?_, hc.2⟩
  show site.id :: a.ids = site.id :: [e].flatMap (idsAt phrases)
  rw [List.flatMap_singleton, hc.1]

theorem gathers_write (args : List NodeId) (newline : Bool) : Gathers (.write args newline) := by
  intro phrases site p hw h
  obtain ⟨as, has, h⟩ := bind_eq_ok.mp h
  cases h
  have hc := of_expectAll shows_value hw has
  refine ⟨?_, (Expr.allValues_iff as).mpr hc.2⟩
  show site.id :: Expr.idsOfAll as = site.id :: args.flatMap (idsAt phrases)
  rw [Expr.idsOfAll_eq_flatMap, hc.1]

theorem gathers_ifThen (c t : NodeId) : Gathers (.ifThen c t) := by
  intro phrases site p hw h
  obtain ⟨a, ha, h⟩ := bind_eq_ok.mp h
  obtain ⟨b, hb, h⟩ := bind_eq_ok.mp h
  cases h
  have hc := of_expect shows_value hw ha
  have hd := of_expect shows_stmt hw hb
  refine ⟨?_, hc.2, hd.2⟩
  show site.id :: (a.ids ++ b.ids) = site.id :: [c, t].flatMap (idsAt phrases)
  rw [List.flatMap_cons, List.flatMap_singleton, hc.1, hd.1]

theorem gathers_ifElse (c t e : NodeId) : Gathers (.ifElse c t e) := by
  intro phrases site p hw h
  obtain ⟨a, ha, h⟩ := bind_eq_ok.mp h
  obtain ⟨b, hb, h⟩ := bind_eq_ok.mp h
  obtain ⟨d, hd, h⟩ := bind_eq_ok.mp h
  cases h
  have hc := of_expect shows_value hw ha
  have ht := of_expect shows_stmt hw hb
  have he := of_expect shows_stmt hw hd
  refine ⟨?_, hc.2, ht.2, he.2⟩
  show site.id :: (a.ids ++ (b.ids ++ d.ids)) = site.id :: [c, t, e].flatMap (idsAt phrases)
  rw [List.flatMap_cons, List.flatMap_cons, List.flatMap_singleton, hc.1, ht.1, he.1]

theorem gathers_forLoop (inits : List NodeId) (c : Option NodeId) (incs : List NodeId)
    (body : NodeId) : Gathers (.forLoop inits c incs body) := by
  intro phrases site p hw h
  obtain ⟨as, has, h⟩ := bind_eq_ok.mp h
  obtain ⟨a, ha, h⟩ := bind_eq_ok.mp h
  obtain ⟨bs, hbs, h⟩ := bind_eq_ok.mp h
  obtain ⟨b, hb, h⟩ := bind_eq_ok.mp h
  cases h
  have hi := of_expectAll shows_loopInit hw has
  have hc := of_expectOption shows_value hw ha
  have hn := of_expectAll shows_value hw hbs
  have hd := of_expect shows_stmt hw hb
  refine ⟨?_, hi.2, (Expr.isOptionalValue_iff a).mpr hc.2, (Expr.allValues_iff bs).mpr hn.2, hd.2⟩
  show site.id :: (LoopInit.idsOfAll as ++ (Expr.idsOfOption a ++ (Expr.idsOfAll bs ++ b.ids))) =
    site.id :: (inits ++ c.toList ++ incs ++ [body]).flatMap (idsAt phrases)
  rw [LoopInit.idsOfAll_eq_flatMap, Expr.idsOfOption_eq_flatMap, Expr.idsOfAll_eq_flatMap,
    List.flatMap_append, List.flatMap_append, List.flatMap_append, List.flatMap_singleton, hi.1,
    hc.1, hn.1, hd.1, List.append_assoc, List.append_assoc]

theorem gathers_return (v : Option NodeId) : Gathers (.return v) := by
  intro phrases site p hw h
  obtain ⟨a, ha, h⟩ := bind_eq_ok.mp h
  cases h
  have hc := of_expectOption shows_value hw ha
  refine ⟨?_, (Expr.isOptionalValue_iff a).mpr hc.2⟩
  show site.id :: Expr.idsOfOption a = site.id :: v.toList.flatMap (idsAt phrases)
  rw [Expr.idsOfOption_eq_flatMap, hc.1]

/-! Expressions. -/

theorem gathers_pointerIndex (b i : NodeId) : Gathers (.pointerIndex b i) := by
  intro phrases site p hw h
  obtain ⟨a, ha, h⟩ := bind_eq_ok.mp h
  obtain ⟨c, hc, h⟩ := bind_eq_ok.mp h
  cases h
  have hb := of_expect shows_value hw ha
  have hi := of_expect shows_value hw hc
  refine ⟨?_, hb.2, hi.2⟩
  show site.id :: (a.ids ++ c.ids) = site.id :: [b, i].flatMap (idsAt phrases)
  rw [List.flatMap_cons, List.flatMap_singleton, hb.1, hi.1]

theorem gathers_tupleIndex (b : NodeId) (i : Int32) : Gathers (.tupleIndex b i) := by
  intro phrases site p hw h
  obtain ⟨a, ha, h⟩ := bind_eq_ok.mp h
  cases h
  have hb := of_expect shows_expr hw ha
  refine ⟨?_, hb.2⟩
  show site.id :: a.ids = site.id :: [b].flatMap (idsAt phrases)
  rw [List.flatMap_singleton, hb.1]

theorem gathers_rvalue (place : NodeId) : Gathers (.rvalue place) := by
  intro phrases site p hw h
  obtain ⟨a, ha, h⟩ := bind_eq_ok.mp h
  cases h
  have hp := of_expect shows_place hw ha
  refine ⟨?_, hp.2⟩
  show site.id :: a.ids = site.id :: [place].flatMap (idsAt phrases)
  rw [List.flatMap_singleton, hp.1]

theorem gathers_assignment (place v : NodeId) : Gathers (.assignment place v) := by
  intro phrases site p hw h
  obtain ⟨a, ha, h⟩ := bind_eq_ok.mp h
  obtain ⟨b, hb, h⟩ := bind_eq_ok.mp h
  cases h
  have hp := of_expect shows_place hw ha
  have hv := of_expect shows_value hw hb
  refine ⟨?_, hp.2, hv.2⟩
  show site.id :: (a.ids ++ b.ids) = site.id :: [place, v].flatMap (idsAt phrases)
  rw [List.flatMap_cons, List.flatMap_singleton, hp.1, hv.1]

theorem gathers_unary (op : UnaryOp) (a : NodeId) : Gathers (.unary op a) := by
  intro phrases site p hw h
  obtain ⟨b, hb, h⟩ := bind_eq_ok.mp h
  cases h
  have hc := of_expect shows_value hw hb
  refine ⟨?_, hc.2⟩
  show site.id :: b.ids = site.id :: [a].flatMap (idsAt phrases)
  rw [List.flatMap_singleton, hc.1]

theorem gathers_binary (op : BinaryOp) (l r : NodeId) : Gathers (.binary op l r) := by
  intro phrases site p hw h
  obtain ⟨a, ha, h⟩ := bind_eq_ok.mp h
  obtain ⟨b, hb, h⟩ := bind_eq_ok.mp h
  cases h
  have hl := of_expect shows_value hw ha
  have hr := of_expect shows_value hw hb
  refine ⟨?_, hl.2, hr.2⟩
  show site.id :: (a.ids ++ b.ids) = site.id :: [l, r].flatMap (idsAt phrases)
  rw [List.flatMap_cons, List.flatMap_singleton, hl.1, hr.1]

theorem gathers_addressOf (place : NodeId) : Gathers (.addressOf place) := by
  intro phrases site p hw h
  obtain ⟨a, ha, h⟩ := bind_eq_ok.mp h
  cases h
  have hp := of_expect shows_place hw ha
  refine ⟨?_, hp.2⟩
  show site.id :: a.ids = site.id :: [place].flatMap (idsAt phrases)
  rw [List.flatMap_singleton, hp.1]

theorem gathers_stackAlloc (size : NodeId) : Gathers (.stackAlloc size) := by
  intro phrases site p hw h
  obtain ⟨a, ha, h⟩ := bind_eq_ok.mp h
  cases h
  have hn := of_expect shows_value hw ha
  refine ⟨?_, hn.2⟩
  show site.id :: a.ids = site.id :: [size].flatMap (idsAt phrases)
  rw [List.flatMap_singleton, hn.1]

theorem gathers_sizeof (e : NodeId) : Gathers (.sizeof e) := by
  intro phrases site p hw h
  obtain ⟨a, ha, h⟩ := bind_eq_ok.mp h
  cases h
  have he := of_expect shows_expr hw ha
  refine ⟨?_, he.2⟩
  show site.id :: a.ids = site.id :: [e].flatMap (idsAt phrases)
  rw [List.flatMap_singleton, he.1]

theorem gathers_tuple (es : List NodeId) : Gathers (.tuple es) := by
  intro phrases site p hw h
  obtain ⟨as, has, h⟩ := bind_eq_ok.mp h
  cases h
  have hc := of_expectAll shows_value hw has
  refine ⟨?_, (Expr.allValues_iff as).mpr hc.2⟩
  show site.id :: Expr.idsOfAll as = site.id :: es.flatMap (idsAt phrases)
  rw [Expr.idsOfAll_eq_flatMap, hc.1]

theorem gathers_functionCall (name : String) (args : List NodeId) :
    Gathers (.functionCall name args) := by
  intro phrases site p hw h
  obtain ⟨as, has, h⟩ := bind_eq_ok.mp h
  cases h
  have hc := of_expectAll shows_value hw has
  refine ⟨?_, (Expr.allValues_iff as).mpr hc.2⟩
  show site.id :: Expr.idsOfAll as = site.id :: args.flatMap (idsAt phrases)
  rw [Expr.idsOfAll_eq_flatMap, hc.1]

/-- A phrase made of a node without children is that node alone. -/
theorem gathers_leaf {k : Kind} (hk : k.children = [])
    (hq : ∀ phrases site, ∃ q : Phrase,
      phrase phrases site k = .ok q ∧ q.ids = [site.id] ∧ q.WellPlaced) : Gathers k := by
  intro phrases site p _ h
  obtain ⟨q, hq, hids⟩ := hq phrases site
  cases hq.symm.trans h
  rw [hk]
  exact hids

/-- **Every kind of node gathers** its own id and those of its children. -/
theorem gathers (k : Kind) : Gathers k := by
  cases k with
  | program ds => exact gathers_program ds
  | variableDeclaration q t names init => exact gathers_variableDeclaration q t names init
  | functionDeclaration q t name args => exact gathers_functionDeclaration q t name args
  | functionDefinition q t name args body => exact gathers_functionDefinition q t name args body
  | block ds body => exact gathers_block ds body
  | evaluation e => exact gathers_evaluation e
  | write args newline => exact gathers_write args newline
  | ifThen c t => exact gathers_ifThen c t
  | ifElse c t e => exact gathers_ifElse c t e
  | forLoop inits c incs body => exact gathers_forLoop inits c incs body
  | «break» => exact gathers_leaf rfl fun _ _ => ⟨_, rfl, rfl, trivial⟩
  | «continue» => exact gathers_leaf rfl fun _ _ => ⟨_, rfl, rfl, trivial⟩
  | «return» v => exact gathers_return v
  | integer n => exact gathers_leaf rfl fun _ _ => ⟨_, rfl, rfl, trivial⟩
  | double d => exact gathers_leaf rfl fun _ _ => ⟨_, rfl, rfl, trivial⟩
  | string s => exact gathers_leaf rfl fun _ _ => ⟨_, rfl, rfl, trivial⟩
  | nullptr => exact gathers_leaf rfl fun _ _ => ⟨_, rfl, rfl, trivial⟩
  | input => exact gathers_leaf rfl fun _ _ => ⟨_, rfl, rfl, trivial⟩
  | «variable» name => exact gathers_leaf rfl fun _ _ => ⟨_, rfl, rfl, trivial⟩
  | pointerIndex b i => exact gathers_pointerIndex b i
  | tupleIndex b i => exact gathers_tupleIndex b i
  | rvalue place => exact gathers_rvalue place
  | assignment place v => exact gathers_assignment place v
  | unary op a => exact gathers_unary op a
  | binary op l r => exact gathers_binary op l r
  | addressOf place => exact gathers_addressOf place
  | stackAlloc size => exact gathers_stackAlloc size
  | sizeof e => exact gathers_sizeof e
  | tuple es => exact gathers_tuple es
  | functionCall name args => exact gathers_functionCall name args

/-! ### The references of a node -/

/-- **What taking the children of a node ensures**: they differ, none of them was taken before, and
they are what is taken on top of that. -/
theorem of_foldlM_take {index : Nat} {children : List NodeId} {taken taken' : Array Bool}
    (h : children.foldlM (fun taken child => take taken index child) taken = .ok taken') :
    children.Nodup ∧ (∀ c ∈ children, taken[c.index]? = some false) ∧ taken'.size = taken.size ∧
      ∀ i : Nat, taken'[i]? = some false ↔
        taken[i]? = some false ∧ ∀ c ∈ children, c.index ≠ i := by
  induction children generalizing taken with
  | nil =>
    cases h
    simp
  | cons c cs ih =>
    rw [List.foldlM_cons] at h
    obtain ⟨mid, hmid, hrest⟩ := bind_eq_ok.mp h
    rw [take] at hmid
    split at hmid <;> cases hmid
    have hc : taken[c.index]? = some false := ‹_›
    have hlt : c.index < taken.size := (Array.getElem?_eq_some_iff.mp hc).1
    obtain ⟨hnodup, hfree, hsize, hleft⟩ := ih hrest
    have hmid : ∀ i : Nat, (taken.setIfInBounds c.index true)[i]? = some false ↔
        taken[i]? = some false ∧ c.index ≠ i := by
      intro i
      rw [Array.getElem?_setIfInBounds]
      by_cases hi : c.index = i
      · subst hi
        simp [hlt]
      · simp [hi]
    refine ⟨List.nodup_cons.mpr ⟨fun hmem => ?_, hnodup⟩, ?_, ?_, ?_⟩
    · exact ((hmid c.index).mp (hfree c hmem)).2 rfl
    · rw [List.forall_mem_cons]
      exact ⟨hc, fun d hd => ((hmid d.index).mp (hfree d hd)).1⟩
    · rw [hsize, Array.size_setIfInBounds]
    · intro i
      rw [hleft i, hmid i, List.forall_mem_cons, and_assoc]

/-! ### The invariant of the reading -/

/-- The index of the id made for an index is that index, as long as ids last. -/
theorem index_ofIndex {i : Nat} (h : i < UInt32.size) : (NodeId.ofIndex i).index = i := by
  simpa [NodeId.ofIndex, NodeId.index, UInt32.size] using h

theorem index_lt_size (id : NodeId) : id.index < UInt32.size := id.val.toNat_lt

/-- **The invariant of the reading.** It speaks of the nodes that an id can name: no later node
refers to any other. -/
structure Sound (f : Forest) : Prop where
  /-- Every phrase is either taken or not. -/
  size_eq : f.taken.size = f.phrases.size
  /-- A phrase is made of nodes up to its own. -/
  index_le : ∀ {i p}, f.phrases[i]? = some p → i < UInt32.size → ∀ id ∈ p.ids, id.index ≤ i
  /-- A phrase has no id twice. -/
  nodup : ∀ {i p}, f.phrases[i]? = some p → i < UInt32.size → p.ids.Nodup
  /-- Phrases that are not taken have no id in common. -/
  disjoint : ∀ {i j p q}, f.phrases[i]? = some p → f.phrases[j]? = some q → i ≠ j →
    i < UInt32.size → j < UInt32.size → f.taken[i]? = some false → f.taken[j]? = some false →
      p.ids.Disjoint q.ids
  /-- In every phrase everything is in its place. -/
  wellPlaced : ∀ p ∈ f.phrases, p.WellPlaced

theorem Sound.empty : empty.Sound where
  size_eq := rfl
  index_le h := by simp [Forest.empty] at h
  nodup h := by simp [Forest.empty] at h
  disjoint h := by simp [Forest.empty] at h
  wellPlaced p h := by simp [Forest.empty] at h

namespace Sound

variable {f : Forest} {children : List NodeId}

/-- The ids below a node are those of nodes before it. -/
theorem index_lt_of_mem (hf : f.Sound) {c id : NodeId} (h : id ∈ idsAt f.phrases c) :
    id.index < f.phrases.size := by
  rw [idsAt] at h
  split at h
  · have hc : c.index < f.phrases.size := (Array.getElem?_eq_some_iff.mp ‹_›).1
    exact Nat.lt_of_le_of_lt (hf.index_le ‹_› (index_lt_size c) id h) hc
  · cases h

/-- Two nodes that are not taken have no id in common. -/
theorem disjoint_idsAt (hf : f.Sound) {c d : NodeId} (hne : c ≠ d)
    (hc : f.taken[c.index]? = some false) (hd : f.taken[d.index]? = some false) :
    (idsAt f.phrases c).Disjoint (idsAt f.phrases d) := by
  rw [idsAt, idsAt]
  split
  · split
    · exact hf.disjoint ‹_› ‹_› (fun h => hne (NodeId.index_injective h)) (index_lt_size c)
        (index_lt_size d) hc hd
    · exact List.disjoint_nil_right _
  · exact List.disjoint_nil_left _

/-- The ids below a node that takes nodes not taken before are all different. -/
theorem nodup_flatMap_idsAt (hf : f.Sound) (hnodup : children.Nodup)
    (hfree : ∀ c ∈ children, f.taken[c.index]? = some false) :
    (children.flatMap (idsAt f.phrases)).Nodup := by
  rw [List.nodup_flatMap]
  constructor
  · intro c _
    rw [idsAt]
    split
    · exact hf.nodup ‹_› (index_lt_size c)
    · exact List.nodup_nil
  · refine hnodup.imp_of_mem fun hc hd hne => ?_
    exact hf.disjoint_idsAt hne (hfree _ hc) (hfree _ hd)

/-- **Reading a node keeps the invariant.** The node comes on top of what it takes, so what is left
over is still apart. -/
theorem read {g : Forest} (hf : f.Sound) {node : Node} (h : f.read node = .ok g) : g.Sound := by
  obtain ⟨taken, htaken, h⟩ := bind_eq_ok.mp h
  obtain ⟨p, hp, h⟩ := bind_eq_ok.mp h
  cases h
  obtain ⟨hnodup, hfree, hsize, hleft⟩ := of_foldlM_take htaken
  obtain ⟨hids, hplaced⟩ := gathers node.kind _ _ _ hf.wellPlaced hp
  have hlast : ∀ {i q}, (f.phrases.push p)[i]? = some q →
      (i = f.phrases.size ∧ q = p) ∨ (i < f.phrases.size ∧ f.phrases[i]? = some q) := by
    intro i q hq
    rw [Array.getElem?_push] at hq
    split at hq
    · cases hq
      exact Or.inl ⟨‹_›, rfl⟩
    · exact Or.inr ⟨(Array.getElem?_eq_some_iff.mp hq).1, hq⟩
  have hmem : ∀ {id}, f.phrases.size < UInt32.size → id ∈ p.ids →
      id.index = f.phrases.size ∨ ∃ c ∈ node.kind.children, id ∈ idsAt f.phrases c := by
    intro id hlt hid
    rw [hids, List.mem_cons, List.mem_flatMap] at hid
    rcases hid with rfl | hid
    · exact Or.inl (index_ofIndex hlt)
    · exact Or.inr hid
  -- What is left over of the old phrases is apart from what the new node takes.
  have hnew : ∀ {i q}, f.phrases[i]? = some q → i < UInt32.size → f.phrases.size < UInt32.size →
      taken[i]? = some false → q.ids.Disjoint p.ids := by
    intro i q hq hi hlt hfalse id hidq hidp
    have hle := hf.index_le hq hi id hidq
    have hlt' : i < f.phrases.size := (Array.getElem?_eq_some_iff.mp hq).1
    rcases hmem hlt hidp with heq | ⟨c, hc, hidc⟩
    · omega
    · rw [idsAt] at hidc
      split at hidc
      · exact hf.disjoint hq ‹_› (fun h => ((hleft i).mp hfalse).2 c hc h.symm) hi (index_lt_size c)
          ((hleft i).mp hfalse).1 (hfree c hc) hidq hidc
      · cases hidc
  refine ⟨?_, ?_, ?_, ?_, ?_⟩
  · rw [Array.size_push, Array.size_push, hsize, hf.size_eq]
  · intro i q hq hi id hid
    rcases hlast hq with ⟨rfl, rfl⟩ | ⟨_, hq⟩
    · rcases hmem hi hid with heq | ⟨c, _, hidc⟩
      · exact Nat.le_of_eq heq
      · exact Nat.le_of_lt (hf.index_lt_of_mem hidc)
    · exact hf.index_le hq hi id hid
  · intro i q hq hi
    rcases hlast hq with ⟨rfl, rfl⟩ | ⟨_, hq⟩
    · rw [hids, List.nodup_cons]
      refine ⟨fun hin => ?_, hf.nodup_flatMap_idsAt hnodup hfree⟩
      obtain ⟨c, _, hidc⟩ := List.mem_flatMap.mp hin
      have hlt := hf.index_lt_of_mem hidc
      rw [index_ofIndex hi] at hlt
      exact Nat.lt_irrefl _ hlt
    · exact hf.nodup hq hi
  · intro i j q r hq hr hne hi hj hti htj
    have hold : ∀ {k : Nat}, k < f.phrases.size → (taken.push false)[k]? = some false →
        taken[k]? = some false := by
      intro k hk hkt
      rwa [Array.getElem?_push_lt (by rw [hsize, hf.size_eq]; exact hk),
        ← Array.getElem?_eq_getElem] at hkt
    rcases hlast hq with ⟨rfl, rfl⟩ | ⟨hlti, hq'⟩ <;>
      rcases hlast hr with ⟨rfl, rfl⟩ | ⟨hltj, hr'⟩
    · exact absurd rfl hne
    · exact List.disjoint_symm (hnew hr' hj hi (hold hltj htj))
    · exact hnew hq' hi hj (hold hlti hti)
    · exact hf.disjoint hq' hr' hne hi hj ((hleft i).mp (hold hlti hti)).1
        ((hleft j).mp (hold hltj htj)).1
  · intro q hq
    rcases Array.mem_push.mp hq with hq | rfl
    · exact hf.wellPlaced q hq
    · exact hplaced

end Sound

end Forest

/-! ### Trees -/

namespace SyntaxTree

variable {nodes : Array Node} {root : NodeId} {t : SyntaxTree}

/-- What the reading of a tree leaves of the unit: a sound phrase with its declarations. -/
theorem exists_program (h : ofNodes nodes root = .ok t) :
    ∃ site, (Phrase.program site t.declarations).ids.Nodup ∧
      (Phrase.program site t.declarations).WellPlaced := by
  rw [ofNodes] at h
  split at h
  · cases h
  case h_3 => cases h
  obtain ⟨f, hf, h⟩ := bind_eq_ok.mp h
  have hsound : f.Sound :=
    foldlM_eq_ok (motive := Forest.Sound) (fun _ _ _ hb hr => hb.read hr) Forest.Sound.empty hf
  split at h
  · cases h
    exact ⟨_, hsound.nodup ‹_› (Forest.index_lt_size root),
      hsound.wellPlaced _ (Array.mem_of_getElem? ‹_›)⟩
  · cases h

/-- **In a tree no id occurs twice.** -/
theorem nodup_ids (h : ofNodes nodes root = .ok t) : (Decl.idsOfAll t.declarations).Nodup := by
  obtain ⟨site, hnodup, -⟩ := exists_program h
  exact (List.nodup_cons.mp hnodup).2

/-- In a declaration of a tree no id occurs twice. -/
theorem nodup_ids_of_mem (h : ofNodes nodes root = .ok t) {d : Decl} (hd : d ∈ t.declarations) :
    d.ids.Nodup := by
  have hnodup := nodup_ids h
  rw [Decl.idsOfAll_eq_flatMap] at hnodup
  exact (List.nodup_flatMap.mp hnodup).1 d hd

/-- **In a tree everything is where it belongs.** -/
theorem wellPlaced (h : ofNodes nodes root = .ok t) : ∀ d ∈ t.declarations, d.WellPlaced := by
  obtain ⟨site, -, hplaced⟩ := exists_program h
  exact hplaced

/-- The function of a unit that declares nothing else. -/
def onlyFunction? (t : SyntaxTree) : Option Function :=
  match t.declarations with
  | [.define f] => some f
  | _ => none

theorem onlyFunction?_eq_some {f : Function} :
    t.onlyFunction? = some f ↔ t.declarations = [.define f] := by
  unfold onlyFunction?
  split
  · rename_i g hg
    simp [hg]
  · rename_i hother
    exact ⟨nofun, fun hf => absurd hf (hother f)⟩

end SyntaxTree

end PostfixCompiler
