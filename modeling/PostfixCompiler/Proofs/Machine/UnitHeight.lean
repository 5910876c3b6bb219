import PostfixCompiler.Proofs.Machine.StmtHeight

/-!
# The heights of a unit

The variables of a unit are data and leave the stack alone, and the functions of a unit start and
end at height
0. So all of the code of a unit is balanced, and since no label that is made up stands in it twice,
  a run of a function finds each instruction at the same height whatever way it takes.

## Main definitions

* `PostfixCompiler.Emission.isDirective`: an instruction that lays out data and is never run.
* `PostfixCompiler.Function.start`: where the frame of a function is set up, in its code.

## Main statements

* `PostfixCompiler.Decl.balanced_outlineOfAll`: the code of a unit is balanced.
* `PostfixCompiler.heights_agree`: a run of a function finds each instruction at the same height.
-/

namespace PostfixCompiler

open Emission

/-! ### Data -/

namespace Emission

/-- An instruction that lays out data, or says where it goes. -/
def isDirective : Instr → Bool
  | .text | .data | .rodata | .bss | .align | .label _ | .global .. | .external _ | .staticInt _
  | .staticDouble _ | .staticString _ | .staticAddress _ | .staticBytes _ => true
  | _ => false

/-- Directives leave the stack alone. -/
theorem balanced_directives {ls : String → Int → Prop} {h : Int} (h0 : 0 ≤ h) :
    ∀ {is : List Instr}, (∀ i ∈ is, isDirective i = true) → Balanced ls h is ∧ rise is = 0
  | [], _ => ⟨h0, rfl⟩
  | i :: is, hall => by
    rw [List.forall_mem_cons] at hall
    obtain ⟨hb, hr⟩ := balanced_directives h0 hall.2
    have hi : effect i = 0 ∧ InOrder ls h i := by
      cases i with
      | text | data | rodata | bss | align | label | global | external | staticInt | staticDouble
      | staticString | staticAddress | staticBytes => exact ⟨rfl, trivial⟩
      | _ => cases hall.1
    rw [Balanced, rise, hi.1, Int.add_zero, hr]
    exact ⟨⟨h0, hi.2, hb⟩, rfl⟩

end Emission

namespace Expr

mutual

theorem directive_text : ∀ (e : Expr) (n : Nat), ∀ i ∈ e.textCode n, isDirective i = true
  | .string _ s, n => by simp [textCode, isDirective]
  | .tuple _ es, n => directive_texts es n
  | .integer .., n | .double .., n | .nullptr _, n | .input _, n | .variable .., n
  | .pointerIndex .., n | .tupleIndex .., n | .rvalue .., n | .assignment .., n | .unary .., n
  | .binary .., n | .addressOf .., n | .stackAlloc .., n | .sizeof .., n
  | .call .., n => by simp [textCode]

theorem directive_texts :
    ∀ (es : List Expr) (n : Nat), ∀ i ∈ textCodeOfAll n es, isDirective i = true
  | [], n => by simp [textCodeOfAll]
  | e :: es, n => by
    rw [textCodeOfAll, List.forall_mem_append]
    exact ⟨directive_text e n, directive_texts es _⟩

end

mutual

theorem directive_image : ∀ (e : Expr) (next : Nat) (target : Ty),
    ∀ i ∈ e.imageCode next target, isDirective i = true
  | .integer .., next, target => by
    rw [imageCode]
    split <;> simp [isDirective]
  | .double .., _, _ | .nullptr _, _, _ | .string .., _, _ => by
    rw [imageCode]
    simp [isDirective]
  | .tuple _ [e], next, target => by
    rw [imageCode]
    exact directive_image e next target
  | .tuple _ [], next, target | .tuple _ (_ :: _ :: _), next, target => by
    unfold imageCode
    exact directive_images _ next _
  | .input _, _, _ | .variable .., _, _ | .pointerIndex .., _, _
  | .tupleIndex .., _, _ | .rvalue .., _, _ | .assignment .., _, _ | .unary .., _, _
  | .binary .., _, _ | .addressOf .., _, _ | .stackAlloc .., _, _ | .sizeof .., _, _
  | .call .., _, _ => by simp [imageCode]

theorem directive_images : ∀ (es : List Expr) (next : Nat) (targets : List Ty),
    ∀ i ∈ imageCodeOfAll next targets es, isDirective i = true
  | [], _, _ | _ :: _, _, [] => by
    rw [imageCodeOfAll] <;> simp
  | e :: es, next, t :: ts => by
    rw [imageCodeOfAll, List.forall_mem_append]
    exact ⟨directive_image e next t, directive_images es _ ts⟩

end

end Expr

namespace VarDecl

theorem directive_head (d : VarDecl) {segment : Instr} (hs : isDirective segment = true)
    (name : String) :
    ∀ i ∈ d.headCode segment name, isDirective i = true := by
  rw [headCode, List.forall_mem_append, List.forall_mem_append, List.forall_mem_cons]
  refine ⟨⟨⟨hs, by simp [isDirective]⟩, ?_⟩, by simp [isDirective]⟩
  split <;> simp [isDirective]

theorem directive_each (d : VarDecl) (n : Nat) (names : List String) (ts : List Ty)
    (values : List (Option Expr)) : ∀ i ∈ d.eachCode n names ts values, isDirective i = true := by
  induction names generalizing n ts values with
  | nil => simp [eachCode]
  | cons name names ih =>
    cases ts with
    | nil => simp [eachCode]
    | cons t ts =>
      cases values with
      | nil => simp [eachCode]
      | cons value values =>
        rw [eachCode, List.forall_mem_append]
        refine ⟨?_, ih _ _ _⟩
        cases value with
        | none =>
          rw [variableCode, List.forall_mem_append]
          exact ⟨d.directive_head rfl name, by simp [isDirective]⟩
        | some e =>
          rw [variableCode, List.forall_mem_append, List.forall_mem_append]
          exact ⟨⟨e.directive_text n, d.directive_head rfl name⟩, e.directive_image _ _⟩

theorem directive_lay (d : VarDecl) (T : TypeTable) (n : Nat) :
    ∀ i ∈ d.layCode T n, isDirective i = true := by
  unfold layCode
  split
  · simp
  · exact d.directive_each _ _ _ _

end VarDecl

/-! ### Units -/

namespace Decl

variable {T : TypeTable} {config : Config} {scope : View Symbol} {out : String → Int → Prop}

/-- **The code of declarations starts and ends at height 0.** -/
theorem climbs_outlineOfAll (hΓ : View.Settled Ty.Sound scope.meanings) {ds : List Decl}
    (h : ∀ d ∈ ds, d.Typed Ty.Sound T scope.meanings) (hw : ∀ d ∈ ds, d.WellPlaced) (n : Nat) :
    (outlineOfAll T config scope n ds).Climbs T out 0 0 := by
  induction ds generalizing n with
  | nil => exact .done (Int.le_refl 0)
  | cons d ds ih =>
    rw [List.forall_mem_cons] at h hw
    refine Outline.Climbs.append ?_ (ih h.2 hw.2 _)
    cases d with
    | «variable» d =>
      obtain ⟨hb, hr⟩ := balanced_directives (Int.le_refl 0) (d.directive_lay T n)
      exact .ofCode hb (by rw [hr, Int.add_zero])
    | declare => exact .done (Int.le_refl 0)
    | define f =>
      obtain ⟨R, hf⟩ := h.1
      exact f.climbs hΓ hf hw.1 n

end Decl

namespace Function

/-- **Where the frame of a function is set up**, counted from the start of its code. -/
def start (T : TypeTable) (config : Config) (scope : View Symbol) (f : Function) : Nat :=
  (f.head T config scope).length - 1

theorem getElem?_head (T : TypeTable) (config : Config) (scope : View Symbol) (f : Function) :
    (f.head T config scope)[f.start T config scope]? = some (.enter (f.frame T).frameSize) := by
  have hlast : ∃ is, f.head T config scope = is ++ [.enter (f.frame T).frameSize] :=
    ⟨_, (List.append_assoc _ [Instr.label (calleeLabel config scope f.signature.name)] _).symm⟩
  obtain ⟨is, his⟩ := hlast
  rw [start, ← List.getLast?_eq_getElem?, his, List.getLast?_concat]

theorem length_head (T : TypeTable) (config : Config) (scope : View Symbol) (f : Function) :
    (f.head T config scope).length = f.start T config scope + 1 := by
  obtain ⟨hlt, -⟩ := List.getElem?_eq_some_iff.mp (getElem?_head T config scope f)
  rw [start] at hlt ⊢
  omega

theorem getElem?_start (T : TypeTable) (config : Config) (scope : View Symbol)
    (f : Function) (n : Nat) :
    (f.outline T config scope n).code[f.start T config scope]? =
      some (.enter (f.frame T).frameSize) := by
  have hhead := getElem?_head T config scope f
  obtain ⟨hlt, -⟩ := List.getElem?_eq_some_iff.mp hhead
  simp only [outline, Outline.code_piece, Outline.code_append, Outline.code_ofCode,
    List.append_assoc]
  rw [List.getElem?_append_left hlt, hhead]

end Function

/-- Of code in the middle of other code the instructions are found by position. -/
theorem Emission.getElem?_middle {front is back : List Instr} {i : Nat} {x : Instr}
    (h : is[i]? = some x) :
    (front ++ is ++ back)[front.length + i]? = some x := by
  obtain ⟨hlt, -⟩ := List.getElem?_eq_some_iff.mp h
  rw [List.append_assoc, List.getElem?_append_right (Nat.le_add_right _ _), Nat.add_sub_cancel_left,
    List.getElem?_append_left hlt, h]

/-- How far code in the middle of other code moves the top of the stack, up to a position in it. -/
theorem Emission.rise_middle {front is : List Instr} (back : List Instr) {i : Nat}
    (hi : i ≤ is.length) :
    rise ((front ++ is ++ back).take (front.length + i)) = rise front + rise (is.take i) := by
  rw [List.append_assoc, List.take_length_add_append, List.take_append_of_le_length hi, rise_append]

namespace Typing

variable {ds : List Decl} {T : TypeTable} {σ : SymbolTable} {config : Config}

/-- **The code of an accepted unit is balanced.** -/
theorem Accepted.balanced (h : Accepted Ty.Sound ds T σ) (hw : ∀ d ∈ ds, d.WellPlaced)
    (externs : List String) :
    Balanced (Places 0 ((Decl.outlineOfAll T config σ.scope 0 ds).code ++ externs.map .external)) 0
      ((Decl.outlineOfAll T config σ.scope 0 ds).code ++ externs.map .external) := by
  have hnames : σ.names = σ.scope.meanings := σ.names_eq
  have hclimbs : (Decl.outlineOfAll T config σ.scope 0 ds).Climbs T (fun _ _ => False) 0 0 :=
    Decl.climbs_outlineOfAll (hnames ▸ h.names) (hnames ▸ h.typed) hw 0
  have hexterns : ∀ i ∈ externs.map Instr.external, isDirective i = true := by
    simp only [List.mem_map]
    rintro _ ⟨name, -, rfl⟩
    rfl
  refine (hclimbs.balanced.mono fun l k hl => ?_).append ?_
  · exact (hl.resolve_left id).left _
  · rw [← hclimbs.rise_eq]
    exact (balanced_directives (Int.le_refl 0) hexterns).1

/-- **In the code of an accepted unit no label that is made up stands twice**, if names are not
reserved. -/
theorem Accepted.makes {P : Ty → Prop} (h : Accepted P ds T σ) (hnames : Decl.Unreserved config ds)
    (externs : List String) :
    Makes ((Decl.outlineOfAll T config σ.scope 0 ds).code ++ externs.map .external) 0
      (Decl.labelCountOfAll ds) := by
  have hall :
      Makes (Decl.outlineOfAll T config σ.scope 0 ds).code 0 (0 + Decl.labelCountOfAll ds) :=
    Decl.makes_outlineOfAll (fun _ _ hs => h.closed.name_eq hs) hnames 0
  rw [Nat.zero_add] at hall
  exact hall.append (makes_of_forall (by simp) _)

end Typing

section Compile

variable {P : Ty → Prop} {nodes : Array Node} {root : NodeId} {t : SyntaxTree} {T : TypeTable}
  {σ : SymbolTable}
  {config : Config} {c : Compilation}

/-- In compiled code no label that is made up stands twice, if names are not reserved. -/
theorem makes_compile (hP : Ty.Stable P) (h : SyntaxTree.ofNodes nodes root = .ok t)
    (ht : ∀ d ∈ t.declarations, ∀ u ∈ d.writtenTypes, Typing.Written P u)
    (hcheck : Typing.checkTree t = .ok (T, σ)) (hnames : Decl.Unreserved config t.declarations)
    (hc : compile t config = .ok c) : Makes c.code 0 (Decl.labelCountOfAll t.declarations) := by
  obtain ⟨externs, hunit⟩ := exists_compile hP h ht hcheck config
  cases hunit.symm.trans hc
  exact ((Typing.checkTree_outcome hP h ht).1 T σ hcheck).makes hnames externs

/-- Compiled code is balanced, if the types that are written are proper. -/
theorem balanced_compile (h : SyntaxTree.ofNodes nodes root = .ok t)
    (ht : ∀ d ∈ t.declarations, ∀ u ∈ d.writtenTypes, Typing.Written Ty.Sound u)
    (hcheck : Typing.checkTree t = .ok (T, σ)) (hc : compile t config = .ok c) :
    Balanced (Places 0 c.code) 0 c.code := by
  obtain ⟨externs, hunit⟩ := exists_compile Ty.stable_sound h ht hcheck config
  cases hunit.symm.trans hc
  exact ((Typing.checkTree_outcome Ty.stable_sound h ht).1 T σ hcheck).balanced
    (SyntaxTree.wellPlaced h) externs

end Compile

/-- **A run of a function finds each instruction at the same height**, whatever way it takes. The
height is never negative, and 0 wherever the frame is given back; the code of an expression raises
it by the size of the value, or of an address, that it leaves, and the code of a statement leaves it
as it was. -/
theorem heights_agree {nodes : Array Node} {root : NodeId} {t : SyntaxTree}
    (h : SyntaxTree.ofNodes nodes root = .ok t)
    (ht : ∀ d ∈ t.declarations, ∀ u ∈ d.writtenTypes, u.Proper) {T : TypeTable} {σ : SymbolTable}
    (hcheck : Typing.checkTree t = .ok (T, σ)) {config : Config}
    (hnames : Decl.Unreserved config t.declarations) {before after : List Decl} {f : Function}
    (hf : t.declarations = before ++ .define f :: after) :
    ∃ (c : Compilation) (front back : List Instr) (height : Nat → Int), compile t config = .ok c ∧
      c.code = front ++ (f.outline T config σ.scope (Decl.labelCountOfAll before)).code ++ back ∧
      c.code[front.length + f.start T config σ.scope]? = some (.enter (f.frame T).frameSize) ∧
      (∀ i k, Reaches c.code (front.length + f.start T config σ.scope) i k →
        k = height i ∧ 0 ≤ k ∧ (c.code[i]? = some .leave → k = 0)) ∧
      ∀ p i j, (f.outline T config σ.scope (Decl.labelCountOfAll before)).Spans p i j →
        p.Weighs T (height (front.length + j) - height (front.length + i)) := by
  have hwritten : ∀ d ∈ t.declarations, ∀ u ∈ d.writtenTypes, Typing.Written Ty.Sound u :=
    fun d hd u hu hauto => ⟨hauto, ht d hd u hu⟩
  obtain ⟨hΓ, ⟨R, hR⟩, hw, c, front, back, hc, hcode⟩ :=
    exists_function_code Ty.stable_sound h hwritten hcheck config hf
  have hbalanced := balanced_compile h hwritten hcheck hc
  have hmakes := makes_compile Ty.stable_sound h hwritten hcheck hnames hc
  have hstart :
      c.code[front.length + f.start T config σ.scope]? = some (.enter (f.frame T).frameSize) := by
    rw [hcode]
    exact getElem?_middle (f.getElem?_start T config σ.scope _)
  refine ⟨c, front, back, fun i => rise (c.code.take i), hc, hcode, hstart, fun i k hr => ?_,
    fun p i j hp => ?_⟩
  · have hk := hr.eq_rise hbalanced hmakes hstart
    have hinOrder : ∀ x, c.code[i]? = some x →
        InOrder (Places 0 c.code) (0 + rise (c.code.take i)) x :=
      fun x hx => hbalanced.inOrder hx
    rw [Int.zero_add, ← hk] at hinOrder
    refine ⟨hk, ?_, hinOrder .leave⟩
    rw [hk, ← Int.zero_add (rise _)]
    exact hbalanced.nonneg i
  · have hclimbs :
        (f.outline T config σ.scope (Decl.labelCountOfAll before)).Climbs T (fun _ _ => True) 0 0 :=
      f.climbs hΓ hR hw _
    obtain ⟨hweighs, hj⟩ := hp.weighs hclimbs.weighed
    simp only [hcode, rise_middle back hj, rise_middle back (hp.le.trans hj), Int.add_sub_add_left]
    exact hweighs

theorem heights_agree_sample : ∃ t T σ f, SyntaxTree.ofNodes sampleNodes (.ofIndex 21) = .ok t ∧
    Typing.checkTree t = .ok (T, σ) ∧ t.declarations = [.define f] ∧
    ∃ (c : Compilation) (start : Nat) (height : Nat → Int), compile t .default = .ok c ∧
      c.code[start]? = some (.enter (f.frame T).frameSize) ∧
      ∀ i k, Reaches c.code start i k → k = height i := by
  obtain ⟨t, T, σ, f, ht, hcheck, hf, hproper, hnames⟩ := exists_sample_function
  have hf' : t.declarations = [] ++ .define f :: [] := hf
  obtain ⟨c, front, back, height, hc, -, hstart, hheight, -⟩ :=
    heights_agree ht hproper hcheck hnames hf'
  exact ⟨t, T, σ, f, ht, hcheck, hf, c, _, height, hc, hstart, fun i k hr => (hheight i k hr).1⟩

end PostfixCompiler
