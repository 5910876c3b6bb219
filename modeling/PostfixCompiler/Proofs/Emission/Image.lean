import Mathlib.Data.List.TakeWhile
import PostfixCompiler.Proofs.Emission.Standing
import PostfixCompiler.Proofs.Frame.Conversion
import PostfixCompiler.Proofs.Scope.Owned
import PostfixCompiler.Proofs.Ty.Leaves

/-!
# The images of variables of the unit

A variable of the unit that has an initial value is a piece of static data: behind its label the
constants of the literal are laid down one after the other, and there the next segment starts, or
the next label stands. At run time a component of a tuple is looked for at an offset, which is
computed from the type alone. So each constant has to lie where its leaf is looked for, and has to
be as large as the leaf, however the literal is nested in tuples, and whether it is the value of one
variable or was divided among several.

A text cannot lie in a variable. It is laid down in front of the variable, under a label of its own,
and the image has the address of that label.

## Main definitions

* `PostfixCompiler.Instr.LaysDown`: what some code lays down before another segment or label.
* `PostfixCompiler.Expr.constants`: the constants in a literal.
* `PostfixCompiler.Emission.LaysConstants`: directives that lay down constants as the leaves of a
  type.
* `PostfixCompiler.Emission.LiesAt`: where the bytes of an image are.
* `PostfixCompiler.Emission.Depicts`: an image lays down constants, and their texts stand where it
  says.

## Main statements

* `PostfixCompiler.Expr.depicts`: the image of a literal lays down its constants.
* `PostfixCompiler.VarDecl.eachCode_eq`: where a variable stands in the code of its declaration.
* `PostfixCompiler.images_laid_out`: the images of the variables of an accepted unit.
-/

namespace PostfixCompiler

open Emission

/-! ### Static data in code -/

namespace Instr

/-- A directive at which static data ends: another segment starts, or there is a label. -/
def isBoundary : Instr → Bool
  | .text | .data | .rodata | .bss | .label _ => true
  | _ => false

/-- The lines at the start of some code, up to the next segment or label. -/
def upToBoundary (code : List Instr) : List Instr := code.takeWhile fun x => !x.isBoundary

/-- **What some code lays down.** Up to the next segment or label there are these lines and nothing
else: no padding, and no data of anything else. Only where the code ends the labels follow that
other units have to place. -/
def LaysDown (code image : List Instr) : Prop :=
  ∃ labels : List String, upToBoundary code = image ++ labels.map .external

/-- The code starts with a boundary, if there is any. -/
def Bounded (code : List Instr) : Prop := ∀ x ∈ code.head?, x.isBoundary = true

variable {is js : List Instr}

theorem bounded_nil : Bounded [] := by simp [Bounded]

theorem Bounded.append (h : Bounded is) (h' : Bounded js) : Bounded (is ++ js) := by
  cases is with
  | nil => exact h'
  | cons x is => exact h

theorem bounded_cons {x : Instr} (h : x.isBoundary = true) : Bounded (x :: is) := by
  intro y hy
  cases hy
  exact h

/-- At a boundary nothing is laid down. -/
theorem Bounded.laysDown_append (h : Bounded is) (h' : LaysDown js []) :
    LaysDown (is ++ js) [] := by
  cases is with
  | nil => exact h'
  | cons x is =>
    have hx : x.isBoundary = true := h x rfl
    refine ⟨[], ?_⟩
    rw [upToBoundary, List.cons_append, List.takeWhile_cons_of_neg (by simp [hx])]
    rfl

/-- Lines are laid down in front of code that lays down nothing. -/
theorem laysDown_append (h : ∀ x ∈ is, x.isBoundary = false) (h' : LaysDown js []) :
    LaysDown (is ++ js) is := by
  obtain ⟨labels, hlabels⟩ := h'
  refine ⟨labels, ?_⟩
  rw [upToBoundary, List.takeWhile_append_of_pos fun x hx =>
    by simp [h x hx], ← upToBoundary, hlabels,
    List.nil_append]

/-- The labels that other units have to place lay down nothing. -/
theorem laysDown_external (labels : List String) : LaysDown (labels.map .external) [] := by
  refine ⟨labels, List.takeWhile_eq_self_iff.mpr fun x hx => ?_⟩
  obtain ⟨label, -, rfl⟩ := List.mem_map.mp hx
  rfl

end Instr

/-! ### Constants -/

namespace Expr

mutual

/-- **The constants in a literal**, from left to right. -/
def constants : Expr → List Expr
  | .tuple _ es => constantsOfAll es
  | e => [e]

/-- The constants in literals, one after the other. -/
def constantsOfAll : List Expr → List Expr
  | [] => []
  | e :: es => e.constants ++ constantsOfAll es

end

end Expr

namespace Emission

/-- **A directive lays down a constant as a leaf of a type.** An integer is converted where the leaf
is a `double`; of a text there is the address of a label. -/
inductive LaysConstant : Ty → Expr → Instr → Prop where
  /-- An integer is laid down as it is. -/
  | int (site : Site) (n : Int32) : LaysConstant .int (.integer site n) (.staticInt n.toInt)
  /-- An integer is converted. -/
  | widened (site : Site) (n : Int32) :
      LaysConstant .double (.integer site n) (.staticDouble (.ofInt n.toInt))
  /-- A `double` is laid down as it is. -/
  | double (site : Site) (d : Double) : LaysConstant .double (.double site d) (.staticDouble d)
  /-- The null pointer is zero. -/
  | null (site : Site) (referent : Ty) :
      LaysConstant (.pointer referent) (.nullptr site) (.staticInt 0)
  /-- Of a text there is the address. -/
  | text (site : Site) (s label : String) :
      LaysConstant .string (.string site s) (.staticAddress label)

/-- **Directives lay down constants as the leaves of a type**, one by one and in order. -/
inductive LaysConstants : List Ty → List Expr → List Instr → Prop where
  /-- There is no leaf. -/
  | nil : LaysConstants [] [] []
  /-- The first constant is laid down as the first leaf. -/
  | cons {t : Ty} {e : Expr} {x : Instr} {ts : List Ty} {es : List Expr} {xs : List Instr}
      (h : LaysConstant t e x)
    (hrest : LaysConstants ts es xs) : LaysConstants (t :: ts) (e :: es) (x :: xs)

/-- **The directives of an image lie at these offsets**, from byte `base` on: each behind the bytes
of the one before it, and the last one up to byte `top`. -/
inductive LiesAt : Nat → List Instr → List Nat → Nat → Prop where
  /-- There is nothing more. -/
  | nil (base : Nat) : LiesAt base [] [] base
  /-- The first directive lies at the start. -/
  | cons {base n top : Nat} {x : Instr} {xs : List Instr} {offsets : List Nat}
      (h : laidBytes? x = some n)
    (hrest : LiesAt (base + n) xs offsets top) : LiesAt base (x :: xs) (base :: offsets) top

variable {t : Ty} {e : Expr} {x : Instr} {ts ts' : List Ty} {es es' : List Expr}
  {xs xs' : List Instr}

namespace LaysConstant

/-- A leaf gets as many bytes as it has. -/
theorem bytes (h : LaysConstant t e x) : laidBytes? x = some t.size := by
  cases h <;> rfl

theorem isBoundary (h : LaysConstant t e x) : x.isBoundary = false := by
  cases h <;> rfl

theorem isTuple (h : LaysConstant t e x) : t.isTuple = false := by
  cases h <;> rfl

end LaysConstant

namespace LaysConstants

theorem append (h : LaysConstants ts es xs) (h' : LaysConstants ts' es' xs') :
    LaysConstants (ts ++ ts') (es ++ es') (xs ++ xs') := by
  induction h with
  | nil => exact h'
  | cons h _ ih => exact .cons h ih

theorem length_eq (h : LaysConstants ts es xs) : es.length = xs.length := by
  induction h with
  | nil => rfl
  | cons _ _ ih => rw [List.length_cons, List.length_cons, ih]

theorem isBoundary (h : LaysConstants ts es xs) : ∀ x ∈ xs, x.isBoundary = false := by
  induction h with
  | nil => simp
  | cons h _ ih => exact List.forall_mem_cons.mpr ⟨h.isBoundary, ih⟩

/-- **Directives lie where the leaves are looked for.** -/
theorem liesAt (h : LaysConstants ts es xs) (base : Nat) :
    LiesAt base xs ((Ty.leavesOfAllFrom base ts).map Prod.snd) (base + Ty.sizeOfAll ts) := by
  induction h generalizing base with
  | nil => exact .nil base
  | @cons t e x ts es xs h _ ih =>
    rw [Ty.leavesOfAllFrom, Ty.leavesFrom_of_isTuple h.isTuple, Ty.sizeOfAll, ← Nat.add_assoc]
    exact .cons h.bytes (ih (base + t.size))

end LaysConstants

/-- The text that a constant needs, under the label whose address is laid down for it. -/
def textOf : Expr × Instr → List Instr
  | (.string _ s, .staticAddress label) => [.rodata, .align, .label label, .staticString s]
  | _ => []

/-- **Constants are laid down as leaves**, and the texts are those that the image refers to. -/
structure Depicts (ts : List Ty) (es : List Expr) (texts image : List Instr) : Prop where
  /-- The image lays down the constants. -/
  lays : LaysConstants ts es image
  /-- Each text stands under the label whose address is laid down. -/
  texts : texts = (es.zip image).flatMap textOf

theorem Depicts.nil : Depicts [] [] [] [] := ⟨.nil, rfl⟩

theorem Depicts.append {texts texts' : List Instr} (h : Depicts ts es texts xs)
    (h' : Depicts ts' es' texts' xs') :
    Depicts (ts ++ ts') (es ++ es') (texts ++ texts') (xs ++ xs') := by
  refine ⟨h.lays.append h'.lays, ?_⟩
  rw [List.zip_append h.lays.length_eq, List.flatMap_append, ← h.texts, ← h'.texts]

/-- One constant is laid down as the only leaf of a scalar. -/
theorem LaysConstant.depicts (h : LaysConstant t e x) :
    Depicts t.leaves [e] (textOf (e, x)) [x] := by
  rw [Ty.leaves_of_isTuple h.isTuple]
  exact ⟨.cons h .nil, (List.append_nil _).symm⟩

end Emission

/-! ### The images of literals -/

/-- A dense type that a scalar fits is no tuple. -/
theorem Ty.Dense.isTuple_of_fits {t u : Ty} (ht : t.Dense) (hu : u.isTuple = false)
    (hf : t.Fits u) :
    t.isTuple = false := by
  cases t with
  | tuple ts =>
    obtain ⟨us, hus, -⟩ := (Ty.fits_tuple ht.isPlural).mp hf
    rw [Ty.stripped_of_isPlural (Ty.isPlural_of_isTuple hu)] at hus
    rw [hus] at hu
    cases hu
  | _ => rfl

namespace Expr

variable {P : Ty → Prop} {T : TypeTable} {Γ : Names}

mutual

/-- **The image of a literal lays down its constants** as the leaves of any dense type that its own
type fits. -/
theorem depicts : ∀ {e : Expr} {u target : Ty} (n : Nat), e.Typed P T Γ → e.isLiteral = true →
    T.get? e.id = some u → target.Dense → target.Fits u →
    Depicts target.leaves e.constants (e.textCode n) (e.imageCode (n + 1) target)
  | .integer site k, u, target, n, h, _, hu, ht, hf => by
    cases hu.symm.trans h
    have htuple := ht.isTuple_of_fits rfl hf
    cases target with
    | int => exact (LaysConstant.int site k).depicts
    | double => exact (LaysConstant.widened site k).depicts
    | tuple => cases htuple
    | _ => simp [Ty.Fits, Ty.stripped] at hf
  | .double site d, u, target, n, h, _, hu, ht, hf => by
    cases hu.symm.trans h
    have htuple := ht.isTuple_of_fits rfl hf
    cases target with
    | double => exact (LaysConstant.double site d).depicts
    | tuple => cases htuple
    | _ => simp [Ty.Fits, Ty.stripped] at hf
  | .nullptr site, u, target, n, h, _, hu, ht, hf => by
    cases hu.symm.trans h
    have htuple := ht.isTuple_of_fits rfl hf
    cases target with
    | pointer referent => exact (LaysConstant.null site referent).depicts
    | tuple => cases htuple
    | _ => simp [Ty.Fits, Ty.genericPointer, Ty.stripped] at hf
  | .string site s, u, target, n, h, _, hu, ht, hf => by
    cases hu.symm.trans h
    have htuple := ht.isTuple_of_fits rfl hf
    cases target with
    | string => exact (LaysConstant.text site s (labelName (n + 1))).depicts
    | tuple => cases htuple
    | _ => simp [Ty.Fits, Ty.stripped] at hf
  | .tuple site [e], u, target, n, h, hl, hu, ht, hf => by
    obtain ⟨⟨he, -⟩, ts, -, hts, hs⟩ := h
    rw [isLiteral, allLiteral, allLiteral, Bool.and_true] at hl
    have hu : T.get? site.id = some u := hu
    match ts, hts with
    | [t], .cons ⟨_, ht', rfl, _⟩ .nil =>
      cases hu.symm.trans hs
      rw [constants, constantsOfAll, constantsOfAll, List.append_nil, textCode,
        textCodeOfAll, textCodeOfAll, List.append_nil, imageCode]
      exact depicts n he hl ht' ht hf
  | .tuple _ [], u, target, n, h, hl, hu, ht, hf => by
    obtain ⟨-, ts, hne, hts, -⟩ := h
    cases hts
    exact absurd rfl hne
  | .tuple site (a :: b :: es), u, target, n, h, hl, hu, ht, hf => by
    have hdense := h.dense_of_isLiteral hl hu
    obtain ⟨hall, ts, -, hts, hs⟩ := h
    have hu : T.get? site.id = some u := hu
    obtain rfl : u = .tuple ts := by
      match ts, hts with
      | _ :: _ :: _, _ =>
        rw [hs] at hu
        exact (Option.some.inj hu).symm
    obtain ⟨targets, rfl, hfits⟩ := Ty.fitsAll_of_dense ht hdense hf
    have htypes : List.Forall₂ (fun e u => T.get? (Expr.id e) = some u) (a :: b :: es) ts :=
      hts.imp fun _ _ h => by
        obtain ⟨u, hu, rfl, -⟩ := h
        exact hu
    rw [constants, textCode, imageCode, Ty.leaves]
    · exact depictsAll n hall hl htypes ht.2 hfits
    · simp
  | .input _, _, _, _, _, hl, _, _, _ | .variable .., _, _, _, _, hl, _, _, _
  | .pointerIndex .., _, _, _, _, hl, _, _, _ | .tupleIndex .., _, _, _, _, hl, _, _, _
  | .rvalue .., _, _, _, _, hl, _, _, _ | .assignment .., _, _, _, _, hl, _, _, _
  | .unary .., _, _, _, _, hl, _, _, _ | .binary .., _, _, _, _, hl, _, _, _
  | .addressOf .., _, _, _, _, hl, _, _, _ | .stackAlloc .., _, _, _, _, hl, _, _, _
  | .sizeof .., _, _, _, _, hl, _, _, _ | .call .., _, _, _, _, hl, _, _, _ => by cases hl

/-- As `depicts`, for literals one after the other. -/
theorem depictsAll :
    ∀ {es : List Expr} {us targets : List Ty} (n : Nat), AllTyped P T Γ es → allLiteral es = true →
    List.Forall₂ (fun e u => T.get? (id e) = some u) es us → Ty.AllDense targets →
    Ty.FitsAll targets us →
    Depicts (Ty.leavesOfAll targets) (constantsOfAll es) (textCodeOfAll n es)
      (imageCodeOfAll (n + 1) targets es)
  | [], [], [], _, _, _, _, _, _ => .nil
  | e :: es, u :: us, t :: ts, n, h, hl, .cons hu hus, ht, hf => by
    rw [allLiteral, Bool.and_eq_true] at hl
    rw [Ty.leavesOfAll, constantsOfAll, textCodeOfAll, imageCodeOfAll, Nat.add_right_comm]
    exact (depicts n h.1 hl.1 hu ht.1 hf.1).append
      (depictsAll (n + e.labelCount) h.2 hl.2 hus ht.2 hf.2)

end

/-- The elements of a literal that is divided have all of its constants. -/
theorem constants_elements : ∀ {e : Expr}, e.elements ≠ [] → e.constants = constantsOfAll e.elements
  | .tuple _ [e], h => by
    rw [elements] at h ⊢
    rw [constants, constantsOfAll, constantsOfAll, List.append_nil]
    exact constants_elements h
  | .tuple _ [], _ => rfl
  | .tuple _ (_ :: _ :: _), _ => by
    rw [elements, constants]
    simp
  | .integer .., h | .double .., h | .string .., h | .nullptr _, h | .input _, h | .variable .., h
  | .pointerIndex .., h | .tupleIndex .., h | .rvalue .., h | .assignment .., h
  | .unary .., h | .binary .., h | .addressOf .., h | .stackAlloc .., h | .sizeof .., h
  | .call .., h => absurd rfl h

end Expr

/-! ### Where static data ends -/

open Instr

namespace Expr

mutual

/-- The texts of an expression start with a segment of their own. -/
theorem bounded_textCode : ∀ (e : Expr) (n : Nat), Bounded (e.textCode n)
  | .string .., _ => bounded_cons rfl
  | .tuple _ es, n => bounded_textCodeOfAll es n
  | .integer .., _ | .double .., _ | .nullptr _, _ | .input _, _ | .variable .., _
  | .pointerIndex .., _ | .tupleIndex .., _ | .rvalue .., _ | .assignment .., _ | .unary .., _
  | .binary .., _ | .addressOf .., _ | .stackAlloc .., _ | .sizeof .., _
  | .call .., _ => bounded_nil

/-- As `bounded_textCode`, for several expressions. -/
theorem bounded_textCodeOfAll : ∀ (es : List Expr) (n : Nat), Bounded (textCodeOfAll n es)
  | [], _ => bounded_nil
  | e :: es, n => (e.bounded_textCode n).append (bounded_textCodeOfAll es _)

end

end Expr

namespace VarDecl

variable {d : VarDecl}

/-- A variable starts with its segment. -/
theorem bounded_headCode {segment : Instr} (h : segment.isBoundary = true) (name : String)
    (is : List Instr) :
    Bounded (d.headCode segment name ++ is) := by
  rw [headCode, List.append_assoc, List.append_assoc, List.cons_append]
  exact bounded_cons h

theorem bounded_variableCode (n : Nat) (name : String) (t : Ty) (value : Option Expr) :
    Bounded (d.variableCode n name t value) := by
  cases value with
  | none => exact bounded_headCode (show Instr.bss.isBoundary = true from rfl) name _
  | some e =>
    rw [variableCode, List.append_assoc]
    exact (e.bounded_textCode n).append
      (bounded_headCode (show Instr.data.isBoundary = true from rfl) name _)

theorem bounded_eachCode (n : Nat) (names : List String) (ts : List Ty)
    (values : List (Option Expr)) :
    Bounded (d.eachCode n names ts values) := by
  induction names generalizing n ts values with
  | nil => exact bounded_nil
  | cons name names ih =>
    match ts, values with
    | [], _ | _ :: _, [] => exact bounded_nil
    | t :: ts, value :: values =>
        exact (bounded_variableCode n name t value).append (ih _ ts values)

/-- **Where a variable with a value stands** among the variables of its declaration. -/
theorem eachCode_eq {names : List String} {ts : List Ty} {values : List (Option Expr)}
    {name : String} {t : Ty} {e : Expr} :
    ∀ {n k : Nat}, names[k]? = some name → ts[k]? = some t → values[k]? = some (some e) →
    ∃ m front back, d.eachCode n names ts values = front ++ e.textCode m ++ d.headCode .data name ++
      (e.imageCode (m + 1) t ++ back) ∧ Bounded back := by
  induction names generalizing ts values with
  | nil => exact fun hname => by cases hname
  | cons x names ih =>
    intro n k hname ht hvalue
    match ts, values, ht, hvalue with
    | u :: ts, value :: values, ht, hvalue =>
      rw [eachCode]
      cases k with
      | zero =>
        cases hname
        cases ht
        cases hvalue
        refine ⟨n, [], d.eachCode (n + Expr.labelCountOfOption (some e)) names ts values, ?_,
          bounded_eachCode _ _ _ _⟩
        simp only [variableCode, List.nil_append, List.append_assoc]
      | succ k =>
        obtain ⟨m, front, back, heq, hback⟩ :=
          ih (n := n + Expr.labelCountOfOption value) hname ht hvalue
        refine ⟨m, d.variableCode n x u value ++ front, back, ?_, hback⟩
        rw [heq]
        simp only [List.append_assoc]

end VarDecl

namespace Decl

theorem bounded_outline (T : TypeTable) (config : Config) (scope : View Symbol)
    (n : Nat) (d : Decl) :
    Bounded (d.outline T config scope n).code := by
  cases d with
  | «variable» d =>
    rw [outline, Outline.code_ofCode, VarDecl.layCode]
    split
    · exact bounded_nil
    · exact VarDecl.bounded_eachCode _ _ _ _
  | declare s => exact bounded_nil
  | define f =>
    rw [outline, Function.outline, Outline.code_piece, Outline.code_append, Outline.code_append,
      Outline.code_ofCode, Function.head, List.append_assoc, List.append_assoc, List.append_assoc,
      List.cons_append]
    exact bounded_cons rfl

/-- Each declaration of the unit starts with a segment, and so does what is behind one. -/
theorem bounded_outlineOfAll (T : TypeTable) (config : Config) (scope : View Symbol)
    (ds : List Decl) (n : Nat) :
    Bounded (outlineOfAll T config scope n ds).code := by
  induction ds generalizing n with
  | nil => exact bounded_nil
  | cons d ds ih =>
    rw [outlineOfAll, Outline.code_append]
    exact (bounded_outline T config scope n d).append (ih _)

end Decl

/-! ### Variables of an accepted unit -/

namespace VarDecl

variable {P : Ty → Prop} {T : TypeTable} {Γ : Names} {d : VarDecl} {e₀ : Expr} {r : Ty}

/-- **What the variables of a declaration start with** are literals that have the constants of the
initializer, in order. -/
theorem exists_values (ht : T.get? d.id = some r) (h : d.TypedGlobal P T Γ) (hw : d.WellPlaced)
    (hinit : d.initializer = some e₀) :
    ∃ es, d.values = es.map some ∧ Expr.constantsOfAll es = e₀.constants ∧
    es.length = d.names.length ∧
      List.Forall₂ (fun t e => Expr.Starts P T Γ t (some e)) (d.typesOfNames r) es := by
  have hstarts := (forall₂_values ht h).1
  have hlength := hstarts.length_eq
  obtain ⟨⟨r', ⟨ht', -⟩, -, hdivides, -⟩, -⟩ := h
  cases ht.symm.trans ht'
  rw [length_typesOfNames hdivides] at hlength
  rw [values, hinit] at hstarts hlength ⊢
  by_cases hone : d.names.length = 1
  · simp only [hone, if_true] at hstarts ⊢
    exact ⟨[e₀], rfl, List.append_nil _, rfl, List.forall₂_map_right_iff.mp hstarts⟩
  · simp only [hone, if_false] at hstarts hlength ⊢
    rw [List.length_map] at hlength
    have hne : e₀.elements ≠ [] := by
      intro hnil
      rw [hnil] at hlength
      exact hw.1 (List.length_eq_zero_iff.mp hlength)
    exact ⟨e₀.elements, rfl, (Expr.constants_elements hne).symm, hlength.symm,
      List.forall₂_map_right_iff.mp hstarts⟩

end VarDecl

/-- **Each variable of an accepted unit that has an initial value is laid down leaf by leaf.** Up to
the next segment or label there are as many directives behind its label as its type has leaves, and
nothing else; each is of the size of its leaf and at the offset at which the leaf is looked for, and
together they are as large as the type. They lay down the constants of the literal, those of its
part that belongs to the variable if it was divided. A text of the literal stands in front of the
label, under a label of its own, which is the one whose address is laid down. -/
theorem images_laid_out {nodes : Array Node} {root : NodeId} {t : SyntaxTree}
    (h : SyntaxTree.ofNodes nodes root = .ok t) {T : TypeTable} {σ : SymbolTable}
    (hcheck : Typing.checkTree t = .ok (T, σ)) (config : Config) :
    ∃ c, compile t config = .ok c ∧ ∀ d e₀, Decl.variable d ∈ t.declarations →
    d.initializer = some e₀ →
      ∃ es, d.values = es.map some ∧ Expr.constantsOfAll es = e₀.constants ∧
        ∀ (k : Nat) (name : String), d.names[k]? = some name → ∃ (u : Ty) (e : Expr),
          σ.names name = some (.variable u) ∧ es[k]? = some e ∧ ∃ front texts image back,
            c.code = front ++ texts ++ d.headCode .data name ++ back ∧ LaysDown back image ∧
              Depicts u.leaves e.constants texts image ∧
              LiesAt 0 image (u.leafOffsets.map Prod.snd) u.size := by
  have hwritten : ∀ d ∈ t.declarations, ∀ u ∈ d.writtenTypes, Typing.Written Ty.Known u :=
    fun _ _ _ _ h => h
  have haccepted := (Typing.checkTree_outcome Ty.stable_known h hwritten).1 T σ hcheck
  refine ⟨_, compile_of_checked Ty.stable_known h hwritten hcheck config, fun d e₀ hd hinit => ?_⟩
  have howned := Typing.owned_of_checkTree Ty.stable_known h hwritten hcheck hd
  have htyped : d.TypedGlobal Ty.Known T σ.names := haccepted.typed _ hd
  obtain ⟨r, ⟨hr, -⟩, -, hdivides, -⟩ := htyped.1
  obtain ⟨es, hvalues, hconstants, hlength, hstarts⟩ :=
    VarDecl.exists_values hr htyped (SyntaxTree.wellPlaced h _ hd) hinit
  refine ⟨es, hvalues, hconstants, fun k name hname => ?_⟩
  have hk : k < d.names.length := (List.getElem?_eq_some_iff.mp hname).1
  have hku : k < (d.typesOfNames r).length := (VarDecl.length_typesOfNames hdivides).symm ▸ hk
  have hke : k < es.length := hlength.symm ▸ hk
  obtain ⟨u, hu⟩ : ∃ u, (d.typesOfNames r)[k]? = some u := ⟨_, List.getElem?_eq_getElem hku⟩
  obtain ⟨e, he⟩ : ∃ e, es[k]? = some e := ⟨_, List.getElem?_eq_getElem hke⟩
  have hvalue : d.values[k]? = some (some e) := by
      rw [hvalues, List.getElem?_map, he, Option.map_some]
  have hbinding : (name, u) ∈ d.binding T := by
    rw [VarDecl.binding_eq hr]
    exact List.mem_of_getElem? (List.getElem?_zip_eq_some.mpr ⟨hname, hu⟩)
  have hstart : Expr.Starts Ty.Known T σ.names u (some e) := by
    rw [← (List.getElem?_eq_some_iff.mp hu).2, ← (List.getElem?_eq_some_iff.mp he).2]
    exact hstarts.get hku hke
  obtain ⟨hetyped, hliteral, hdense, v, hv, hfits⟩ := hstart e rfl
  -- The code is taken apart at the declaration, and there at the variable.
  obtain ⟨before, after, hds⟩ := List.append_of_mem hd
  obtain ⟨m, front, back, heach, hback⟩ :=
    d.eachCode_eq (n := Decl.labelCountOfAll before) hname hu hvalue
  have hlay : (Decl.variable d).outline T config σ.scope (Decl.labelCountOfAll before) =
      .ofCode (d.eachCode (Decl.labelCountOfAll before) d.names (d.typesOfNames r) d.values) := by
    rw [Decl.outline, VarDecl.layCode, if_neg (howned.own (by rw [hinit]; rfl)),
      TypeTable.typeOf_eq hr]
  have hbehind : Bounded (back ++ (Decl.outlineOfAll T config σ.scope
      (Decl.labelCountOfAll before + d.layLabels) after).code) :=
    hback.append (Decl.bounded_outlineOfAll T config σ.scope after _)
  have hdepicts := Expr.depicts m hetyped hliteral hv hdense hfits
  have hlies := hdepicts.lays.liesAt 0
  rw [← Ty.leavesFrom_eq, Nat.zero_add, Ty.sizeOfAll_leaves] at hlies
  refine ⟨u, e, howned.names _ hbinding, he,
    (Decl.outlineOfAll T config σ.scope 0 before).code ++ front, e.textCode m,
    e.imageCode (m + 1) u, e.imageCode (m + 1) u ++ (back ++ (Decl.outlineOfAll T config σ.scope
      (Decl.labelCountOfAll before + d.layLabels) after).code ++
        (Decl.externs T config σ t.declarations).map .external), ?_, ?_, hdepicts, hlies⟩
  · simp only [hds, Decl.outlineOfAll_append, Decl.outlineOfAll, Outline.code_append,
      Nat.zero_add, hlay, heach, Outline.code_ofCode, Decl.labelCount, List.append_assoc]
  · exact laysDown_append hdepicts.lays.isBoundary (hbehind.laysDown_append (laysDown_external _))

/-- The nodes of a unit in which a literal of a tuple with a text and of an integer is divided among
two variables. -/
def imageNodes : Array Node := #[
  ⟨1, .integer 1⟩, ⟨1, .string "text"⟩, ⟨1, .tuple [.ofIndex 0, .ofIndex 1]⟩, ⟨1, .integer 7⟩,
  ⟨1, .tuple [.ofIndex 2, .ofIndex 3]⟩,
  ⟨1, .variableDeclaration .private .auto ["a", "b"] (some (.ofIndex 4))⟩,
  ⟨1, .program [.ofIndex 5]⟩]

/-- The declaration divides an initializer among `a` and `b`. -/
def Decl.dividesPair : Decl → Bool
  | .variable d => d.names = ["a", "b"] ∧ d.initializer.isSome
  | _ => false

/-- The image of the first of the variables stands behind its label. -/
theorem images_laid_out_divided :
    ∃ t T σ c d e₀, SyntaxTree.ofNodes imageNodes (.ofIndex 6) = .ok t ∧
    Typing.checkTree t = .ok (T, σ) ∧ compile t .default = .ok c ∧
    Decl.variable d ∈ t.declarations ∧
    d.initializer = some e₀ ∧ ∃ (u : Ty) (e : Expr) (front texts image back : List Instr),
      σ.names "a" = some (.variable u) ∧ c.code = front ++ texts ++ d.headCode .data "a" ++ back ∧
        LaysDown back image ∧ Depicts u.leaves e.constants texts image ∧
          LiesAt 0 image (u.leafOffsets.map Prod.snd) u.size := by
  have hok : (SyntaxTree.ofNodes imageNodes (.ofIndex 6)).toOption.any (fun t =>
      (Typing.checkTree t).toOption.any fun _ => t.declarations.any Decl.dividesPair) = true := by
    decide +kernel
  obtain ⟨t, ht, hok⟩ := any_toOption.mp hok
  obtain ⟨⟨T, σ⟩, hcheck, hok⟩ := any_toOption.mp hok
  obtain ⟨d, hd, hok⟩ := List.any_eq_true.mp hok
  cases d with
  | «variable» d =>
    obtain ⟨hnames, hinit⟩ := of_decide_eq_true hok
    obtain ⟨e₀, he₀⟩ := Option.isSome_iff_exists.mp hinit
    obtain ⟨c, hc, hlaid⟩ := images_laid_out ht hcheck .default
    obtain ⟨es, -, -, hes⟩ := hlaid d e₀ hd he₀
    obtain ⟨u, e, hu, -, front, texts, image, back, himage⟩ := hes 0 "a" (by rw [hnames]; rfl)
    exact ⟨t, T, σ, c, d, e₀, ht, hcheck, hc, hd, he₀, u, e, front, texts, image, back, hu, himage⟩
  | declare => cases hok
  | define => cases hok

end PostfixCompiler
