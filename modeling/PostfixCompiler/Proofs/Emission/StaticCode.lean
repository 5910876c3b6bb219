import PostfixCompiler.Emission.Static
import PostfixCompiler.Proofs.Emission.ExprCode

/-!
# The code of variables of the unit

A variable of the unit that starts with a value starts with a literal, and its type has as many
components as the literal wherever the literal is a tuple. So the image of the literal is written
without a fault. Like the code of an expression it is a function of the number of labels that were
made up before.

## Main definitions

* `PostfixCompiler.Expr.textCode`, `PostfixCompiler.Expr.imageCode`: the texts of a literal, and its
  image.
* `PostfixCompiler.VarDecl.layCode`: the code of the variables of a declaration.

## Main statements

* `PostfixCompiler.VarDecl.puts_lay`: this is the code that is written.
-/

namespace PostfixCompiler

open Emission

/-! ### The code -/

namespace Expr

mutual

/-- The texts of a literal, if `n` labels were made up before. -/
def textCode (n : Nat) : Expr → List Instr
  | .string _ s => [.rodata, .align, .label (labelName (n + 1)), .staticString s]
  | .tuple _ es => textCodeOfAll n es
  | _ => []

/-- The texts of literals, one after the other. -/
def textCodeOfAll (n : Nat) : List Expr → List Instr
  | [] => []
  | e :: es => e.textCode n ++ textCodeOfAll (n + e.labelCount) es

end

mutual

/-- The image of a literal as a value of type `target`. The texts in it have the labels from number
`next` on. -/
def imageCode (next : Nat) (target : Ty) : Expr → List Instr
  | .integer _ n =>
      [if target = .double then .staticDouble (.ofInt n.toInt) else .staticInt n.toInt]
  | .double _ d => [.staticDouble d]
  | .nullptr _ => [.staticInt 0]
  | .string _ _ => [.staticAddress (labelName next)]
  | .tuple _ [e] => e.imageCode next target
  | .tuple _ es => imageCodeOfAll next target.components es
  | _ => []

/-- The images of literals, one after the other. -/
def imageCodeOfAll (next : Nat) (targets : List Ty) (es : List Expr) : List Instr :=
  match targets, es with
  | t :: ts, e :: es => e.imageCode next t ++ imageCodeOfAll (next + e.labelCount) ts es
  | _, _ => []

end

/-- The elements of a tuple, inside the one-element tuples around it. -/
def elements : Expr → List Expr
  | .tuple _ [e] => e.elements
  | .tuple _ es => es
  | _ => []

end Expr

namespace VarDecl

/-- What each variable of a declaration starts with. -/
def values (d : VarDecl) : List (Option Expr) :=
  match d.initializer with
  | none => d.names.map fun _ => none
  | some init => if d.names.length = 1 then [some init] else init.elements.map some

/-- The start of a variable: its segment, and its label. -/
def headCode (d : VarDecl) (segment : Instr) (name : String) : List Instr :=
  [segment, .align] ++
    (if d.qualifier = .public then [.global name .object] else []) ++ [.label name]

/-- The code of a variable, if `n` labels were made up before. -/
def variableCode (d : VarDecl) (n : Nat) (name : String) (t : Ty) : Option Expr → List Instr
  | none => d.headCode .bss name ++ [.staticBytes t.size]
  | some e => e.textCode n ++ d.headCode .data name ++ e.imageCode (n + 1) t

/-- The code of variables, one after the other. -/
def eachCode (d : VarDecl) (n : Nat) : List String → List Ty → List (Option Expr) → List Instr
  | name :: names, t :: ts, value :: values =>
    d.variableCode n name t value ++ eachCode d (n + Expr.labelCountOfOption value) names ts values
  | _, _, _ => []

/-- How many labels the values of variables need. -/
def valueLabels : List (Option Expr) → Nat
  | [] => 0
  | value :: values => Expr.labelCountOfOption value + valueLabels values

/-- **The code of the variables of a declaration**, if `n` labels were made up before. -/
def layCode (T : TypeTable) (n : Nat) (d : VarDecl) : List Instr :=
  if d.qualifier = .require then []
  else d.eachCode n d.names (d.typesOfNames (T.typeOf d.id)) d.values

/-- How many labels the code of the variables of a declaration makes up. -/
def layLabels (d : VarDecl) : Nat := if d.qualifier = .require then 0 else valueLabels d.values

end VarDecl

/-! ### Images -/

namespace Expr

variable {P : Ty → Prop} {T : TypeTable} {Γ : Names} {s : State}

mutual

theorem puts_layTexts : ∀ {e : Expr} {s : State} {Q : Unit → State → Prop}, e.isLiteral = true →
    (∀ s', Pushed (e.textCode s.labels) e.labelCount .none s s' → Q () s') → Puts e.layTexts s Q
  | .string .., s, Q, _, hQ => by
    rw [layTexts, puts_bind, puts_newLabel, puts_emitAll]
    exact hQ _ ((Pushed.refl s).makeLabel.write _)
  | .tuple _ es, s, Q, h, hQ => by
    rw [layTexts]
    exact puts_layTextsOfAll h hQ
  | .integer .., s, Q, _, hQ | .double .., s, Q, _, hQ | .nullptr _, s, Q, _, hQ => hQ s (.refl s)
  | .input _, _, _, h, _ | .variable .., _, _, h, _ | .pointerIndex .., _, _, h, _
  | .tupleIndex .., _, _, h, _ | .rvalue .., _, _, h, _ | .assignment .., _, _, h, _
  | .unary .., _, _, h, _ | .binary .., _, _, h, _ | .addressOf .., _, _, h, _
  | .stackAlloc .., _, _, h, _ | .sizeof .., _, _, h, _ | .call .., _, _, h, _ => by cases h

theorem puts_layTextsOfAll : ∀ {es : List Expr} {s : State} {Q : Unit → State → Prop},
    allLiteral es = true →
    (∀ s', Pushed (textCodeOfAll s.labels es) (labelCountOfAll es) .none s s' → Q () s') →
    Puts (layTextsOfAll es) s Q
  | [], s, Q, _, hQ => hQ s (.refl s)
  | e :: es, s, Q, h, hQ => by
    rw [allLiteral, Bool.and_eq_true] at h
    rw [layTextsOfAll, puts_bind]
    refine puts_layTexts h.1 fun s₁ h₁ => ?_
    refine puts_layTextsOfAll h.2 fun s₂ h₂ => hQ s₂ ?_
    rw [h₁.labels] at h₂
    exact h₁.trans h₂

end

mutual

/-- **A literal is laid down as a value of any dense type that its own type fits.** -/
theorem puts_layImage :
    ∀ {e : Expr} {u target : Ty} {next : Nat} {s : State} {Q : Nat → State → Prop},
    e.Typed P T Γ → e.isLiteral = true → T.get? e.id = some u → target.Dense → target.Fits u →
    (Q (next + e.labelCount) (s.write (e.imageCode next target))) →
    Puts (e.layImage next target) s Q
  | .integer .., u, target, next, s, Q, h, hl, hu, ht, hf, hQ
  | .double .., u, target, next, s, Q, h, hl, hu, ht, hf, hQ
  | .nullptr _, u, target, next, s, Q, h, hl, hu, ht, hf, hQ
  | .string .., u, target, next, s, Q, h, hl, hu, ht, hf, hQ => by
    rw [layImage, puts_bind, puts_emit, puts_pure]
    exact hQ
  | .tuple site [e], u, target, next, s, Q, h, hl, hu, ht, hf, hQ => by
    obtain ⟨⟨he, -⟩, ts, -, hts, hs⟩ := h
    rw [isLiteral, allLiteral, allLiteral, Bool.and_true] at hl
    have hu : T.get? site.id = some u := hu
    match ts, hts with
    | [t], .cons ⟨_, ht', rfl, _⟩ .nil =>
      cases hu.symm.trans hs
      rw [layImage]
      exact puts_layImage he hl ht' ht hf hQ
  | .tuple _ [], u, target, next, s, Q, h, hl, hu, ht, hf, hQ => by
    obtain ⟨-, ts, hne, hts, -⟩ := h
    cases hts
    exact absurd rfl hne
  | .tuple site (a :: b :: es), u, target, next, s, Q, h, hl, hu, ht, hf, hQ => by
    have hdense := h.dense_of_isLiteral hl hu
    obtain ⟨hall, ts, -, hts, hs⟩ := h
    have hu : T.get? site.id = some u := hu
    obtain rfl : u = .tuple ts := by
      match ts, hts with
      | _ :: _ :: _, _ =>
        rw [hs] at hu
        exact (Option.some.inj hu).symm
    obtain ⟨targets, rfl, hfits⟩ := Ty.fitsAll_of_dense ht hdense hf
    have htypes : List.Forall₂ (fun e u => T.get? (Expr.id e) = some u) (a :: b :: es) ts :=
      hts.imp fun _ _ h => by
        obtain ⟨u, hu, rfl, -⟩ := h
        exact hu
    have hlen : (Ty.tuple targets).components.length = (a :: b :: es).length :=
      hfits.length_eq.trans htypes.length_eq.symm
    rw [layImage, if_pos hlen]
    · exact puts_layImageOfAll hall hl htypes ht.2 hfits hQ
    · simp
  | .input _, _, _, _, _, _, _, hl, _, _, _, _ | .variable .., _, _, _, _, _, _, hl, _, _, _, _
  | .pointerIndex .., _, _, _, _, _, _, hl, _, _, _, _
  | .tupleIndex .., _, _, _, _, _, _, hl, _, _, _, _ | .rvalue .., _, _, _, _, _, _, hl, _, _, _, _
  | .assignment .., _, _, _, _, _, _, hl, _, _, _, _ | .unary .., _, _, _, _, _, _, hl, _, _, _, _
  | .binary .., _, _, _, _, _, _, hl, _, _, _, _ | .addressOf .., _, _, _, _, _, _, hl, _, _, _, _
  | .stackAlloc .., _, _, _, _, _, _, hl, _, _, _, _ | .sizeof .., _, _, _, _, _, _, hl, _, _, _, _
  | .call .., _, _, _, _, _, _, hl, _, _, _, _ => by cases hl

theorem puts_layImageOfAll : ∀ {es : List Expr} {us targets : List Ty} {next : Nat} {s : State}
    {Q : Nat → State → Prop}, AllTyped P T Γ es → allLiteral es = true →
    List.Forall₂ (fun e u => T.get? (id e) = some u) es us → Ty.AllDense targets →
    Ty.FitsAll targets us →
    Q (next + labelCountOfAll es) (s.write (imageCodeOfAll next targets es)) →
    Puts (layImageOfAll next targets es) s Q
  | [], [], [], next, s, Q, h, hl, hus, ht, hf, hQ => by
    rw [layImageOfAll, puts_pure]
    · rw [imageCodeOfAll, write_nil] at hQ
      · exact hQ
      · simp
    · simp
  | e :: es, u :: us, t :: ts, next, s, Q, h, hl, .cons hu hus, ht, hf, hQ => by
    rw [allLiteral, Bool.and_eq_true] at hl
    rw [layImageOfAll, puts_bind]
    refine puts_layImage h.1 hl.1 hu ht.1 hf.1 (puts_layImageOfAll h.2 hl.2 hus ht.2 hf.2 ?_)
    rw [write_write, Nat.add_assoc]
    exact hQ

end

/-- What is known of an initial value of type `t`, if there is one: a literal that fits. -/
def Starts (P : Ty → Prop) (T : TypeTable) (Γ : Names) (t : Ty) (value : Option Expr) : Prop :=
  ∀ e ∈ value, e.Typed P T Γ ∧ e.isLiteral = true ∧ t.Dense ∧ ∃ u, T.get? e.id = some u ∧ t.Fits u

/-- The elements of literals that fit, one by one. -/
theorem forall₂_starts :
    ∀ {es : List Expr} {ts us : List Ty}, AllTyped P T Γ es → allLiteral es = true →
    List.Forall₂ (fun e u => T.get? (id e) = some u) es us → Ty.AllDense ts → Ty.FitsAll ts us →
    List.Forall₂ (Starts P T Γ) ts (es.map some)
  | [], [], [], _, _, _, _, _ => .nil
  | [], _ :: _, [], _, _, _, _, hf | _ :: _, [], _ :: _, _, _, _, _, hf => hf.elim
  | e :: es, t :: ts, u :: us, h, hl, .cons hu hus, ht, hf => by
    rw [allLiteral, Bool.and_eq_true] at hl
    refine .cons (fun e' he => ?_) (forall₂_starts h.2 hl.2 hus ht.2 hf.2)
    cases he
    exact ⟨h.1, hl.1, ht.1, u, hu, hf.1⟩

/-- **A literal for several variables has an element for each of them.** -/
theorem elements_start : ∀ {e : Expr} {u : Ty} {ts : List Ty}, e.Typed P T Γ → e.isLiteral = true →
    T.get? e.id = some u → (Ty.tuple ts).Dense → (Ty.tuple ts).Fits u →
    List.Forall₂ (Starts P T Γ) ts (e.elements.map some) ∧
      ∀ (s : State) (Q : List Expr → State → Prop), Puts e.literalElements s Q ↔ Q e.elements s
  | .tuple site [e], u, ts, h, hl, hu, ht, hf => by
    obtain ⟨⟨he, -⟩, us, -, hus, hs⟩ := h
    rw [isLiteral, allLiteral, allLiteral, Bool.and_true] at hl
    have hu : T.get? site.id = some u := hu
    match us, hus with
    | [t], .cons ⟨_, ht', rfl, _⟩ .nil =>
      cases hu.symm.trans hs
      rw [elements, literalElements]
      exact elements_start he hl ht' ht hf
  | .tuple _ [], u, ts, h, hl, hu, ht, hf => by
    obtain ⟨-, us, hne, hus, -⟩ := h
    cases hus
    exact absurd rfl hne
  | .tuple site (a :: b :: es), u, ts, h, hl, hu, ht, hf => by
    have hdense := h.dense_of_isLiteral hl hu
    obtain ⟨hall, us, -, hus, hs⟩ := h
    have hu : T.get? site.id = some u := hu
    obtain rfl : u = .tuple us := by
      match us, hus with
      | _ :: _ :: _, _ =>
        rw [hs] at hu
        exact (Option.some.inj hu).symm
    obtain ⟨ts', heq, hfits⟩ := Ty.fitsAll_of_dense ht hdense hf
    cases heq
    have htypes : List.Forall₂ (fun e u => T.get? (Expr.id e) = some u) (a :: b :: es) us :=
      hus.imp fun _ _ h => by
        obtain ⟨u, hu, rfl, -⟩ := h
        exact hu
    rw [elements, literalElements]
    · exact ⟨forall₂_starts hall hl htypes ht.2 hfits, fun _ _ => Iff.rfl⟩
    · simp
    · simp
  | .integer s _, u, ts, h, _, hu, ht, hf | .double s _, u, ts, h, _, hu, ht, hf
  | .string s _, u, ts, h, _, hu, ht, hf | .nullptr s, u, ts, h, _, hu, ht, hf => by
    cases hu.symm.trans h
    obtain ⟨_, heq, -⟩ := (Ty.fits_tuple ht.isPlural).mp hf
    cases heq
  | .input _, _, _, _, hl, _, _, _ | .variable .., _, _, _, hl, _, _, _
  | .pointerIndex .., _, _, _, hl, _, _, _ | .tupleIndex .., _, _, _, hl, _, _, _
  | .rvalue .., _, _, _, hl, _, _, _ | .assignment .., _, _, _, hl, _, _, _
  | .unary .., _, _, _, hl, _, _, _ | .binary .., _, _, _, hl, _, _, _
  | .addressOf .., _, _, _, hl, _, _, _ | .stackAlloc .., _, _, _, hl, _, _, _
  | .sizeof .., _, _, _, hl, _, _, _ | .call .., _, _, _, hl, _, _, _ => by cases hl

end Expr

/-! ### Variables -/

namespace VarDecl

variable {P : Ty → Prop} {T : TypeTable} {Γ : Names} {s : State} {Q : Unit → State → Prop}

theorem puts_layHead {d : VarDecl} {segment : Instr} {name : String} :
    Puts (d.layHead segment name) s Q ↔ Q () (s.write (d.headCode segment name)) := by
  unfold layHead headCode
  by_cases h : d.qualifier = .public
  · simp only [h, if_true, puts_bind, puts_emitAll, puts_emit, write_write, List.append_assoc]
  · simp only [h, if_false, puts_bind, puts_emitAll, puts_emit, write_write, List.append_nil]

theorem puts_layVariable {d : VarDecl} {name : String} {t : Ty} {value : Option Expr}
    (h : Expr.Starts P T Γ t value) (hQ : ∀ s', Pushed (d.variableCode s.labels name t value)
      (Expr.labelCountOfOption value) .none s s' → Q () s') :
      Puts (d.layVariable name t value) s Q := by
  cases value with
  | none =>
    rw [layVariable, puts_bind, puts_layHead, puts_emit]
    exact hQ _ (((Pushed.refl s).write _).write _)
  | some e =>
    obtain ⟨he, hl, ht, u, hu, hf⟩ := h e rfl
    rw [layVariable, puts_bind, puts_get, puts_bind]
    refine e.puts_layTexts hl fun s₁ h₁ => ?_
    rw [puts_bind, puts_layHead, puts_bind]
    refine e.puts_layImage he hl hu ht hf ?_
    rw [puts_pure]
    exact hQ _ ((h₁.write _).write _)

theorem puts_layEach {d : VarDecl} {names : List String} {ts : List Ty}
    {values : List (Option Expr)} (h : List.Forall₂ (Expr.Starts P T Γ) ts values)
    (hlen : values.length = names.length) (hQ : ∀ s',
      Pushed (d.eachCode s.labels names ts values) (valueLabels values) .none s s' → Q () s') :
    Puts (d.layEach names ts values) s Q := by
  induction h generalizing names s with
  | nil =>
    cases names with
    | nil => exact hQ s (.refl s)
    | cons name names => cases hlen
  | @cons t value ts values hv _ ih =>
    cases names with
    | nil => cases hlen
    | cons name names =>
      rw [layEach, puts_bind]
      refine puts_layVariable hv fun s₁ h₁ => ih (Nat.succ.inj hlen) fun s₂ h₂ => hQ s₂ ?_
      rw [h₁.labels] at h₂
      exact h₁.trans h₂

theorem length_typesOfNames {d : VarDecl} {t : Ty} (h : d.Divides t) :
    (d.typesOfNames t).length = d.names.length := by
  unfold typesOfNames
  split
  · rename_i hone
    rw [hone]
    rfl
  · rename_i hmany
    obtain ⟨ts, rfl, hlen⟩ := h.resolve_left hmany
    exact hlen

/-- A declaration has an initial value for each of its variables, or none for any. -/
theorem forall₂_values {d : VarDecl} {t : Ty} (ht : T.get? d.id = some t)
    (h : d.TypedGlobal P T Γ) :
    List.Forall₂ (Expr.Starts P T Γ) (d.typesOfNames t) d.values ∧
      ∀ (s : State) (Q : List (Option Expr) → State → Prop), Puts d.initialValues s Q ↔
      Q d.values s := by
  obtain ⟨⟨t', ⟨ht', -⟩, -, hdivides, hinit⟩, hliteral⟩ := h
  cases ht.symm.trans ht'
  rw [TypeTable.typeOf_eq ht] at hliteral
  unfold values initialValues
  cases hi : d.initializer with
  | none =>
    refine ⟨?_, fun _ _ => Iff.rfl⟩
    rw [List.forall₂_map_right_iff, List.forall₂_iff_get]
    refine ⟨length_typesOfNames hdivides, fun _ _ _ e he => by cases he⟩
  | some e =>
    obtain ⟨he, u, hu, hf⟩ := hinit e hi
    obtain ⟨hl, hdense⟩ := hliteral e hi
    by_cases hone : d.names.length = 1
    · simp only [hone, if_true, typesOfNames]
      refine ⟨.cons (fun e' he' => ?_) .nil, fun _ _ => Iff.rfl⟩
      cases he'
      exact ⟨he, hl, hdense, u, hu, hf⟩
    · obtain ⟨ts, rfl, -⟩ := hdivides.resolve_left hone
      obtain ⟨hstarts, hputs⟩ := Expr.elements_start he hl hu hdense hf
      simp only [hone, if_false, typesOfNames, Ty.components]
      exact ⟨hstarts, fun _ _ => by rw [puts_bind, hputs, puts_pure]⟩

/-- **The variables of a declaration are laid down without a fault.** -/
theorem puts_lay {d : VarDecl} (h : d.TypedGlobal P T Γ)
    (hQ : ∀ s', Pushed (d.layCode T s.labels) d.layLabels .none s s' → Q () s') :
    Puts (d.lay T) s Q := by
  have hglobal := h
  obtain ⟨⟨t, ⟨ht, -⟩, -, hdivides, -⟩, -⟩ := h
  obtain ⟨hstarts, hputs⟩ := forall₂_values ht hglobal
  have hlen : d.values.length = d.names.length :=
    hstarts.length_eq.symm.trans (length_typesOfNames hdivides)
  unfold lay
  unfold layCode layLabels at hQ
  rw [puts_ite]
  refine ⟨fun hr => ?_, fun hr => ?_⟩
  · simp only [hr, if_true] at hQ
    exact hQ s (.refl s)
  · simp only [hr, if_false, TypeTable.typeOf_eq ht] at hQ
    rw [TypeTable.expect_eq ht, puts_bind, puts_orFault, puts_bind, hputs, if_pos hlen]
    exact puts_layEach hstarts hlen hQ

end VarDecl

end PostfixCompiler
