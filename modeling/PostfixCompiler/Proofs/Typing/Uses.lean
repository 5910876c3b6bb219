import PostfixCompiler.Proofs.Typing.CheckUnit
import PostfixCompiler.Proofs.Typing.Rules

/-!
# Where expressions are used

An expression is used by a statement, or it initializes the variables of a declaration. Each use
stands in a **scope**: what the names mean there, which are the names of the unit and over them the
variables declared so far in the scopes around. The types of these variables are read off the table,
so a scope is a matter of the tree and its table alone, without the checker.

The nodes of a tree are its functions and statements, its declarations of variables, and the parts
of its uses, each of them once.

## Main definitions

* `PostfixCompiler.Use`: an expression where it is used.
* `PostfixCompiler.Stmt.uses`, `PostfixCompiler.SyntaxTree.uses`: the uses in a statement and in a
  tree.
* `PostfixCompiler.Stmt.locals`, `PostfixCompiler.SyntaxTree.varDecls`: the declarations of
  variables.

## Main statements

* `PostfixCompiler.SyntaxTree.perm_ids`, `PostfixCompiler.SyntaxTree.exists_part`: what the nodes of
  a tree are.
* `PostfixCompiler.Stmt.Typed.uses`: in a typed statement every use is typed in its scope.
* `PostfixCompiler.Decl.wellPlaced_uses`: in each use everything is where it belongs.
-/

namespace PostfixCompiler

/-! ### Uses -/

/-- **An expression where it is used.** -/
structure Use where
  /-- What the names mean there. -/
  scope : Names
  /-- The expression. -/
  expr : Expr
  /-- The written type of the variables that it initializes, if it does. -/
  written : Option Ty := none

/-- The uses of expressions by a statement. -/
def Expr.usesOfAll (Γ : Names) (es : List Expr) : List Use :=
  es.map fun e => { scope := Γ, expr := e }

namespace VarDecl

/-- The use of the initializer. -/
def uses (Γ : Names) (d : VarDecl) : List Use :=
  d.initializer.toList.map fun e => { scope := Γ, expr := e, written := some d.type }

/-- The uses in declarations, each in the scope of those before it. -/
def usesOfAll (T : TypeTable) (Γ : Names) : List VarDecl → List Use
  | [] => []
  | d :: ds => d.uses Γ ++ usesOfAll T (View.bindAll Γ (d.binding T)) ds

end VarDecl

namespace LoopInit

/-- The uses in what a loop does before its first round. -/
def uses (Γ : Names) : LoopInit → List Use
  | .declare d => d.uses Γ
  | .evaluate e => Expr.usesOfAll Γ [e]

/-- The uses in all that a loop does before its first round. -/
def usesOfAll (T : TypeTable) (Γ : Names) : List LoopInit → List Use
  | [] => []
  | i :: is => i.uses Γ ++ usesOfAll T (View.bindAll Γ (i.binding T)) is

end LoopInit

namespace Stmt

mutual

/-- **The uses in a statement.** A block and a loop are scopes of their own. -/
def uses (T : TypeTable) (Γ : Names) : Stmt → List Use
  | .block _ ds body =>
    VarDecl.usesOfAll T Γ ds ++ usesOfAll T (View.bindAll Γ (VarDecl.bindingOfAll T ds)) body
  | .evaluation _ e => Expr.usesOfAll Γ [e]
  | .write _ args _ => Expr.usesOfAll Γ args
  | .ifThen _ c t => Expr.usesOfAll Γ [c] ++ t.uses T Γ
  | .ifElse _ c t e => Expr.usesOfAll Γ [c] ++ (t.uses T Γ ++ e.uses T Γ)
  | .forLoop _ inits c incs body =>
    let Δ := View.bindAll Γ (LoopInit.bindingOfAll T inits)
    LoopInit.usesOfAll T Γ inits ++
      (Expr.usesOfAll Δ c.toList ++ (Expr.usesOfAll Δ incs ++ body.uses T Δ))
  | .break _ | .continue _ => []
  | .return _ v => Expr.usesOfAll Γ v.toList

/-- The uses in statements. -/
def usesOfAll (T : TypeTable) (Γ : Names) : List Stmt → List Use
  | [] => []
  | s :: ss => s.uses T Γ ++ usesOfAll T Γ ss

end

end Stmt

/-- The uses in the declarations of arguments. -/
def Signature.uses (Γ : Names) (s : Signature) : List Use := s.arguments.flatMap (VarDecl.uses Γ)

/-- The uses in a function. The arguments are variables in its body. -/
def Function.uses (T : TypeTable) (Γ : Names) (f : Function) : List Use :=
  f.signature.uses Γ ++
    f.body.stmt.uses T (View.bindAll Γ (VarDecl.bindingOfAll T f.signature.arguments))

/-- The uses in a declaration of the unit. -/
def Decl.uses (T : TypeTable) (Γ : Names) : Decl → List Use
  | .variable d => d.uses Γ
  | .declare s => s.uses Γ
  | .define f => f.uses T Γ

/-- **The uses in a tree**, when the names of the unit mean what `Γ` says. A name of the unit is
declared once and keeps its meaning, so `Γ` may know all of them. -/
def SyntaxTree.uses (T : TypeTable) (Γ : Names) (t : SyntaxTree) : List Use :=
  t.declarations.flatMap (Decl.uses T Γ)

/-! ### Declarations of variables -/

/-- The variables that a loop declares. -/
def LoopInit.locals : LoopInit → List VarDecl
  | .declare d => [d]
  | .evaluate _ => []

namespace Stmt

mutual

/-- **The declarations of variables in a statement.** -/
def locals : Stmt → List VarDecl
  | .block _ ds body => ds ++ localsOfAll body
  | .ifThen _ _ t => t.locals
  | .ifElse _ _ t e => t.locals ++ e.locals
  | .forLoop _ inits _ _ body => inits.flatMap LoopInit.locals ++ body.locals
  | .evaluation .. | .write .. | .break _ | .continue _ | .return .. => []

/-- The declarations of variables in statements. -/
def localsOfAll : List Stmt → List VarDecl
  | [] => []
  | s :: ss => s.locals ++ localsOfAll ss

end

end Stmt

/-- The declarations of variables and arguments in a declaration of the unit. -/
def Decl.varDecls : Decl → List VarDecl
  | .variable d => [d]
  | .declare s => s.arguments
  | .define f => f.signature.arguments ++ f.body.stmt.locals

/-- **The declarations of variables and arguments in a tree.** -/
def SyntaxTree.varDecls (t : SyntaxTree) : List VarDecl := t.declarations.flatMap Decl.varDecls

/-! ### Functions and statements -/

namespace Stmt

mutual

/-- The ids of the statements in a statement, its own first. -/
def sites : Stmt → List NodeId
  | .block s _ body => s.id :: sitesOfAll body
  | .ifThen s _ t => s.id :: t.sites
  | .ifElse s _ t e => s.id :: (t.sites ++ e.sites)
  | .forLoop s _ _ _ body => s.id :: body.sites
  | .evaluation s _ | .write s _ _ | .break s | .continue s | .return s _ => [s.id]

/-- The ids of the statements in statements. -/
def sitesOfAll : List Stmt → List NodeId
  | [] => []
  | s :: ss => s.sites ++ sitesOfAll ss

end

end Stmt

/-- The ids of the functions and statements in a declaration of the unit. -/
def Decl.sites : Decl → List NodeId
  | .variable _ => []
  | .declare s => [s.id]
  | .define f => f.signature.id :: f.body.stmt.sites

/-- **The ids of the functions and statements in a tree.** -/
def SyntaxTree.sites (t : SyntaxTree) : List NodeId := t.declarations.flatMap Decl.sites

/-! ### The nodes of a tree -/

/-- The ids of the nodes of all expressions that are used. -/
def Use.idsOfAll (us : List Use) : List NodeId := us.flatMap fun u => u.expr.ids

variable {T : TypeTable} {i : NodeId} {Γ : Names}

namespace Use

@[simp] theorem idsOfAll_nil : idsOfAll [] = [] := rfl

@[simp] theorem idsOfAll_append (us vs : List Use) :
    idsOfAll (us ++ vs) = idsOfAll us ++ idsOfAll vs :=
  List.flatMap_append

end Use

@[simp] theorem Expr.idsOfAll_uses (es : List Expr) :
    Use.idsOfAll (usesOfAll Γ es) = es.flatMap ids :=
  List.flatMap_map ..

theorem VarDecl.ids_eq (d : VarDecl) : d.ids = d.id :: Use.idsOfAll (d.uses Γ) := by
  rw [ids, uses, Use.idsOfAll, List.flatMap_map, Expr.idsOfOption_eq_flatMap]

theorem VarDecl.count_idsOfAll (ds : List VarDecl) :
    (idsOfAll ds).count i =
      (ds.map VarDecl.id).count i + (Use.idsOfAll (usesOfAll T Γ ds)).count i := by
  induction ds generalizing Γ with
  | nil => rfl
  | cons d ds ih =>
    have hds := ih (Γ := View.bindAll Γ (d.binding T))
    simp only [idsOfAll, usesOfAll, d.ids_eq (Γ := Γ), Use.idsOfAll_append, List.map_cons,
      List.count_append, List.count_cons]
    omega

theorem LoopInit.count_idsOfAll (is : List LoopInit) :
    (idsOfAll is).count i = ((is.flatMap locals).map VarDecl.id).count i +
      (Use.idsOfAll (usesOfAll T Γ is)).count i := by
  induction is generalizing Γ with
  | nil => rfl
  | cons j is ih =>
    have his := ih (Γ := View.bindAll Γ (j.binding T))
    cases j with
    | declare d =>
      simp only [idsOfAll, ids, usesOfAll, uses, locals, d.ids_eq (Γ := Γ), Use.idsOfAll_append,
        List.flatMap_cons, List.map_append, List.map_cons, List.map_nil, List.count_append,
        List.count_cons, List.count_nil]
      omega
    | evaluate e =>
      simp only [idsOfAll, ids, usesOfAll, uses, locals, Use.idsOfAll_append, Expr.idsOfAll_uses,
        List.flatMap_cons, List.flatMap_nil, List.append_nil, List.nil_append, List.count_append]
      omega

namespace Stmt

mutual

/-- **The nodes of a statement** are the statements in it, the declarations of variables and the
nodes of the expressions that are used, each of them once. -/
theorem count_ids : ∀ (s : Stmt) (Γ : Names), s.ids.count i =
    s.sites.count i + (s.locals.map VarDecl.id).count i + (Use.idsOfAll (s.uses T Γ)).count i
  | .block s ds body, Γ => by
    have hds := VarDecl.count_idsOfAll (T := T) (i := i) (Γ := Γ) ds
    have hbody := count_idsOfAll body (View.bindAll Γ (VarDecl.bindingOfAll T ds))
    simp only [ids, sites, locals, uses, Use.idsOfAll_append, List.map_append, List.count_append,
      List.count_cons]
    omega
  | .evaluation s e, Γ => by
    simp only [ids, sites, locals, uses, Expr.idsOfAll_uses, List.flatMap_cons, List.flatMap_nil,
      List.append_nil, List.map_nil, List.count_nil, List.count_cons]
    omega
  | .write s args _, Γ => by
    simp only [ids, sites, locals, uses, Expr.idsOfAll_uses, Expr.idsOfAll_eq_flatMap, List.map_nil,
      List.count_nil, List.count_cons]
    omega
  | .ifThen s c t, Γ => by
    have ht := count_ids t Γ
    simp only [ids, sites, locals, uses, Use.idsOfAll_append, Expr.idsOfAll_uses, List.flatMap_cons,
      List.flatMap_nil, List.append_nil, List.count_append, List.count_cons]
    omega
  | .ifElse s c t e, Γ => by
    have ht := count_ids t Γ
    have he := count_ids e Γ
    simp only [ids, sites, locals, uses, Use.idsOfAll_append, Expr.idsOfAll_uses, List.flatMap_cons,
      List.flatMap_nil, List.append_nil, List.map_append, List.count_append, List.count_cons]
    omega
  | .forLoop s inits c incs body, Γ => by
    have hinits := LoopInit.count_idsOfAll (T := T) (i := i) (Γ := Γ) inits
    have hbody := count_ids body (View.bindAll Γ (LoopInit.bindingOfAll T inits))
    simp only [ids, sites, locals, uses, Use.idsOfAll_append, Expr.idsOfAll_uses,
      Expr.idsOfAll_eq_flatMap, Expr.idsOfOption_eq_flatMap, List.map_append, List.count_append,
      List.count_cons]
    omega
  | .break s, Γ | .continue s, Γ => by
    simp only [ids, sites, locals, uses, Use.idsOfAll_nil, List.map_nil,
      List.count_nil, Nat.add_zero]
  | .return s v, Γ => by
    simp only [ids, sites, locals, uses, Expr.idsOfAll_uses,
      Expr.idsOfOption_eq_flatMap, List.map_nil, List.count_nil, List.count_cons]
    omega

/-- As `count_ids`, for several statements. -/
theorem count_idsOfAll : ∀ (ss : List Stmt) (Γ : Names), (idsOfAll ss).count i =
    (sitesOfAll ss).count i + ((localsOfAll ss).map VarDecl.id).count i +
      (Use.idsOfAll (usesOfAll T Γ ss)).count i
  | [], _ => rfl
  | s :: ss, Γ => by
    have hs := count_ids s Γ
    have hss := count_idsOfAll ss Γ
    simp only [idsOfAll, sitesOfAll, localsOfAll, usesOfAll, Use.idsOfAll_append, List.map_append,
      List.count_append]
    omega

end

end Stmt

theorem Signature.count_ids (s : Signature) : s.ids.count i =
    [s.id].count i + (s.arguments.map VarDecl.id).count i + (Use.idsOfAll (s.uses Γ)).count i := by
  rw [ids, uses, ← List.singleton_append, List.count_append, Nat.add_assoc, Nat.add_left_cancel_iff]
  induction s.arguments with
  | nil => rfl
  | cons d ds ih =>
    simp only [VarDecl.idsOfAll, d.ids_eq (Γ := Γ), List.flatMap_cons,
      Use.idsOfAll_append, List.map_cons, List.count_append, List.count_cons]
    omega

theorem Decl.count_idsOfAll (ds : List Decl) : (idsOfAll ds).count i = (ds.flatMap sites).count i +
    ((ds.flatMap varDecls).map VarDecl.id).count i +
      (Use.idsOfAll (ds.flatMap (uses T Γ))).count i := by
  induction ds with
  | nil => rfl
  | cons d ds ih =>
    simp only [idsOfAll, List.flatMap_cons, List.map_append, Use.idsOfAll_append, List.count_append]
    cases d with
    | «variable» d =>
      simp only [ids, sites, varDecls, uses, d.ids_eq (Γ := Γ), List.map_cons, List.map_nil,
        List.count_cons, List.count_nil]
      omega
    | declare s =>
      have hs := s.count_ids (i := i) (Γ := Γ)
      simp only [ids, sites, varDecls, uses]
      omega
    | define f =>
      have hs := f.signature.count_ids (i := i) (Γ := Γ)
      have hbody := f.body.stmt.count_ids (T := T) (i := i)
        (View.bindAll Γ (VarDecl.bindingOfAll T f.signature.arguments))
      simp only [ids, Function.ids, sites, varDecls, uses, Function.uses, Use.idsOfAll_append,
        List.map_append, List.count_append, List.count_cons, List.count_nil] at hs ⊢
      omega

/-- **The nodes of a tree** are its functions and statements, its declarations of variables, and the
nodes of its uses, each of them once. -/
theorem SyntaxTree.perm_ids (t : SyntaxTree) : (Decl.idsOfAll t.declarations).Perm
    (t.sites ++ (t.varDecls.map VarDecl.id ++ Use.idsOfAll (t.uses T Γ))) := by
  -- What is on both sides is counted, for one id after the other.
  refine List.perm_iff_count.mpr fun i => ?_
  rw [Decl.count_idsOfAll (T := T) (Γ := Γ), List.count_append, List.count_append, Nat.add_assoc]
  rfl

/-- A node of a tree is a function or a statement, a declaration of variables, or a part of a
use. -/
theorem SyntaxTree.exists_part {t : SyntaxTree} (h : i ∈ Decl.idsOfAll t.declarations) :
    i ∈ t.sites ∨ (∃ d ∈ t.varDecls, d.id = i) ∨
    ∃ u ∈ t.uses T Γ, ∃ x : Expr, x.Part u.expr ∧ x.id = i := by
  rw [(t.perm_ids (T := T) (Γ := Γ)).mem_iff, List.mem_append, List.mem_append, List.mem_map] at h
  refine h.imp_right (Or.imp_right fun hi => ?_)
  obtain ⟨u, hu, hi⟩ := List.mem_flatMap.mp hi
  exact ⟨u, hu, Expr.mem_ids.mp hi⟩

/-! ### Typed uses -/

/-- **A use stands in a typed tree**, in which the names of the unit mean what `Γ` says. -/
structure Use.Stands (P : Ty → Prop) (T : TypeTable) (Γ : Names) (u : Use) : Prop where
  /-- The expression is typed in its scope. -/
  typed : u.expr.Typed P T u.scope
  /-- The types of the names there are settled. -/
  settled : View.Settled P u.scope
  /-- The functions there are functions of the unit. -/
  functions : ∀ name ps, u.scope name = some (.function ps) → Γ name = some (.function ps)

variable {P : Ty → Prop}

/-- Variables hide functions, and nothing else becomes one. -/
theorem View.of_bindAll_function {bs : List (String × Ty)} {name : String} {ps : List Ty}
    (h : View.bindAll Γ bs name = some (.function ps)) : Γ name = some (.function ps) := by
  induction bs generalizing Γ with
  | nil => exact h
  | cons b bs ih =>
    have hbind := ih h
    by_cases hn : name = b.1
    · rw [View.bind, if_pos hn] at hbind
      cases hbind
    · rwa [View.bind_ne _ _ hn] at hbind

/-- A use inside a scope is one inside the scope around it. -/
theorem Use.Stands.outside {u : Use} {bs : List (String × Ty)}
    (h : u.Stands P T (View.bindAll Γ bs)) :
    u.Stands P T Γ :=
  ⟨h.typed, h.settled, fun name ps hname => View.of_bindAll_function (h.functions name ps hname)⟩

theorem Use.stands (hΓ : View.Settled P Γ) {e : Expr} (h : e.Typed P T Γ) (written : Option Ty) :
    Use.Stands P T Γ ⟨Γ, e, written⟩ := ⟨h, hΓ, fun _ _ h => h⟩

theorem Expr.stand_usesOfAll (hΓ : View.Settled P Γ) {es : List Expr}
    (h : ∀ e ∈ es, e.Typed P T Γ) :
    ∀ u ∈ usesOfAll Γ es, u.Stands P T Γ := by
  intro u hu
  obtain ⟨e, he, rfl⟩ := List.mem_map.mp hu
  exact Use.stands hΓ (h e he) none

namespace VarDecl

theorem Typed.uses (hΓ : View.Settled P Γ) {d : VarDecl} (h : d.Typed P T Γ) :
    ∀ u ∈ d.uses Γ, u.Stands P T Γ := by
  intro u hu
  obtain ⟨e, he, rfl⟩ := List.mem_map.mp hu
  obtain ⟨t, -, -, -, hinit⟩ := h
  exact Use.stands hΓ (hinit e (Option.mem_toList.mp he)).1 _

theorem AllTyped.uses (hP : Ty.Stable P) (hΓ : View.Settled P Γ) {ds : List VarDecl}
    (h : AllTyped P T Γ ds) : ∀ u ∈ usesOfAll T Γ ds, u.Stands P T Γ := by
  induction ds generalizing Γ with
  | nil => simp [usesOfAll]
  | cons d ds ih =>
    rw [usesOfAll, List.forall_mem_append]
    exact ⟨h.1.uses hΓ, fun u hu => (ih (h.1.settled hP hΓ) h.2 u hu).outside⟩

/-- An argument has no initializer. -/
theorem TypedArgument.uses {d : VarDecl} (h : d.TypedArgument P T) : d.uses Γ = [] := by
  rw [VarDecl.uses, h.2.1, Option.toList_none, List.map_nil]

end VarDecl

namespace LoopInit

theorem Typed.uses (hΓ : View.Settled P Γ) {i : LoopInit} (h : i.Typed P T Γ) :
    ∀ u ∈ i.uses Γ, u.Stands P T Γ := by
  cases i with
  | declare d => exact VarDecl.Typed.uses hΓ h
  | evaluate e =>
    obtain ⟨t, ht⟩ := h
    exact Expr.stand_usesOfAll hΓ (by simpa using ht.1)

theorem AllTyped.uses (hP : Ty.Stable P) (hΓ : View.Settled P Γ) {is : List LoopInit}
    (h : AllTyped P T Γ is) : ∀ u ∈ usesOfAll T Γ is, u.Stands P T Γ := by
  induction is generalizing Γ with
  | nil => simp [usesOfAll]
  | cons i is ih =>
    rw [usesOfAll, List.forall_mem_append]
    exact ⟨h.1.uses hΓ, fun u hu => (ih (h.1.settled hP hΓ) h.2 u hu).outside⟩

end LoopInit

namespace Stmt

variable {R : Ty}

mutual

/-- **In a typed statement every use is typed in its scope.** -/
theorem Typed.uses (hP : Ty.Stable P) :
    ∀ {s : Stmt} {Γ : Names}, View.Settled P Γ → s.Typed P T R Γ →
    ∀ u ∈ s.uses T Γ, u.Stands P T Γ
  | .block _ ds body, Γ, hΓ, h => by
    rw [Stmt.uses, List.forall_mem_append]
    refine ⟨h.1.uses hP hΓ, fun u hu => ?_⟩
    exact (AllTyped.uses hP (h.1.settled hP hΓ) h.2 u hu).outside
  | .evaluation _ e, Γ, hΓ, h => by
    obtain ⟨t, ht⟩ := h
    exact Expr.stand_usesOfAll hΓ (by simpa using ht.1)
  | .write _ args _, Γ, hΓ, h => by
    refine Expr.stand_usesOfAll hΓ fun e he => ?_
    obtain ⟨t, ht, -⟩ := h e he
    exact ht.1
  | .ifThen _ c t, Γ, hΓ, h => by
    rw [Stmt.uses, List.forall_mem_append]
    exact ⟨Expr.stand_usesOfAll hΓ (by simpa using h.1.1), Typed.uses hP hΓ h.2⟩
  | .ifElse _ c t e, Γ, hΓ, h => by
    rw [Stmt.uses, List.forall_mem_append, List.forall_mem_append]
    exact ⟨Expr.stand_usesOfAll hΓ (by simpa using h.1.1), Typed.uses hP hΓ h.2.1,
      Typed.uses hP hΓ h.2.2⟩
  | .forLoop _ inits c incs body, Γ, hΓ, h => by
    obtain ⟨hinits, hc, hincs, hbody⟩ := h
    have hΔ := hinits.settled hP hΓ
    rw [Stmt.uses, List.forall_mem_append, List.forall_mem_append, List.forall_mem_append]
    refine ⟨hinits.uses hP hΓ, fun u hu => ?_, fun u hu => ?_, fun u hu => ?_⟩
    · refine (Expr.stand_usesOfAll hΔ (fun e he => ?_) u hu).outside
      obtain ⟨t, ht, -⟩ := hc e (Option.mem_toList.mp he)
      exact ht.1
    · refine (Expr.stand_usesOfAll hΔ (fun e he => ?_) u hu).outside
      obtain ⟨t, ht⟩ := hincs e he
      exact ht.1
    · exact (Typed.uses hP hΔ hbody u hu).outside
  | .break _, _, _, _ | .continue _, _, _, _ => by simp [Stmt.uses]
  | .return _ v, Γ, hΓ, h => by
    refine Expr.stand_usesOfAll hΓ fun e he => ?_
    obtain ⟨t, ht, -⟩ := h e (Option.mem_toList.mp he)
    exact ht.1

/-- As `Typed.uses`, for several statements. -/
theorem AllTyped.uses (hP : Ty.Stable P) : ∀ {ss : List Stmt} {Γ : Names}, View.Settled P Γ →
    AllTyped P T R Γ ss → ∀ u ∈ usesOfAll T Γ ss, u.Stands P T Γ
  | [], _, _, _ => by simp [usesOfAll]
  | s :: ss, Γ, hΓ, h => by
    rw [usesOfAll, List.forall_mem_append]
    exact ⟨Typed.uses hP hΓ h.1, AllTyped.uses hP hΓ h.2⟩

end

end Stmt

theorem Signature.uses_eq_nil {s : Signature} (h : ∀ a ∈ s.arguments, a.TypedArgument P T) :
    s.uses Γ = [] := by
  rw [uses, List.flatMap_eq_nil_iff]
  exact fun a ha => (h a ha).uses

/-- **In a typed declaration of the unit every use is typed in its scope.** -/
theorem Decl.Typed.uses (hP : Ty.Stable P) (hΓ : View.Settled P Γ) {d : Decl} (h : d.Typed P T Γ) :
    ∀ u ∈ d.uses T Γ, u.Stands P T Γ := by
  cases d with
  | «variable» d => exact VarDecl.Typed.uses hΓ h.1
  | declare s =>
    rw [Decl.uses, Signature.uses_eq_nil h]
    simp
  | define f =>
    obtain ⟨R, hR⟩ := h
    rw [Decl.uses, Function.uses, Signature.uses_eq_nil hR.arguments, List.nil_append]
    intro u hu
    exact (hR.body.uses hP (VarDecl.settled_arguments hP hR.arguments hΓ) u hu).outside

/-! ### Uses and positions -/

theorem Expr.wellPlaced_usesOfAll {es : List Expr} (h : ∀ e ∈ es, e.IsValue) :
    ∀ u ∈ usesOfAll Γ es, u.expr.WellPlaced := by
  intro u hu
  obtain ⟨e, he, rfl⟩ := List.mem_map.mp hu
  exact (h e he).2

theorem VarDecl.WellPlaced.uses {d : VarDecl} (h : d.WellPlaced) :
    ∀ u ∈ d.uses Γ, u.expr.WellPlaced := by
  intro u hu
  obtain ⟨e, he, rfl⟩ := List.mem_map.mp hu
  exact ((Expr.isOptionalValue_iff _).mp h.2 e (Option.mem_toList.mp he)).2

theorem VarDecl.wellPlaced_usesOfAll {ds : List VarDecl} (h : ∀ d ∈ ds, d.WellPlaced) :
    ∀ u ∈ usesOfAll T Γ ds, u.expr.WellPlaced := by
  induction ds generalizing Γ with
  | nil => simp [usesOfAll]
  | cons d ds ih =>
    rw [List.forall_mem_cons] at h
    rw [usesOfAll, List.forall_mem_append]
    exact ⟨h.1.uses, ih h.2⟩

theorem LoopInit.wellPlaced_usesOfAll {is : List LoopInit} (h : ∀ i ∈ is, i.WellPlaced) :
    ∀ u ∈ usesOfAll T Γ is, u.expr.WellPlaced := by
  induction is generalizing Γ with
  | nil => simp [usesOfAll]
  | cons i is ih =>
    rw [List.forall_mem_cons] at h
    rw [usesOfAll, List.forall_mem_append]
    refine ⟨?_, ih h.2⟩
    cases i with
    | declare d => exact VarDecl.WellPlaced.uses h.1
    | evaluate e => exact Expr.wellPlaced_usesOfAll (List.forall_mem_singleton.mpr h.1)

namespace Stmt

mutual

/-- **In a statement in which everything is where it belongs, so it is in each use.** -/
theorem wellPlaced_uses :
    ∀ {s : Stmt} {Γ : Names}, s.WellPlaced → ∀ u ∈ s.uses T Γ, u.expr.WellPlaced
  | .block _ ds body, Γ, h => by
    rw [Stmt.uses, List.forall_mem_append]
    exact ⟨VarDecl.wellPlaced_usesOfAll h.1, wellPlaced_usesOfAll h.2⟩
  | .evaluation _ e, Γ, h => Expr.wellPlaced_usesOfAll (List.forall_mem_singleton.mpr h)
  | .write _ args _, Γ, h => Expr.wellPlaced_usesOfAll ((Expr.allValues_iff args).mp h)
  | .ifThen _ c t, Γ, h => by
    rw [Stmt.uses, List.forall_mem_append]
    exact ⟨Expr.wellPlaced_usesOfAll (List.forall_mem_singleton.mpr h.1), wellPlaced_uses h.2⟩
  | .ifElse _ c t e, Γ, h => by
    rw [Stmt.uses, List.forall_mem_append, List.forall_mem_append]
    exact ⟨Expr.wellPlaced_usesOfAll (List.forall_mem_singleton.mpr h.1), wellPlaced_uses h.2.1,
      wellPlaced_uses h.2.2⟩
  | .forLoop _ inits c incs body, Γ, h => by
    obtain ⟨hinits, hc, hincs, hbody⟩ := h
    rw [Stmt.uses, List.forall_mem_append, List.forall_mem_append, List.forall_mem_append]
    refine ⟨LoopInit.wellPlaced_usesOfAll hinits, Expr.wellPlaced_usesOfAll fun e he => ?_,
      Expr.wellPlaced_usesOfAll ((Expr.allValues_iff incs).mp hincs), wellPlaced_uses hbody⟩
    exact (Expr.isOptionalValue_iff c).mp hc e (Option.mem_toList.mp he)
  | .break _, _, _ | .continue _, _, _ => by simp [Stmt.uses]
  | .return _ v, Γ, h => Expr.wellPlaced_usesOfAll fun e he =>
      (Expr.isOptionalValue_iff v).mp h e (Option.mem_toList.mp he)

/-- As `wellPlaced_uses`, for several statements. -/
theorem wellPlaced_usesOfAll : ∀ {ss : List Stmt} {Γ : Names}, AllWellPlaced ss →
    ∀ u ∈ usesOfAll T Γ ss, u.expr.WellPlaced
  | [], _, _ => by simp [usesOfAll]
  | s :: ss, Γ, h => by
    rw [usesOfAll, List.forall_mem_append]
    exact ⟨wellPlaced_uses h.1, wellPlaced_usesOfAll h.2⟩

end

end Stmt

/-- As `Stmt.wellPlaced_uses`, for a declaration of the unit. -/
theorem Decl.wellPlaced_uses {d : Decl} (h : d.WellPlaced) :
    ∀ u ∈ d.uses T Γ, u.expr.WellPlaced := by
  have hsignature : ∀ {s : Signature}, s.WellPlaced → ∀ u ∈ s.uses Γ, u.expr.WellPlaced := by
    intro s hs u hu
    obtain ⟨a, ha, hu⟩ := List.mem_flatMap.mp hu
    exact (hs a ha).uses u hu
  cases d with
  | «variable» d => exact VarDecl.WellPlaced.uses h
  | declare s => exact hsignature h
  | define f =>
    rw [Decl.uses, Function.uses, List.forall_mem_append]
    exact ⟨hsignature h.1, Stmt.wellPlaced_uses h.2⟩

/-! ### Decided declarations -/

/-- The table holds a type for the declaration, and it has a property. -/
def VarDecl.Has (P : Ty → Prop) (T : TypeTable) (d : VarDecl) : Prop :=
  ∃ t, T.get? d.id = some t ∧ P t

theorem VarDecl.Has.imp {Q : Ty → Prop} {d : VarDecl} (h : d.Has P T) (hq : ∀ t, P t → Q t) :
    d.Has Q T := by
  obtain ⟨t, ht, hp⟩ := h
  exact ⟨t, ht, hq t hp⟩

theorem VarDecl.Typed.has {d : VarDecl} (h : d.Typed P T Γ) :
    d.Has (fun t => P t ∧ t ≠ .void) T := by
  obtain ⟨t, ⟨ht, hp⟩, hv, -⟩ := h
  exact ⟨t, ht, hp, hv⟩

theorem VarDecl.TypedArgument.has {d : VarDecl} (h : d.TypedArgument P T) :
    d.Has (fun t => P t ∧ t ≠ .void) T := by
  obtain ⟨-, -, t, ht, hp, -, hv⟩ := h
  exact ⟨t, ht, hp, hv⟩

theorem VarDecl.AllTyped.has {ds : List VarDecl} (h : AllTyped P T Γ ds) :
    ∀ d ∈ ds, d.Has (fun t => P t ∧ t ≠ .void) T := by
  induction ds generalizing Γ with
  | nil => simp
  | cons d ds ih => exact List.forall_mem_cons.mpr ⟨h.1.has, ih h.2⟩

theorem LoopInit.AllTyped.has {is : List LoopInit} (h : AllTyped P T Γ is) :
    ∀ d ∈ is.flatMap LoopInit.locals, d.Has (fun t => P t ∧ t ≠ .void) T := by
  induction is generalizing Γ with
  | nil => simp
  | cons i is ih =>
    rw [List.flatMap_cons, List.forall_mem_append]
    refine ⟨?_, ih h.2⟩
    cases i with
    | declare d => exact List.forall_mem_singleton.mpr (VarDecl.Typed.has h.1)
    | evaluate => simp [LoopInit.locals]

namespace Stmt

variable {R : Ty}

mutual

/-- **In a typed statement the types of all variables are decided.** -/
theorem Typed.locals : ∀ {s : Stmt} {Γ : Names}, s.Typed P T R Γ →
    ∀ d ∈ s.locals, d.Has (fun t => P t ∧ t ≠ .void) T
  | .block _ ds body, _, h => by
    rw [Stmt.locals, List.forall_mem_append]
    exact ⟨h.1.has, AllTyped.locals h.2⟩
  | .ifThen _ c t, _, h => by
    rw [Stmt.locals]
    exact Typed.locals h.2
  | .ifElse _ c t e, _, h => by
    rw [Stmt.locals, List.forall_mem_append]
    exact ⟨Typed.locals h.2.1, Typed.locals h.2.2⟩
  | .forLoop _ inits c incs body, _, h => by
    rw [Stmt.locals, List.forall_mem_append]
    exact ⟨h.1.has, Typed.locals h.2.2.2⟩
  | .evaluation .., _, _ | .write .., _, _ | .break _, _, _ | .continue _, _, _
  | .return .., _, _ => by
    simp [Stmt.locals]

/-- As `Typed.locals`, for several statements. -/
theorem AllTyped.locals : ∀ {ss : List Stmt} {Γ : Names}, AllTyped P T R Γ ss →
    ∀ d ∈ localsOfAll ss, d.Has (fun t => P t ∧ t ≠ .void) T
  | [], _, _ => by simp [localsOfAll]
  | s :: ss, _, h => by
    rw [localsOfAll, List.forall_mem_append]
    exact ⟨Typed.locals h.1, AllTyped.locals h.2⟩

end

end Stmt

/-- In a typed declaration of the unit the types of all variables and arguments are decided. -/
theorem Decl.Typed.varDecls {d : Decl} (h : d.Typed P T Γ) :
    ∀ v ∈ d.varDecls, v.Has (fun t => P t ∧ t ≠ .void) T := by
  cases d with
  | «variable» d => exact List.forall_mem_singleton.mpr h.1.has
  | declare s => exact fun v hv => (h v hv).has
  | define f =>
    obtain ⟨R, hR⟩ := h
    rw [Decl.varDecls, List.forall_mem_append]
    exact ⟨fun v hv => (hR.arguments v hv).has, hR.body.locals⟩

end PostfixCompiler
