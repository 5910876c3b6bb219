import PostfixCompiler.Proofs.Typing.Uses

/-!
# Scenes

Two passes look names up, each in a table that it fills itself: the checker declares the variables
of a function as it checks them, and when the code of the function is written they are declared a
second time. To compare what a name is bound to in the one pass and in the other, the tables do not
help, since the two number their symbols differently. What they have in common is the tree: a symbol
was declared by a node.

A **scene** says of a name which node declared it and what it means. The scene of an expression is a
matter of the tree and of the types of its declarations. A declaration is in scope behind itself and
not in its own initializer; a block and a loop are scopes of their own; an inner declaration hides
an outer one. Here the expressions of a function are listed in this way, without either of the
passes, and both of them are compared with that list elsewhere.

## Main definitions

* `PostfixCompiler.Bound`, `PostfixCompiler.Scene`: what names are bound to.
* `PostfixCompiler.Occurrence`: an expression in its scene.
* `PostfixCompiler.Stmt.occurrences`, `PostfixCompiler.Function.occurrences`: the expressions in a
  phrase.

## Main statements

* `PostfixCompiler.Stmt.occurrences_le`: in a larger scene the same expressions occur, each in a
  larger scene.
* `PostfixCompiler.Function.typed_of_mem`: in a typed function every expression is typed in its
  scene.
-/

namespace PostfixCompiler

/-! ### What names are bound to -/

/-- What a name is bound to: the node that declares it, and what the name means. -/
structure Bound where
  /-- The declaration. -/
  node : NodeId
  /-- What a use of the name needs to know. -/
  meaning : Meaning

/-- **What names are bound to at a place.** -/
abbrev Scene := View Bound

namespace View

variable {Γ Δ : Scene}

/-- What the names in a scene mean. -/
def names (Γ : Scene) : Names := fun x => (Γ x).map Bound.meaning

/-- Names become variables that a node declares, one after the other. -/
def declare (Γ : Scene) (node : NodeId) : List (String × Ty) → Scene
  | [] => Γ
  | (name, t) :: rest => declare (Γ.bind name ⟨node, .variable t⟩) node rest

theorem names_bind (Γ : Scene) (name : String) (b : Bound) :
    names (Γ.bind name b) = Γ.names.bind name b.meaning := by
  funext x
  by_cases h : x = name
  · rw [names, bind, if_pos h, bind, if_pos h]
    rfl
  · rw [names, bind_ne _ _ h, bind_ne _ _ h]
    rfl

theorem names_declare (Γ : Scene) (node : NodeId) (bs : List (String × Ty)) :
    names (Γ.declare node bs) = bindAll Γ.names bs := by
  induction bs generalizing Γ with
  | nil => rfl
  | cons b bs ih => rw [declare, ih, names_bind, bindAll]

theorem Le.declare (h : Γ.Le Δ) (node : NodeId) (bs : List (String × Ty)) :
    (Γ.declare node bs).Le (Δ.declare node bs) := by
  induction bs generalizing Γ Δ with
  | nil => exact h
  | cons b bs ih => exact ih (h.bind b.1 _)

end View

/-! ### Behind declarations -/

variable (T : TypeTable)

/-- The scene behind a declaration. -/
def VarDecl.scene (Γ : Scene) (d : VarDecl) : Scene := Γ.declare d.id (d.binding T)

/-- The scene behind declarations. -/
def VarDecl.sceneOfAll (Γ : Scene) (ds : List VarDecl) : Scene := ds.foldl (scene T) Γ

/-- The scene behind a step that a loop takes before its first round. -/
def LoopInit.scene (Γ : Scene) : LoopInit → Scene
  | .declare d => d.scene T Γ
  | .evaluate _ => Γ

/-- The scene behind all that a loop does before its first round. -/
def LoopInit.sceneOfAll (Γ : Scene) (is : List LoopInit) : Scene := is.foldl (scene T) Γ

/-! ### Occurrences -/

/-- **An expression in its scene.** -/
structure Occurrence where
  /-- The expression. -/
  expr : Expr
  /-- What names are bound to where it stands. -/
  scene : Scene

/-- Expressions in one scene. -/
def Expr.occurrences (Γ : Scene) (es : List Expr) : List Occurrence := es.map fun e => ⟨e, Γ⟩

/-- The initializer of a declaration, which does not see the variables that are declared. -/
def VarDecl.occurrences (Γ : Scene) (d : VarDecl) : List Occurrence :=
  Expr.occurrences Γ d.initializer.toList

/-- The initializers of declarations, each in the scene behind the declarations before it. -/
def VarDecl.occurrencesOfAll (Γ : Scene) : List VarDecl → List Occurrence
  | [] => []
  | d :: ds => d.occurrences Γ ++ occurrencesOfAll (d.scene T Γ) ds

/-- The expression of a step that a loop takes before its first round. -/
def LoopInit.occurrences (Γ : Scene) : LoopInit → List Occurrence
  | .declare d => d.occurrences Γ
  | .evaluate e => Expr.occurrences Γ [e]

/-- The expressions in all that a loop does before its first round. -/
def LoopInit.occurrencesOfAll (Γ : Scene) : List LoopInit → List Occurrence
  | [] => []
  | i :: is => i.occurrences Γ ++ occurrencesOfAll (i.scene T Γ) is

namespace Stmt

mutual

/-- **The expressions in a statement**, each in its scene. -/
def occurrences (Γ : Scene) : Stmt → List Occurrence
  | .block _ ds body =>
    VarDecl.occurrencesOfAll T Γ ds ++ occurrencesOfAll (VarDecl.sceneOfAll T Γ ds) body
  | .evaluation _ e => Expr.occurrences Γ [e]
  | .write _ args _ => Expr.occurrences Γ args
  | .ifThen _ c t => Expr.occurrences Γ [c] ++ t.occurrences Γ
  | .ifElse _ c t e => Expr.occurrences Γ [c] ++ (t.occurrences Γ ++ e.occurrences Γ)
  | .forLoop _ inits c incs body =>
    let Δ := LoopInit.sceneOfAll T Γ inits
    LoopInit.occurrencesOfAll T Γ inits ++
      (Expr.occurrences Δ c.toList ++ (Expr.occurrences Δ incs ++ body.occurrences Δ))
  | .break _ | .continue _ => []
  | .return _ v => Expr.occurrences Γ v.toList

/-- The expressions in statements. -/
def occurrencesOfAll (Γ : Scene) : List Stmt → List Occurrence
  | [] => []
  | s :: ss => s.occurrences Γ ++ occurrencesOfAll Γ ss

end

end Stmt

/-- **The expressions in the body of a function**, if names outside of it are bound as `Γ` says. -/
def Function.occurrences (Γ : Scene) (f : Function) : List Occurrence :=
  f.body.stmt.occurrences T (VarDecl.sceneOfAll T Γ f.signature.arguments)

/-! ### Larger scenes -/

variable {T} {Γ Δ : Scene}

/-- The same expression in a larger scene. -/
def Occurrence.Le (o p : Occurrence) : Prop := o.expr = p.expr ∧ o.scene.Le p.scene

theorem VarDecl.sceneOfAll_le (h : Γ.Le Δ) (ds : List VarDecl) :
    (sceneOfAll T Γ ds).Le (sceneOfAll T Δ ds) := by
  induction ds generalizing Γ Δ with
  | nil => exact h
  | cons d ds ih => exact ih (h.declare d.id (d.binding T))

theorem LoopInit.scene_le (h : Γ.Le Δ) (i : LoopInit) : (i.scene T Γ).Le (i.scene T Δ) := by
  cases i with
  | declare d => exact h.declare d.id (d.binding T)
  | evaluate => exact h

theorem LoopInit.sceneOfAll_le (h : Γ.Le Δ) (is : List LoopInit) :
    (sceneOfAll T Γ is).Le (sceneOfAll T Δ is) := by
  induction is generalizing Γ Δ with
  | nil => exact h
  | cons i is ih => exact ih (i.scene_le h)

theorem Expr.occurrences_le (h : Γ.Le Δ) (es : List Expr) :
    List.Forall₂ Occurrence.Le (occurrences Γ es) (occurrences Δ es) := by
  induction es with
  | nil => exact .nil
  | cons e es ih => exact .cons ⟨rfl, h⟩ ih

theorem VarDecl.occurrencesOfAll_le (h : Γ.Le Δ) (ds : List VarDecl) :
    List.Forall₂ Occurrence.Le (occurrencesOfAll T Γ ds) (occurrencesOfAll T Δ ds) := by
  induction ds generalizing Γ Δ with
  | nil => exact .nil
  | cons d ds ih =>
    exact List.rel_append (Expr.occurrences_le h _) (ih (h.declare d.id (d.binding T)))

theorem LoopInit.occurrencesOfAll_le (h : Γ.Le Δ) (is : List LoopInit) :
    List.Forall₂ Occurrence.Le (occurrencesOfAll T Γ is) (occurrencesOfAll T Δ is) := by
  induction is generalizing Γ Δ with
  | nil => exact .nil
  | cons i is ih =>
    refine List.rel_append ?_ (ih (i.scene_le h))
    cases i with
    | declare d => exact Expr.occurrences_le h _
    | evaluate e => exact Expr.occurrences_le h [e]

namespace Stmt

mutual

/-- **In a larger scene the same expressions occur**, each in a larger scene. -/
theorem occurrences_le : ∀ (s : Stmt) {Γ Δ : Scene}, Γ.Le Δ →
    List.Forall₂ Occurrence.Le (s.occurrences T Γ) (s.occurrences T Δ)
  | .block _ ds body, _, _, h =>
    List.rel_append (VarDecl.occurrencesOfAll_le h ds)
      (occurrencesOfAll_le body (VarDecl.sceneOfAll_le h ds))
  | .evaluation _ e, _, _, h => Expr.occurrences_le h [e]
  | .write _ args _, _, _, h => Expr.occurrences_le h args
  | .ifThen _ c t, _, _, h => List.rel_append (Expr.occurrences_le h [c]) (occurrences_le t h)
  | .ifElse _ c t e, _, _, h =>
    List.rel_append (Expr.occurrences_le h [c])
      (List.rel_append (occurrences_le t h) (occurrences_le e h))
  | .forLoop _ inits c incs body, _, _, h => by
    have hΔ := LoopInit.sceneOfAll_le (T := T) h inits
    refine List.rel_append (LoopInit.occurrencesOfAll_le h inits) ?_
    refine List.rel_append (Expr.occurrences_le hΔ _) ?_
    exact List.rel_append (Expr.occurrences_le hΔ incs) (occurrences_le body hΔ)
  | .break _, _, _, _ | .continue _, _, _, _ => .nil
  | .return _ v, _, _, h => Expr.occurrences_le h _

/-- As `occurrences_le`, for several statements. -/
theorem occurrencesOfAll_le : ∀ (ss : List Stmt) {Γ Δ : Scene}, Γ.Le Δ →
    List.Forall₂ Occurrence.Le (occurrencesOfAll T Γ ss) (occurrencesOfAll T Δ ss)
  | [], _, _, _ => .nil
  | s :: ss, _, _, h => List.rel_append (occurrences_le s h) (occurrencesOfAll_le ss h)

end

end Stmt

theorem Function.occurrences_le (h : Γ.Le Δ) (f : Function) :
    List.Forall₂ Occurrence.Le (f.occurrences T Γ) (f.occurrences T Δ) :=
  Stmt.occurrences_le f.body.stmt (VarDecl.sceneOfAll_le h _)

/-! ### Occurrences and uses -/

/-- An expression in its scene is used in the scope that the scene means. -/
def Occurrence.IsUse (o : Occurrence) (u : Use) : Prop := o.expr = u.expr ∧ o.scene.names = u.scope

/-- The ids of the nodes of all expressions that occur. -/
def Occurrence.idsOfAll (os : List Occurrence) : List NodeId := os.flatMap fun o => o.expr.ids

/-- Expressions have the same nodes as occurrences and as uses. -/
theorem Occurrence.idsOfAll_eq {os : List Occurrence} {us : List Use}
    (h : List.Forall₂ IsUse os us) :
    idsOfAll os = Use.idsOfAll us := by
  induction h with
  | nil => rfl
  | cons h _ ih => rw [idsOfAll, List.flatMap_cons, h.1, ← idsOfAll, ih, Use.idsOfAll, Use.idsOfAll,
      List.flatMap_cons]

theorem VarDecl.names_scene (Γ : Scene) (d : VarDecl) :
    (d.scene T Γ).names = View.bindAll Γ.names (d.binding T) :=
  View.names_declare Γ d.id _

theorem VarDecl.names_sceneOfAll (Γ : Scene) (ds : List VarDecl) :
    (sceneOfAll T Γ ds).names = View.bindAll Γ.names (bindingOfAll T ds) := by
  induction ds generalizing Γ with
  | nil => rfl
  | cons d ds ih =>
    rw [bindingOfAll, List.flatMap_cons, View.bindAll_append, ← names_scene]
    exact ih _

theorem LoopInit.names_scene (Γ : Scene) (i : LoopInit) :
    (i.scene T Γ).names = View.bindAll Γ.names (i.binding T) := by
  cases i with
  | declare d => exact d.names_scene Γ
  | evaluate => rfl

theorem LoopInit.names_sceneOfAll (Γ : Scene) (is : List LoopInit) :
    (sceneOfAll T Γ is).names = View.bindAll Γ.names (bindingOfAll T is) := by
  induction is generalizing Γ with
  | nil => rfl
  | cons i is ih =>
    rw [bindingOfAll, List.flatMap_cons, View.bindAll_append, ← names_scene]
    exact ih _

theorem Expr.uses_of_occurrences (Γ : Scene) (es : List Expr) :
    List.Forall₂ Occurrence.IsUse (occurrences Γ es) (usesOfAll Γ.names es) := by
  induction es with
  | nil => exact .nil
  | cons e es ih => exact .cons ⟨rfl, rfl⟩ ih

theorem VarDecl.uses_of_occurrences (Γ : Scene) (d : VarDecl) :
    List.Forall₂ Occurrence.IsUse (d.occurrences Γ) (d.uses Γ.names) := by
  unfold occurrences uses
  cases d.initializer with
  | none => exact .nil
  | some e => exact .cons ⟨rfl, rfl⟩ .nil

theorem VarDecl.uses_of_occurrencesOfAll (Γ : Scene) (ds : List VarDecl) :
    List.Forall₂ Occurrence.IsUse (occurrencesOfAll T Γ ds) (usesOfAll T Γ.names ds) := by
  induction ds generalizing Γ with
  | nil => exact .nil
  | cons d ds ih =>
    rw [occurrencesOfAll, usesOfAll, ← names_scene]
    exact List.rel_append (d.uses_of_occurrences Γ) (ih _)

theorem LoopInit.uses_of_occurrencesOfAll (Γ : Scene) (is : List LoopInit) :
    List.Forall₂ Occurrence.IsUse (occurrencesOfAll T Γ is) (usesOfAll T Γ.names is) := by
  induction is generalizing Γ with
  | nil => exact .nil
  | cons i is ih =>
    rw [occurrencesOfAll, usesOfAll, ← names_scene]
    refine List.rel_append ?_ (ih _)
    cases i with
    | declare d => exact d.uses_of_occurrences Γ
    | evaluate e => exact Expr.uses_of_occurrences Γ [e]

namespace Stmt

mutual

/-- **The expressions in a statement are its uses**, in the same order. -/
theorem uses_of_occurrences : ∀ (s : Stmt) (Γ : Scene),
    List.Forall₂ Occurrence.IsUse (s.occurrences T Γ) (s.uses T Γ.names)
  | .block _ ds body, Γ => by
    rw [occurrences, uses, ← VarDecl.names_sceneOfAll]
    exact List.rel_append (VarDecl.uses_of_occurrencesOfAll Γ ds) (uses_of_occurrencesOfAll body _)
  | .evaluation _ e, Γ => Expr.uses_of_occurrences Γ [e]
  | .write _ args _, Γ => Expr.uses_of_occurrences Γ args
  | .ifThen _ c t, Γ => List.rel_append (Expr.uses_of_occurrences Γ [c]) (uses_of_occurrences t Γ)
  | .ifElse _ c t e, Γ =>
    List.rel_append (Expr.uses_of_occurrences Γ [c])
      (List.rel_append (uses_of_occurrences t Γ) (uses_of_occurrences e Γ))
  | .forLoop _ inits c incs body, Γ => by
    unfold occurrences uses
    rw [← LoopInit.names_sceneOfAll]
    refine List.rel_append (LoopInit.uses_of_occurrencesOfAll Γ inits) ?_
    refine List.rel_append (Expr.uses_of_occurrences _ _) ?_
    exact List.rel_append (Expr.uses_of_occurrences _ incs) (uses_of_occurrences body _)
  | .break _, _ | .continue _, _ => .nil
  | .return _ v, Γ => Expr.uses_of_occurrences Γ _

/-- As `uses_of_occurrences`, for several statements. -/
theorem uses_of_occurrencesOfAll : ∀ (ss : List Stmt) (Γ : Scene),
    List.Forall₂ Occurrence.IsUse (occurrencesOfAll T Γ ss) (usesOfAll T Γ.names ss)
  | [], _ => .nil
  | s :: ss, Γ => List.rel_append (uses_of_occurrences s Γ) (uses_of_occurrencesOfAll ss Γ)

end

end Stmt

/-- **In a typed function every expression is typed in its scene.** -/
theorem Function.typed_of_mem {P : Ty → Prop} (hP : Ty.Stable P) {f : Function} {R : Ty}
    (hΓ : View.Settled P Γ.names) (h : f.Typed P T Γ.names R) {o : Occurrence}
    (ho : o ∈ f.occurrences T Γ) :
    o.expr.Typed P T o.scene.names := by
  have hbody := h.body
  have hnames := VarDecl.settled_arguments hP h.arguments hΓ
  rw [← VarDecl.names_sceneOfAll] at hbody hnames
  obtain ⟨u, hu, hexpr, hscope⟩ := exists_of_mem_left (Stmt.uses_of_occurrences f.body.stmt _) ho
  rw [hexpr, hscope]
  exact (hbody.uses hP hnames u hu).typed

end PostfixCompiler
