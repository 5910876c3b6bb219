import PostfixCompiler.Proofs.Scope.Checked
import PostfixCompiler.Proofs.Typing.Globals

/-!
# The variables of a checked unit

A variable of the unit is found under its name from its declaration on: no later declaration may
take the name, and only functions change behind their declaration. So in the table that the check of
the unit leaves, each name of a declaration stands for a variable, and its type is the part of the
declared type that belongs to the name. A variable that another unit has to lay down is given no
initial value.

## Main definitions

* `PostfixCompiler.VarDecl.Owned`: the variables of a declaration are known.

## Main statements

* `PostfixCompiler.Typing.owned_of_checkTree`: so they are behind the check of a unit.
-/

namespace PostfixCompiler

open Typing

namespace VarDecl

/-- **The variables of a declaration of the unit are known**: each name stands for a variable of its
type. What has an initial value is laid down in this unit. -/
structure Owned (T : TypeTable) (Γ : Names) (d : VarDecl) : Prop where
  /-- Only what is laid down in this unit has an initial value. -/
  own : d.initializer.isSome = true → d.qualifier ≠ .require
  /-- The names are known. -/
  names : ∀ b ∈ d.binding T, Γ b.1 = some (.variable b.2)

variable {P : Ty → Prop} {T U : TypeTable} {Γ Δ : Names} {s : State} {d : VarDecl}

theorem Owned.mono (hΓ : Γ.Le Δ) (hT : T.Agrees U d.ids) (htyped : d.Typed P T Γ)
    (h : d.Owned T Γ) :
    d.Owned U Δ := by
  refine ⟨h.own, fun b hb => hΓ _ _ (h.names b ?_)⟩
  rwa [← htyped.binding_eq hT]

/-- Outside of all scopes names are known as soon as they are bound. -/
theorem ends_declareEach_names (hP : Ty.Stable P) (d : VarDecl) {bs : List (String × Ty)}
    (hs : Good P s) (hl : s.symbols.locals = []) (hbs : ∀ b ∈ bs, Ty.Storable P b.2) :
    Ends (d.declareEach bs) s fun _ s' => ∀ b ∈ bs,
    s'.symbols.names b.1 = some (.variable b.2) := by
  induction bs generalizing s with
  | nil => exact ends_pure.mpr fun b hb => absurd hb List.not_mem_nil
  | cons b bs ih =>
    rw [List.forall_mem_cons] at hbs
    simp only [declareEach, ends_bind, ends_get, ends_require, ends_define]
    intro hfree
    have hsym : Symbol.Settled P
        { Symbol.ofVariable b.1 d.qualifier b.2 d.line with
          isAuto := d.type = .auto, defined := d.initializer.isSome } :=
      ⟨hbs.1, .inr (hP.of_storable hbs.1), rfl⟩
    have hparameters : ({ Symbol.ofVariable b.1 d.qualifier b.2 d.line with
      isAuto := d.type = .auto, defined :=
        d.initializer.isSome } : Symbol).parameters? = none := rfl
    have hbinds := binds_define hs.closed hparameters hfree
    have hl' := (hbinds.global hl).1
    refine ((ih (hs.define hsym) hl' hbs.2).and (ends_declareEach hP d (hs.define hsym) hbs.2)).mono
      fun _ s' h => ?_
    obtain ⟨hrest, hlater, -⟩ := h
    refine List.forall_mem_cons.mpr ⟨(hlater.global hl').2 _ _ ?_, hrest⟩
    rw [hbinds.names]
    exact View.bind_self _ _ _

/-- What another unit has to lay down is given no initial value. -/
theorem own_of_check {s' : State} (h : d.check s = .ok () s') :
    d.initializer.isSome = true → d.qualifier ≠ .require := by
  obtain ⟨_, _, hget, h⟩ := exists_of_bind h
  cases hget
  obtain ⟨_, _, hform, -⟩ := exists_of_bind h
  unfold checkForm at hform
  obtain ⟨hrequired, -⟩ := require_bind_eq_ok_iff.mp hform
  intro hinit hq
  simp [hinit, hq] at hrequired

/-- **The check of a declaration of the unit makes its variables known.** -/
theorem ends_owned (hP : Ty.Stable P) (hs : Good P s) (hl : s.symbols.locals = [])
    (hr : Ready d.ids s) (hw : d.WellPlaced) (hwritten : d.type.containsAuto = false → P d.type) :
    Ends d.check s fun _ s' => d.Owned s'.types s'.symbols.names := by
  have hnames : Ends d.check s fun _ s' => ∀ b ∈ d.binding s'.types,
      s'.symbols.names b.1 = some (.variable b.2) := by
    obtain ⟨-, -, hinit⟩ := ready_cons.mp hr
    simp only [check, ends_bind, ends_get]
    refine ends_checkForm hw fun hknown hnone => ?_
    refine (ends_declaredType hP hs hinit hw (hknown.imp_right hwritten) hnone).mono
      fun t s₁ h => ?_
    simp only [ends_require]
    intro hk hv
    have hp : P t := h.settled (by simpa using hk)
    have hstorable : ∀ b ∈ d.names.zip (d.typesOfNames t), Ty.Storable P b.2 := fun b hb =>
      storable_typesOfNames hP hp (by simpa using hv) b.2
        (List.of_mem_zip (a := b.1) (b := b.2) hb).2
    refine (ends_declareEach_names hP d (hs.fills h.fills) ?_ hstorable).mono fun _ s₂ h₂ => ?_
    · rw [h.fills.symbols]
      exact hl
    · rw [ends_setType, binding_eq (State.get?_record_self s₂ d.id t)]
      exact h₂
  exact (Ends.ok hnames).mono fun _ s' h => ⟨own_of_check h.2, h.1⟩

end VarDecl

namespace Typing

variable {P : Ty → Prop}

/-- **Behind the check of declarations all variables among them are known.** -/
theorem ends_checkDecls_owned (hP : Ty.Stable P) {ds : List Decl} {s : State} (hs : Good P s)
    (hl : s.symbols.locals = []) (hr : Ready (Decl.idsOfAll ds) s) (hw : ∀ d ∈ ds, d.WellPlaced)
    (ht : ∀ d ∈ ds, ∀ t ∈ d.writtenTypes, Written P t) :
    Ends (checkDecls ds) s fun _ s' => ∀ d, Decl.variable d ∈ ds →
    d.Owned s'.types s'.symbols.names := by
  induction ds generalizing s with
  | nil => exact ends_pure.mpr fun d hd => absurd hd List.not_mem_nil
  | cons d ds ih =>
    obtain ⟨hd, hds, hdis⟩ := ready_append.mp hr
    rw [List.forall_mem_cons] at hw ht
    simp only [checkDecls, ends_bind]
    have howned : Ends d.check s fun _ s' => ∀ v, d = .variable v →
        v.Owned s'.types s'.symbols.names := by
      cases d with
      | «variable» d =>
        refine (VarDecl.ends_owned hP hs hl hd hw.1 (ht.1 d.type List.mem_cons_self)).mono
          fun _ s' h v hv => ?_
        cases hv
        exact h
      | declare sig =>
          exact (Decl.ends_check hP hs hl hd hw.1 ht.1).mono fun _ _ _ v hv => by cases hv
      | define f => exact (Decl.ends_check hP hs hl hd hw.1 ht.1).mono fun _ _ _ v hv => by cases hv
    refine ((Decl.ends_check hP hs hl hd hw.1 ht.1).and howned).mono fun _ s₁ h₁ => ?_
    obtain ⟨⟨hmoves₁, hgood₁, htyped₁⟩, howned₁⟩ := h₁
    have hl₁ := hmoves₁.symbols.locals hl
    have hr₁ := hmoves₁.ready hds hdis
    refine ((ends_checkDecls hP hgood₁ hl₁ hr₁ hw.2 ht.2).and (ih hgood₁ hl₁ hr₁ hw.2 ht.2)).mono
      fun _ s₂ h₂ v hv => ?_
    obtain ⟨⟨hmoves₂, -⟩, hrest⟩ := h₂
    rcases List.mem_cons.mp hv with rfl | hv
    · exact (howned₁ v rfl).mono hmoves₂.symbols.names (hmoves₂.agrees hdis) htyped₁.1
    · exact hrest v hv

/-- **The variables of an accepted unit are known** under their names. -/
theorem owned_of_checkTree (hP : Ty.Stable P) {nodes : Array Node} {root : NodeId} {t : SyntaxTree}
    (h : SyntaxTree.ofNodes nodes root = .ok t)
    (ht : ∀ d ∈ t.declarations, ∀ u ∈ d.writtenTypes, Written P u) {T : TypeTable} {σ : SymbolTable}
    (hcheck : checkTree t = .ok (T, σ)) {d : VarDecl} (hd : Decl.variable d ∈ t.declarations) :
    d.Owned T σ.names := by
  have hends :=
    ends_checkDecls_owned hP (good_start _) rfl (ready_start h) (SyntaxTree.wellPlaced h) ht
  obtain ⟨s, rfl, rfl, howned⟩ := (checkTree_of_ends hends).1 T σ hcheck
  exact howned d hd

end Typing

end PostfixCompiler
