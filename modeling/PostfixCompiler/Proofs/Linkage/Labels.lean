import PostfixCompiler.Proofs.Linkage.Unit

/-!
# Labels of a unit

The linker has one space of names, and the labels in it come from four places: the writer makes up
labels, the program names variables and functions, the function in which the program starts has a
name that the linker looks for, and the runtime has its own names. A function that is named like the
start of the program gives way, and a variable is not moved. So two labels of a unit may be the
same; how, is what it takes to keep the names **apart**: no name looks like one that is made up, no
variable has the name that the linker looks for, no name is what a function that gives way is called
then, and no name is one of the runtime. Where names are apart, each label is placed once, and no
label that is placed is asked of another unit.

## Main definitions

* `PostfixCompiler.Instr.label?`: the label that an instruction places.
* `PostfixCompiler.Decl.Apart`: the names of a unit are apart.

## Main statements

* `PostfixCompiler.Config.labelOf_injective`: symbols whose names are apart have different labels.
* `PostfixCompiler.Decl.count_label`: a label that is not made up is placed as often as it is
  defined.
* `PostfixCompiler.labels_distinct`: where names are apart, no label is placed twice or asked of
  another unit.
* `PostfixCompiler.label_placed_twice`: a variable may have the label of a function.
-/

namespace PostfixCompiler

open Emission

/-- The label that an instruction places. -/
def Instr.label? : Instr → Option String
  | .label l => some l
  | _ => none

/-- A label is among those that are placed as often as it is placed. -/
theorem Emission.count_labels (is : List Instr) (l : String) :
    (is.filterMap Instr.label?).count l = is.count (.label l) := by
  rw [List.count_filterMap, List.count]
  refine List.countP_congr fun i _ => ?_
  cases i <;> simp [Instr.label?]

/-! ### Labels of symbols -/

namespace Config

/-- The label of a symbol: its name, except that the function in which the program starts is
renamed, and that a function gives way to it. -/
theorem labelOf_cases (c : Config) {s : Symbol}
    (hs : s.isFunction = false → s.name ≠ c.entrySymbol) :
    (c.labelOf s = s.name ∧ s.name ≠ c.entrySymbol) ∨
    (c.labelOf s = c.entrySymbol ∧ s.name = c.entryPoint) ∨
      (c.labelOf s = "." ++ c.entrySymbol ∧ s.name = c.entrySymbol) := by
  cases hf : s.isFunction with
  | false => exact .inl ⟨labelOf_variable hf, hs hf⟩
  | true =>
    rw [labelOf_function hf, functionLabel]
    by_cases hentry : s.name = c.entryPoint
    · exact .inr (.inl ⟨if_pos hentry, hentry⟩)
    · rw [if_neg hentry]
      by_cases hsymbol : s.name = c.entrySymbol
      · exact .inr (.inr ⟨by rw [if_pos hsymbol, hsymbol], hsymbol⟩)
      · exact .inl ⟨if_neg hsymbol, hsymbol⟩

/-- A name does not start with itself behind a dot. -/
theorem ne_dotted (x : String) : x ≠ "." ++ x := by
  intro h
  have hlength := congrArg String.length h
  rw [String.length_append] at hlength
  have hdot : ".".length = 1 := rfl
  omega

/-- **Symbols whose names are apart have different labels.** -/
theorem labelOf_injective {c : Config} {s u : Symbol}
    (hs : s.isFunction = false → s.name ≠ c.entrySymbol)
    (hu : u.isFunction = false → u.name ≠ c.entrySymbol) (hs' : s.name ≠ "." ++ c.entrySymbol)
    (hu' : u.name ≠ "." ++ c.entrySymbol) (h : c.labelOf s = c.labelOf u) : s.name = u.name := by
  rcases c.labelOf_cases hs with ⟨hl, hname⟩ | ⟨hl, hname⟩ | ⟨hl, hname⟩ <;>
    rcases c.labelOf_cases hu with ⟨hl', hname'⟩ | ⟨hl', hname'⟩ | ⟨hl', hname'⟩ <;>
      rw [hl, hl'] at h
  · exact h
  · exact absurd h hname
  · exact absurd h hs'
  · exact absurd h.symm hname'
  · exact hname.trans hname'.symm
  · exact absurd h (ne_dotted _)
  · exact absurd h.symm hu'
  · exact absurd h.symm (ne_dotted _)
  · exact hname.trans hname'.symm

end Config

/-! ### Names that are apart -/

namespace Decl

/-- **The names of a unit are apart**: none of them collides with a label that has another
origin. -/
structure Apart (config : Config) (ds : List Decl) : Prop where
  /-- No name looks like a label that is made up. -/
  unreserved : Unreserved config ds
  /-- No variable has the name that the linker looks for. -/
  entry : ∀ d ∈ ds, d.isFunction = false → config.entrySymbol ∉ d.names
  /-- No name is that of a function that has given way. -/
  dotted : ∀ d ∈ ds, "." ++ config.entrySymbol ∉ d.names
  /-- No name is one of the runtime. -/
  runtime : ∀ l ∈ runtimeNames, l ≠ config.entrySymbol ∧ ∀ d ∈ ds, l ∉ d.names

variable {config : Config} {ds : List Decl} {σ : SymbolTable}

section Apart

variable (h : Apart config ds) (hregistered : Registered ds (σ.view Symbol.status))
  (hname : ∀ name s, σ.scope name = some s → s.name = name)

include h hregistered hname

/-- A symbol of a unit whose names are apart is not named like a label that has another origin. -/
theorem Apart.symbol {x : String} {s : Symbol} (hs : σ.scope x = some s) :
    (s.isFunction = false → s.name ≠ config.entrySymbol) ∧ s.name ≠ "." ++ config.entrySymbol ∧
      s.name ∉ runtimeNames := by
  obtain ⟨d, hd, hmem, hkind, -⟩ := hregistered.exists_declaration hs
  rw [hname x s hs]
  exact ⟨fun hf heq => h.entry d hd (hkind.symm.trans hf) (heq ▸ hmem), fun heq =>
    h.dotted d hd (heq ▸ hmem),
    fun hruntime => (h.runtime x hruntime).2 d hd hmem⟩

/-- Symbols of a unit whose names are apart have different labels. -/
theorem Apart.eq_of_labelOf {x y : String} {s u : Symbol} (hs : σ.scope x = some s)
    (hu : σ.scope y = some u) (heq : config.labelOf s = config.labelOf u) : x = y := by
  obtain ⟨hs₁, hs₂, -⟩ := h.symbol hregistered hname hs
  obtain ⟨hu₁, hu₂, -⟩ := h.symbol hregistered hname hu
  rw [← hname x s hs, ← hname y u hu]
  exact Config.labelOf_injective hs₁ hu₁ hs₂ hu₂ heq

/-- No symbol of a unit whose names are apart has a label of the runtime. -/
theorem Apart.labelOf_notMem {x : String} {s : Symbol} (hs : σ.scope x = some s) :
    config.labelOf s ∉ runtimeNames := by
  obtain ⟨hs₁, -, hs₃⟩ := h.symbol hregistered hname hs
  intro hmem
  rcases config.labelOf_cases hs₁ with ⟨hl, -⟩ | ⟨hl, -⟩ | ⟨hl, -⟩ <;> rw [hl] at hmem
  · exact hs₃ hmem
  · exact (h.runtime _ hmem).1 rfl
  · have hdot : ∀ l ∈ runtimeNames, l.toList.head? ≠ some '.' := by decide
    refine hdot _ hmem ?_
    rw [String.toList_append]
    rfl

/-- No symbol of a unit whose names are apart has a label that looks like one that is made up. -/
theorem Apart.labelOf_ne {x : String} {s : Symbol} (hs : σ.scope x = some s) (k : Nat) :
    config.labelOf s ≠ labelName k := by
  obtain ⟨hentry, hnames⟩ := h.unreserved
  obtain ⟨d, hd, hmem, -⟩ := hregistered.exists_declaration hs
  have hreserved : ¬Reserved (config.labelOf s) :=
    not_reserved_labelOf (by rw [hname x s hs]; exact hnames d hd x hmem) hentry
  exact fun heq => hreserved (heq ▸ reserved_labelName k)

end Apart

end Decl

/-! ### How often labels are placed -/

/-- Code that places made-up labels only places no other one. -/
theorem Emission.Refers.count_eq_zero {known : String → Prop} {hs : List String} {is : List Instr}
    (h : Refers (fun _ => False) known hs is) {l : String} (hl : ∀ k, l ≠ labelName k) :
    is.count (.label l) = 0 := by
  refine List.count_eq_zero.mpr fun hmem => ?_
  rcases (h.found _ hmem).2.1 l rfl with hfalse | ⟨k, hk⟩
  · exact hfalse
  · exact hl k hk

namespace VarDecl

variable {d : VarDecl} {l : String}

theorem count_label_variable (hl : ∀ k, l ≠ labelName k) (n : Nat) (name : String) (u : Ty)
    (value : Option Expr) :
    (d.variableCode n name u value).count (.label l) = if name = l then 1 else 0 := by
  have hhead : ∀ segment, segment = .data ∨ segment = .bss →
      (d.headCode segment name).count (.label l) = if name = l then 1 else 0 := by
    rintro segment (rfl | rfl) <;> unfold headCode <;> split <;> simp [List.count_cons]
  cases value with
  | none =>
    rw [variableCode, List.count_append, hhead .bss (.inr rfl)]
    simp
  | some e =>
    have hknown : Refers (fun _ => False) (fun _ => True) [] (e.textCode n) :=
      .of_known e.within_text
    have htext : (e.textCode n).count (.label l) = 0 := hknown.count_eq_zero hl
    have himage : (e.imageCode (n + 1) u).count (.label l) = 0 :=
      (Refers.of_known e.within_image).count_eq_zero hl
    rw [variableCode, List.count_append, List.count_append, htext, himage, hhead .data (.inl rfl)]
    simp

theorem count_label_each (hl : ∀ k, l ≠ labelName k) : ∀ {names : List String} {us : List Ty}
    {values : List (Option Expr)} (n : Nat), us.length = names.length →
    values.length = names.length →
    (d.eachCode n names us values).count (.label l) = names.count l
  | [], _, _, n, _, _ => by simp [eachCode]
  | name :: names, u :: us, value :: values, n, hus, hvalues => by
    rw [eachCode, List.count_append, count_label_variable hl, List.count_cons,
      count_label_each hl _ (Nat.succ.inj hus) (Nat.succ.inj hvalues), Nat.add_comm]
    simp

/-- The label of a variable is placed as often as the variable is defined. -/
theorem count_label_lay {P : Ty → Prop} {T : TypeTable} {Γ : Names} (h : d.TypedGlobal P T Γ)
    (hl : ∀ k, l ≠ labelName k) (n : Nat) :
    (d.layCode T n).count (.label l) = (Decl.variable d).definitions.count l := by
  rw [layCode, Decl.definitions]
  split
  · rfl
  · have hglobal := h
    obtain ⟨⟨u, ⟨hu, -⟩, -, hdivides, -⟩, -⟩ := h
    obtain ⟨hstarts, -⟩ := forall₂_values hu hglobal
    have hlength := length_typesOfNames hdivides
    rw [TypeTable.typeOf_eq hu]
    exact count_label_each hl n hlength (hstarts.length_eq.symm.trans hlength)

end VarDecl

section Units

variable {nodes : Array Node} {root : NodeId} {t : SyntaxTree} {T : TypeTable} {σ : SymbolTable}
  {config : Config}
  {l : String}

/-- The label of a function is placed once in its code. -/
theorem Function.count_label {f : Function} {scope : View Symbol} {n : Nat} {known : String → Prop}
    (hbody : Refers (fun _ => False) known (f.body.stmt.helpers T)
      (f.body.stmt.outline (f.context T config) (f.entry T scope n)).code)
    (hl : ∀ k, l ≠ labelName k) :
    (f.outline T config scope n).code.count (.label l) =
      if calleeLabel config scope f.signature.name = l then 1 else 0 := by
  have hhead : (f.head T config scope).count (.label l) =
      if calleeLabel config scope f.signature.name = l then 1 else 0 := by
    unfold head
    split <;> simp [List.count_cons]
  have htail : (f.tail T).code.count (.label l) = 0 := by
    unfold tail
    split <;> simp [leaveOutline]
  simp only [outline, Outline.code_piece, Outline.code_append, Outline.code_ofCode,
    List.count_append, hhead, htail, hbody.count_eq_zero hl, Nat.add_zero]

/-- What is defined has a symbol, and no other unit has to place it. -/
theorem Registered.exists_defined {ds : List Decl} (h : Registered ds (σ.view Symbol.status))
    {name : String} (hmem : name ∈ ds.flatMap Decl.definitions) :
    ∃ s, σ.scope name = some s ∧ calleeLabel config σ.scope name = config.labelOf s ∧
    isForeign s = false := by
  obtain ⟨d, hd, hmem⟩ := List.mem_flatMap.mp hmem
  obtain ⟨st, hst, hf, hqualifier⟩ := h.known d hd name (d.definitions_subset hmem)
  rw [σ.view_status] at hst
  obtain ⟨s, hs, rfl⟩ := Option.map_eq_some_iff.mp hst
  refine ⟨s, hs, by rw [calleeLabel, hs], ?_⟩
  cases d with
  | «variable» d =>
    have hf : s.isFunction = false := hf
    have hqualifier : s.qualifier = d.qualifier := hqualifier
    rw [Decl.definitions] at hmem
    split at hmem
    · cases hmem
    · rename_i hrequire
      simp [isForeign, hf, hqualifier, hrequire]
  | declare sig => cases hmem
  | define f =>
    rw [h.isForeign_function hs hf, Bool.not_eq_false']
    exact (h.defined_iff hs hf).mpr ⟨f, hd, (List.mem_singleton.mp hmem).symm⟩

/-- The label of a variable of the unit is its name. -/
theorem Registered.calleeLabel_eq {ds : List Decl} (h : Registered ds (σ.view Symbol.status))
    (hname : ∀ name s, σ.scope name = some s → s.name = name) {d : VarDecl} (hd : .variable d ∈ ds)
    {name : String} (hmem : name ∈ d.names) : calleeLabel config σ.scope name = name := by
  obtain ⟨st, hst, hf, -⟩ := h.known _ hd name hmem
  rw [σ.view_status] at hst
  obtain ⟨s, hs, rfl⟩ := Option.map_eq_some_iff.mp hst
  rw [calleeLabel, hs]
  exact (Config.labelOf_variable hf).trans (hname name s hs)

/-- **A label that is not made up is placed as often as it is defined.** -/
theorem Decl.count_label (h : SyntaxTree.ofNodes nodes root = .ok t)
    (hcheck : Typing.checkTree t = .ok (T, σ)) (hl : ∀ k, l ≠ labelName k) {ds : List Decl}
    (hds : ds ⊆ t.declarations) (n : Nat) :
    (outlineOfAll T config σ.scope n ds).code.count (.label l) =
      ((ds.flatMap definitions).map (calleeLabel config σ.scope)).count l := by
  have haccepted := SyntaxTree.accepted h hcheck
  have hregistered := SyntaxTree.registered h hcheck
  have hname : ∀ name s, σ.scope name = some s → s.name = name :=
    fun _ _ => haccepted.closed.name_eq
  induction ds generalizing n with
  | nil => rfl
  | cons d ds ih =>
    rw [List.cons_subset] at hds
    rw [outlineOfAll, Outline.code_append, List.count_append, ih hds.2, List.flatMap_cons,
      List.map_append, List.count_append]
    congr 1
    cases d with
    | «variable» d =>
      have hnames : (Decl.variable d).definitions.map (calleeLabel config σ.scope) =
          (Decl.variable d).definitions := by
        refine (List.map_congr_left fun name hmem => ?_).trans (List.map_id _)
        exact hregistered.calleeLabel_eq hname hds.1 (Decl.definitions_subset _ hmem)
      rw [outline, Outline.code_ofCode, hnames]
      exact VarDecl.count_label_lay (haccepted.typed _ hds.1) hl n
    | declare sig => rfl
    | define f =>
      have hknows : f.Knows (fun _ => True) T config σ :=
        ⟨fun _ _ => trivial, fun _ _ _ _ _ => trivial⟩
      rw [outline,
        f.count_label (f.refers_body h hcheck Ty.stable_known haccepted hds.1 hknows n) hl]
      simp [definitions, List.count_cons]

/-- What the code of an accepted unit places, if nothing is asked of the labels that it names. -/
theorem SyntaxTree.refers_anything (config : Config) (h : SyntaxTree.ofNodes nodes root = .ok t)
    (hcheck : Typing.checkTree t = .ok (T, σ)) :
    Refers (fun _ => True) (fun _ => True) (Decl.helpersOfAll T t.declarations)
      (Decl.outlineOfAll T config σ.scope 0 t.declarations).code :=
  SyntaxTree.refers h hcheck Ty.stable_known (SyntaxTree.accepted h hcheck)
    fun _ _ => ⟨fun _ _ => trivial, fun _ _ _ _ _ => trivial⟩

/-- **Where names are apart, no label is placed twice.** -/
theorem Decl.Apart.count_le_one (hapart : Apart config t.declarations)
    (h : SyntaxTree.ofNodes nodes root = .ok t)
    (hcheck : Typing.checkTree t = .ok (T, σ)) (l : String) :
    (outlineOfAll T config σ.scope 0 t.declarations).code.count (.label l) ≤ 1 := by
  have haccepted := SyntaxTree.accepted h hcheck
  have hregistered := SyntaxTree.registered h hcheck
  have hname : ∀ name s, σ.scope name = some s → s.name = name :=
    fun _ _ => haccepted.closed.name_eq
  by_cases hl : ∃ k, l = labelName k
  · obtain ⟨k, rfl⟩ := hl
    refine ((makes_outlineOfAll hname hapart.unreserved 0).count_le k).trans ?_
    split <;> decide
  · rw [count_label h hcheck (fun k hk => hl ⟨k, hk⟩) (List.Subset.refl _)]
    -- No name is defined twice, and different names have different labels.
    refine List.nodup_iff_count_le_one.mp (hregistered.nodup.map_on fun x hx y hy heq => ?_) l
    obtain ⟨s, hs, hlabel, -⟩ := hregistered.exists_defined hx
    obtain ⟨u, hu, hlabel', -⟩ := hregistered.exists_defined hy
    exact hapart.eq_of_labelOf hregistered hname hs hu (hlabel.symm.trans (heq.trans hlabel'))

/-- **Where names are apart, no label that is placed is asked of another unit.** -/
theorem Decl.Apart.notMem_externs (hapart : Apart config t.declarations)
    (h : SyntaxTree.ofNodes nodes root = .ok t) (hcheck : Typing.checkTree t = .ok (T, σ))
    (hl : .label l ∈ (outlineOfAll T config σ.scope 0 t.declarations).code) :
    l ∉ externs T config σ t.declarations := by
  have haccepted := SyntaxTree.accepted h hcheck
  have hregistered := SyntaxTree.registered h hcheck
  have hname : ∀ name s, σ.scope name = some s → s.name = name :=
    fun _ _ => haccepted.closed.name_eq
  have hruntime := (SyntaxTree.refers_anything config h hcheck).runtime
  rw [mem_externs haccepted hregistered (SyntaxTree.nodup_global hcheck),
    hregistered.outside_iff hname]
  intro hexterns
  by_cases hmade : ∃ k, l = labelName k
  · obtain ⟨k, rfl⟩ := hmade
    rcases hexterns with hhelper | ⟨name, s, hs, -, heq⟩
    · have hnone : ∀ l ∈ runtimeNames, ¬Reserved l := by decide
      exact hnone _ (hruntime _ hhelper) (reserved_labelName k)
    · exact hapart.labelOf_ne hregistered hname hs k heq
  · rw [← List.count_pos_iff, count_label h hcheck (fun k hk => hmade ⟨k, hk⟩) (List.Subset.refl _),
      List.count_pos_iff] at hl
    obtain ⟨x, hx, rfl⟩ := List.mem_map.mp hl
    obtain ⟨u, hu, hlabel, hhere⟩ := hregistered.exists_defined hx
    rw [hlabel] at hexterns
    rcases hexterns with hhelper | ⟨name, s, hs, hforeign, heq⟩
    · exact hapart.labelOf_notMem hregistered hname hu (hruntime _ hhelper)
    · obtain rfl := hapart.eq_of_labelOf hregistered hname hs hu heq
      cases hs.symm.trans hu
      cases hhere.symm.trans hforeign

/-- Labels that are asked for are not placed thereby. -/
theorem Emission.count_label_externs (is : List Instr) (externs : List String) (l : String) :
    (is ++ externs.map Instr.external).count (Instr.label l) = is.count (Instr.label l) := by
  have hnone : (externs.map Instr.external).count (Instr.label l) = 0 :=
    List.count_eq_zero.mpr (by simp)
  rw [List.count_append, hnone, Nat.add_zero]

/-- **Where names are apart, each label of a unit is placed once**, and none that is placed is asked
of another unit. -/
theorem labels_distinct (h : SyntaxTree.ofNodes nodes root = .ok t)
    (hcheck : Typing.checkTree t = .ok (T, σ)) (config : Config)
    (hapart : Decl.Apart config t.declarations) :
    ∃ c, compile t config = .ok c ∧ (c.code.filterMap Instr.label?).Nodup ∧
      ∀ l ∈ c.code.filterMap Instr.label?, .external l ∉ c.code := by
  refine ⟨_, SyntaxTree.compile_eq h hcheck config, ?_, fun l hl hasked => ?_⟩
  · refine List.nodup_iff_count_le_one.mpr fun l => ?_
    rw [count_labels, count_label_externs]
    exact hapart.count_le_one h hcheck l
  · rw [← List.count_pos_iff, count_labels, count_label_externs, List.count_pos_iff] at hl
    rcases List.mem_append.mp hasked with hasked | hasked
    · exact ((SyntaxTree.refers_anything config h hcheck).found _ hasked).2.2 l rfl
    · obtain ⟨l', hl', heq⟩ := List.mem_map.mp hasked
      cases heq
      exact hapart.notMem_externs h hcheck hl hl'

theorem labels_distinct_sample : ∃ t T σ f c, SyntaxTree.ofNodes sampleNodes (.ofIndex 21) = .ok t ∧
    Typing.checkTree t = .ok (T, σ) ∧ t.declarations = [.define f] ∧
    Decl.Apart .default t.declarations ∧
    compile t .default = .ok c ∧ (c.code.filterMap Instr.label?).Nodup := by
  obtain ⟨t, T, σ, f, h, hcheck, hf, -, hunreserved⟩ := exists_sample_function
  have hok : (SyntaxTree.ofNodes sampleNodes (.ofIndex 21)).toOption.any (fun t =>
      decide ((∀ d ∈ t.declarations, d.isFunction = false → Config.default.entrySymbol ∉ d.names) ∧
        (∀ d ∈ t.declarations, "." ++ Config.default.entrySymbol ∉ d.names) ∧
        ∀ l ∈ runtimeNames, l ≠ Config.default.entrySymbol ∧ ∀ d ∈ t.declarations,
        l ∉ d.names)) = true := by
    decide +kernel
  rw [h] at hok
  obtain ⟨hentry, hdotted, hruntime⟩ := of_decide_eq_true hok
  have hapart : Decl.Apart .default t.declarations := ⟨hunreserved, hentry, hdotted, hruntime⟩
  obtain ⟨c, hc, hnodup, -⟩ := labels_distinct h hcheck .default hapart
  exact ⟨t, T, σ, f, c, h, hcheck, hf, hapart, hc, hnodup⟩

/-- The nodes of a unit with a variable that has the name which the linker looks for, and the
function in which the program starts. -/
def clashNodes : Array Node := #[
  ⟨1, .variableDeclaration .private .int ["_main"] none⟩, ⟨2, .integer 0⟩,
  ⟨2, .return (some (.ofIndex 1))⟩,
  ⟨2, .block [] [.ofIndex 2]⟩, ⟨2, .functionDefinition .public .int "og" [] (.ofIndex 3)⟩,
  ⟨1, .program [.ofIndex 0, .ofIndex 4]⟩]

/-- **A variable may have the label of a function**: it does not give way to the function in which
the program starts. -/
theorem label_placed_twice : ∃ t T σ c, SyntaxTree.ofNodes clashNodes (.ofIndex 5) = .ok t ∧
    Typing.checkTree t = .ok (T, σ) ∧ compile t .default = .ok c ∧
    ¬(c.code.filterMap Instr.label?).Nodup := by
  have hok : (SyntaxTree.ofNodes clashNodes (.ofIndex 5)).toOption.any (fun t =>
      (Typing.checkTree t).toOption.any fun r =>
        decide ((Decl.outlineOfAll r.1 .default r.2.scope 0 t.declarations).code.count
          (.label "_main") = 2)) = true := by
    decide +kernel
  obtain ⟨t, h, hok⟩ := any_toOption.mp hok
  obtain ⟨⟨T, σ⟩, hcheck, hok⟩ := any_toOption.mp hok
  refine ⟨t, T, σ, _, h, hcheck, SyntaxTree.compile_eq h hcheck .default, fun hnodup => ?_⟩
  have htwice := List.nodup_iff_count_le_one.mp hnodup "_main"
  rw [count_labels, count_label_externs, of_decide_eq_true hok] at htwice
  exact absurd htwice (by decide)

end Units

end PostfixCompiler
