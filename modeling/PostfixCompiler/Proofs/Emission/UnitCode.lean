import PostfixCompiler.Compile
import PostfixCompiler.Proofs.Emission.FunctionCode
import PostfixCompiler.Proofs.Emission.StaticCode
import PostfixCompiler.Proofs.Typing.CheckUnit

/-!
# Accepted units compile

The declarations of an accepted unit are written one after the other, each without a fault. So the
code of the unit is that of its outline, with the labels behind it that other units have to place.

## Main definitions

* `PostfixCompiler.Decl.outline`, `PostfixCompiler.Decl.outlineOfAll`: the outline of declarations.
* `PostfixCompiler.Decl.externs`: the labels that other units have to place.

## Main statements

* `PostfixCompiler.Typing.Accepted.compile_eq`, `PostfixCompiler.compile_of_checked`: the code of an
  accepted unit is that of its outline.
* `PostfixCompiler.no_internal_fault`: a check ends with an answer or blames the program, and what
  is checked can be compiled.
-/

namespace PostfixCompiler

open Emission

/-! ### Declarations -/

namespace Decl

/-- The outline of a declaration of the unit, if `n` labels were made up before. -/
def outline (T : TypeTable) (config : Config) (scope : View Symbol) (n : Nat) : Decl → Outline
  | .variable d => .ofCode (d.layCode T n)
  | .declare _ => .done
  | .define f => f.outline T config scope n

/-- How many labels the code of a declaration makes up. -/
def labelCount : Decl → Nat
  | .variable d => d.layLabels
  | .declare _ => 0
  | .define f => f.body.stmt.labelCount

/-- **The outline of declarations**, one after the other. -/
def outlineOfAll (T : TypeTable) (config : Config) (scope : View Symbol) (n : Nat) :
    List Decl → Outline
  | [] => .done
  | d :: ds => d.outline T config scope n ++ outlineOfAll T config scope (n + d.labelCount) ds

/-- How many labels the code of declarations makes up. -/
def labelCountOfAll : List Decl → Nat
  | [] => 0
  | d :: ds => d.labelCount + labelCountOfAll ds

/-- **The labels that other units have to place**: of the functions of the runtime that are called,
and of the symbols that are declared and not placed. -/
def externs (T : TypeTable) (config : Config) (σ : SymbolTable) (ds : List Decl) : List String :=
  sortedNames (helpersOfAll T ds ++ (σ.globals.filter isForeign).map config.labelOf)

/-- The frames of the functions among declarations. -/
def frames (T : TypeTable) : List Decl → List FrameLayout
  | [] => []
  | .define f :: ds => f.frame T :: frames T ds
  | .variable _ :: ds | .declare _ :: ds => frames T ds

end Decl

namespace Emission

variable {P : Ty → Prop} {T : TypeTable} {config : Config} {s : State}

theorem Adds.refl (s : State) : Adds [] 0 [] s s :=
  ⟨closes_refl _, (List.append_nil _).symm, rfl, by simp⟩

theorem Adds.trans {is js : List Instr} {k l : Nat} {called more : List String} {s' s'' : State}
    (h : Adds is k called s s') (h' : Adds js l more s' s'') :
    Adds (is ++ js) (k + l) (called ++ more) s s'' :=
  ⟨h.symbols.trans h'.symbols, by rw [h'.code, h.code, List.append_assoc],
    by rw [h'.labels, h.labels, Nat.add_assoc],
    fun name => by rw [h'.helpers, h.helpers, List.mem_append, or_assoc]⟩

theorem Adds.scope {is : List Instr} {k : Nat} {called : List String} {s' : State}
    (h : Adds is k called s s') (hs : s.symbols.Closed) :
    s'.symbols.scope = s.symbols.scope :=
  h.symbols.view_eq hs fun _ _ h => h ▸ rfl

theorem Pushed.adds {is : List Instr} {k : Nat} {used : Supplies} {s' : State}
    (h : Pushed is k used s s') : Adds is k used.helpers s s' :=
  ⟨h.symbols ▸ closes_refl _, h.code, h.labels, h.helpers⟩

/-- **Typed declarations are written without a fault, and their code is that of their outline.** -/
theorem puts_codeDecls (hP : Ty.Stable P) {ds : List Decl} (hs : s.symbols.Closed)
    (hΓ : View.Settled P s.symbols.names) (h : ∀ d ∈ ds, d.Typed P T s.symbols.names)
    (hw : ∀ d ∈ ds, d.WellPlaced) :
    Puts (codeDecls T config ds) s fun frames s' => frames = Decl.frames T ds ∧
      Adds (Decl.outlineOfAll T config s.symbols.scope s.labels ds).code (Decl.labelCountOfAll ds)
        (Decl.helpersOfAll T ds) s s' := by
  induction ds generalizing s with
  | nil =>
    rw [codeDecls, puts_pure]
    exact ⟨rfl, .refl s⟩
  | cons d ds ih =>
    rw [List.forall_mem_cons] at h hw
    have hrest : ∀ {is : List Instr} {k : Nat} {called : List String} {s₁ : State},
        Adds is k called s s₁ →
        Puts (codeDecls T config ds) s₁ fun frames s' => frames = Decl.frames T ds ∧
          Adds (is ++ (Decl.outlineOfAll T config s.symbols.scope (s.labels + k) ds).code)
            (k + Decl.labelCountOfAll ds) (called ++ Decl.helpersOfAll T ds) s s' := by
      intro is k called s₁ h₁
      have hscope := h₁.scope hs
      have hnames : s₁.symbols.names = s.symbols.names := by
        rw [SymbolTable.names_eq, SymbolTable.names_eq, hscope]
      refine (ih (h₁.symbols.closed hs) (hnames ▸ hΓ) (hnames ▸ h.2) hw.2).mono
        fun frames s₂ h₂ => ?_
      obtain ⟨rfl, h₂⟩ := h₂
      rw [hscope, h₁.labels] at h₂
      exact ⟨rfl, h₁.trans h₂⟩
    cases d with
    | «variable» d =>
      rw [codeDecls, puts_bind]
      refine VarDecl.puts_lay h.1 fun s₁ h₁ => (hrest h₁.adds).mono fun frames s₂ h₂ => ?_
      simpa [Decl.frames, Decl.outlineOfAll, Decl.outline, Decl.labelCountOfAll, Decl.labelCount,
        Decl.helpersOfAll, Decl.helpers] using h₂
    | declare sig =>
      rw [codeDecls]
      refine (hrest (.refl s)).mono fun frames s₂ h₂ => ?_
      simpa [Decl.frames, Decl.outlineOfAll, Decl.outline, Decl.labelCountOfAll, Decl.labelCount,
        Decl.helpersOfAll, Decl.helpers] using h₂
    | define f =>
      obtain ⟨R, hf⟩ := h.1
      rw [codeDecls, puts_bind]
      refine (Function.puts_code hP hs hΓ hf hw.1).mono fun frame s₁ h₁ => ?_
      obtain ⟨rfl, -, h₁⟩ := h₁
      rw [puts_bind]
      refine (hrest h₁).mono fun frames s₂ h₂ => ?_
      obtain ⟨rfl, h₂⟩ := h₂
      rw [puts_pure]
      simpa [Decl.frames, Decl.outlineOfAll, Decl.outline, Decl.labelCountOfAll, Decl.labelCount,
        Decl.helpersOfAll, Decl.helpers] using h₂

end Emission

/-! ### Units -/

/-- Work that leaves all symbols as they were leaves those of the unit as they were. -/
theorem Emission.Closes.globals_eq {t u : SymbolTable} (h : Closes t u) (ht : t.Closed) :
    u.globals = t.globals := by
  rw [SymbolTable.globals, SymbolTable.globals, h.global]
  refine List.filterMap_congr fun b hb => ?_
  have hmem : b ∈ t.global := List.mem_mergeSort.mp hb
  obtain ⟨s, hs, -⟩ := ht t.global (by simp [SymbolTable.scopes]) b hmem
  obtain ⟨s', hs', rfl⟩ := h.keeps b.2 s hs
  rw [hs, hs']

namespace Typing

variable {P : Ty → Prop} {ds : List Decl} {T : TypeTable} {σ : SymbolTable}

/-- **The code of an accepted unit is that of its outline**, and behind it stand the labels that
other units have to place. -/
theorem Accepted.compile_eq (hP : Ty.Stable P) (h : Accepted P ds T σ) (hw : ∀ d ∈ ds, d.WellPlaced)
    (config : Config) : codeUnit T σ config ds = ⟨.ok (Decl.frames T ds),
      (Decl.outlineOfAll T config σ.scope 0 ds).code ++
        (Decl.externs T config σ ds).map .external⟩ := by
  have hputs : Puts (codeProgram T config ds) (.start σ) fun frames s' =>
      frames = Decl.frames T ds ∧ s'.code.toList =
        (Decl.outlineOfAll T config σ.scope 0 ds).code ++
          (Decl.externs T config σ ds).map .external := by
    rw [codeProgram, puts_bind]
    refine (puts_codeDecls hP h.closed h.names h.typed hw).mono fun frames s₁ h₁ => ?_
    obtain ⟨rfl, h₁⟩ := h₁
    simp only [puts_bind, puts_get, puts_emitAll, puts_pure]
    have hexterns : foreignLabels config s₁ = Decl.externs T config σ ds := by
      rw [foreignLabels, h₁.symbols.globals_eq h.closed]
      refine sortedNames_congr fun name => ?_
      have hnone : name ∉ (Emission.State.start σ).helpers := List.not_mem_nil
      rw [List.mem_append, List.mem_append, h₁.helpers, or_iff_right hnone]
      rfl
    refine ⟨trivial, ?_⟩
    rw [State.write, h₁.code, hexterns]
    rfl
  obtain ⟨frames, s', hs', rfl, hcode⟩ := hputs.exists_ok
  simp only [codeUnit, hs', hcode]

end Typing

/-- **What is checked is compiled**: to the code of the outline of the unit, with the labels behind
it that other units have to place, and to the frames of its functions. -/
theorem compile_of_checked {P : Ty → Prop} (hP : Ty.Stable P) {nodes : Array Node} {root : NodeId}
    {t : SyntaxTree} (h : SyntaxTree.ofNodes nodes root = .ok t)
    (ht : ∀ d ∈ t.declarations, ∀ u ∈ d.writtenTypes, Typing.Written P u) {T : TypeTable}
    {σ : SymbolTable} (hcheck : Typing.checkTree t = .ok (T, σ)) (config : Config) :
    compile t config =
      .ok ⟨(Decl.outlineOfAll T config σ.scope 0 t.declarations).code ++
        (Decl.externs T config σ t.declarations).map .external, Decl.frames T t.declarations⟩ := by
  have haccepted := (Typing.checkTree_outcome hP h ht).1 T σ hcheck
  have hcode := haccepted.compile_eq hP (SyntaxTree.wellPlaced h) config
  rw [compile, hcheck]
  change (do
    let frames ← (codeUnit T σ config t.declarations).frames
    pure (Compilation.mk (codeUnit T σ config t.declarations).code frames)) = _
  rw [hcode]
  rfl

/-- What is checked can be compiled, and the code is that of the outline of the unit. -/
theorem exists_compile {P : Ty → Prop} (hP : Ty.Stable P) {nodes : Array Node} {root : NodeId}
    {t : SyntaxTree} (h : SyntaxTree.ofNodes nodes root = .ok t)
    (ht : ∀ d ∈ t.declarations, ∀ u ∈ d.writtenTypes, Typing.Written P u) {T : TypeTable}
    {σ : SymbolTable} (hcheck : Typing.checkTree t = .ok (T, σ)) (config : Config) :
    ∃ externs : List String, compile t config =
      .ok ⟨(Decl.outlineOfAll T config σ.scope 0 t.declarations).code ++ externs.map .external,
        Decl.frames T t.declarations⟩ :=
  ⟨_, compile_of_checked hP h ht hcheck config⟩

/-- **No fault is internal.** The check of a tree ends with an answer or blames the program. What is
checked can be compiled; and when the code of a function is written behind that of the declarations
before it, the slots that are used are those that its frame has. -/
theorem no_internal_fault {nodes : Array Node} {root : NodeId} {t : SyntaxTree}
    (h : SyntaxTree.ofNodes nodes root = .ok t) (config : Config) :
    (∀ e, Typing.checkTree t = .error e → e.BlamesProgram) ∧
      ∀ T σ, Typing.checkTree t = .ok (T, σ) →
        (∃ c, compile t config = .ok c) ∧
          ∀ before f after, t.declarations = before ++ Decl.define f :: after →
            ∃ frames s frame s', codeDecls T config before (.start σ) = .ok frames s ∧
              f.code T config s = .ok frame s' ∧ f.layout T = .ok frame ∧
                ∀ id, id ∈ s'.slots ↔ id ∈ frame.slots.map Slot.node := by
  have hwritten : ∀ d ∈ t.declarations, ∀ u ∈ d.writtenTypes,
      Typing.Written (fun t => t.containsAuto = false) u := fun _ _ _ _ hu => hu
  obtain ⟨hok, herror⟩ := Typing.checkTree_outcome Ty.stable_known h hwritten
  refine ⟨herror, fun T σ hcheck => ⟨?_, ?_⟩⟩
  · obtain ⟨externs, hcompile⟩ := exists_compile Ty.stable_known h hwritten hcheck config
    exact ⟨_, hcompile⟩
  · intro before f after hds
    have haccepted := hok T σ hcheck
    have htyped := haccepted.typed
    have hplaced := SyntaxTree.wellPlaced h
    rw [hds, List.forall_mem_append, List.forall_mem_cons] at htyped hplaced
    have hbefore : Puts (codeDecls T config before) (.start σ) fun frames s =>
        frames = Decl.frames T before ∧
        Adds (Decl.outlineOfAll T config σ.scope 0 before).code (Decl.labelCountOfAll before)
          (Decl.helpersOfAll T before) (.start σ) s :=
      puts_codeDecls Ty.stable_known haccepted.closed haccepted.names htyped.1 hplaced.1
    obtain ⟨frames, s, hs, -, hadds⟩ := hbefore.exists_ok
    have hnames : s.symbols.names = σ.names := by
      rw [SymbolTable.names_eq, SymbolTable.names_eq, hadds.scope haccepted.closed]
      rfl
    obtain ⟨R, hR⟩ := htyped.2.1
    obtain ⟨frame, s', hs', rfl, hslots, -⟩ := (Function.puts_code Ty.stable_known
      (hadds.symbols.closed haccepted.closed) (hnames ▸ haccepted.names) (hnames ▸ hR)
      hplaced.2.1).exists_ok
    exact ⟨frames, s, _, s', hs, hs', Function.layout_eq hR, hslots⟩

/-- The nodes of a unit with a loop that ends early and with a tuple one component of which is
widened. -/
def sampleNodes : Array Node := #[
  ⟨1, .variableDeclaration .private .int ["x"] none⟩,
  ⟨2, .variable "x"⟩, ⟨2, .rvalue (.ofIndex 1)⟩, ⟨2, .integer 1⟩,
  ⟨2, .tuple [.ofIndex 2, .ofIndex 3]⟩,
  ⟨2, .variableDeclaration .private (.tuple [.int, .double]) ["t"] (some (.ofIndex 4))⟩,
  ⟨3, .variable "x"⟩, ⟨3, .rvalue (.ofIndex 6)⟩, ⟨3, .integer 3⟩,
  ⟨3, .binary .gt (.ofIndex 7) (.ofIndex 8)⟩, ⟨3, .break⟩, ⟨3, .ifThen (.ofIndex 9) (.ofIndex 10)⟩,
  ⟨3, .variable "x"⟩, ⟨3, .rvalue (.ofIndex 12)⟩, ⟨3, .forLoop [] none [.ofIndex 13] (.ofIndex 11)⟩,
  ⟨4, .variable "t"⟩, ⟨4, .tupleIndex (.ofIndex 15) 1⟩, ⟨4, .rvalue (.ofIndex 16)⟩,
  ⟨4, .return (some (.ofIndex 17))⟩, ⟨2, .block [.ofIndex 5] [.ofIndex 14, .ofIndex 18]⟩,
  ⟨1, .functionDefinition .public .int "f" [.ofIndex 0] (.ofIndex 19)⟩, ⟨1, .program [.ofIndex 20]⟩]

/-- The sample is a tree, and its check ends with an answer. -/
theorem exists_sample : ∃ t T σ, SyntaxTree.ofNodes sampleNodes (.ofIndex 21) = .ok t ∧
    Typing.checkTree t = .ok (T, σ) := by
  have hok : (SyntaxTree.ofNodes sampleNodes (.ofIndex 21)).toOption.any
      (fun t => (Typing.checkTree t).toOption.any fun _ => true) = true := by
    decide +kernel
  obtain ⟨t, ht, hok⟩ := any_toOption.mp hok
  obtain ⟨⟨T, σ⟩, hcheck, -⟩ := any_toOption.mp hok
  exact ⟨t, T, σ, ht, hcheck⟩

theorem no_internal_fault_sample : ∃ t c, SyntaxTree.ofNodes sampleNodes (.ofIndex 21) = .ok t ∧
    compile t .default = .ok c := by
  obtain ⟨t, T, σ, ht, hcheck⟩ := exists_sample
  obtain ⟨c, hc⟩ := ((no_internal_fault ht .default).2 T σ hcheck).1
  exact ⟨t, c, ht, hc⟩

end PostfixCompiler
