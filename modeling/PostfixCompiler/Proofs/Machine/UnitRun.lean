import PostfixCompiler.Proofs.Machine.Standard
import PostfixCompiler.Proofs.Machine.TupleRun

/-!
# The formulas of a unit are evaluated

All pieces of a function sit in its room, so what is known of the code of a formula in a room holds
of every formula of every function of an accepted unit. It holds of every machine: what the words
and doubles are and what the instructions make of them does not matter, as long as the addresses of
the frame are words.

The code of a formula may stand in any code, at any position. All that is asked is that the labels
which the code makes up are placed once; they are in the code of the formula itself.

## Main definitions

* `PostfixCompiler.Machine.values`: the values of variables, as they are in memory.
* `PostfixCompiler.Expr.Evaluated`: a formula is evaluated by code.

## Main statements

* `PostfixCompiler.formulas_evaluated`: the code of every formula of an accepted unit evaluates it.
-/

namespace PostfixCompiler

open Emission

namespace Outline

variable {Q Q' : Piece → Outline → Prop}

theorem All.and {o : Outline} (h : o.All Q) (h' : o.All Q') :
    o.All fun p inner => Q p inner ∧ Q' p inner := by
  induction o with
  | done => trivial
  | step i rest ih => exact ih h h'
  | part p inner rest ih ih' => exact ⟨⟨h.1, h'.1⟩, ih h.2.1 h'.2.1, ih' h.2.2 h'.2.2⟩

/-- What is true of all texts of an outline is true of those in its pieces, and of the pieces that
are texts. -/
theorem all_texts {R : NodeId × String → Prop} {o : Outline} (h : ∀ q ∈ o.texts, R q) :
    o.All fun p inner => (∀ id label, p = .text id label → R (id, label)) ∧
    ∀ q ∈ inner.texts, R q := by
  induction o with
  | done => trivial
  | step i rest ih => exact ih h
  | part p inner rest ih ih' =>
    have hparts : (∀ id label, p = .text id label → R (id, label)) ∧ (∀ q ∈ inner.texts, R q) ∧
        ∀ q ∈ rest.texts, R q := by
      cases p with
      | text id label =>
        rw [texts, List.forall_mem_cons, List.forall_mem_append] at h
        refine ⟨?_, h.2⟩
        rintro _ _ ⟨⟩
        exact h.1
      | _ =>
        rw [texts, List.forall_mem_append] at h
        · exact ⟨by simp, h⟩
        · simp
    exact ⟨⟨hparts.1, hparts.2.1⟩, ih hparts.2.1, ih' hparts.2.2⟩

end Outline

/-- **The values of local variables and arguments**, as they are in memory. -/
def Machine.values (M : Machine) (fp : Int) (view : View Symbol) (m : M.Memory) (name : String) :
    Option M.Value :=
  (view name).bind fun s => if s.isGlobal then none else some (M.read m (fp + s.offset) s.type)

theorem Machine.knows_values (M : Machine) (fp : Int) (view : View Symbol) (m : M.Memory) :
    M.Knows fp view (M.values fp view m) m := by
  intro name s hs hlocal
  rw [values, hs, Option.bind_some, hlocal]
  rfl

/-- **A formula is evaluated by code**, wherever the code stands: from any store whose stack is
below the frame, the machine runs the code to its end. Then the value of the formula is on the
stack, the first component on top, and nothing else has changed but what is further up on the stack,
to some depth, and the slots of the frame. -/
def Expr.Evaluated (M : Machine) (T : TypeTable) (frame : FrameLayout) (fp : Int)
    (texts : NodeId → M.Word) (view : View Symbol) (e : Expr) (is : List Instr) : Prop :=
  ∃ depth : Nat, ∀ (code : List Instr) (p n m : Nat) (s : M.Store), Makes code n m →
    Holds code p is →
    s.sp ≤ fp - frame.frameSize →
    ∃ v s', e.evaluate M T (M.values fp view s.memory) texts = some v ∧
      M.Runs fp code (p, s) (p + is.length, s') ∧ s'.sp + (e.type T).size = s.sp ∧
      M.read s'.memory s'.sp (e.type T) = v ∧
      ∀ a, (a < s.sp - depth ∨ s.sp ≤ a) →
        (∀ slot ∈ frame.slots, a < fp + slot.offset ∨ fp + slot.offset + slot.size ≤ a) →
        s'.memory a = s.memory a

/-- A formula that sits in a room is evaluated by its code. -/
theorem Expr.Sits.evaluated {M : Machine} {r : Room} {fp high : Int} {cx : Context}
    {view : View Symbol} {e : Expr} {n : Nat} {texts : NodeId → M.Word}
    (hm : M.Setting r fp high cx) (h : e.Sits Ty.Sound r view .value) (hf : e.IsFormula view)
    (hn : (e.outline cx view .value n).Finds M texts) :
    e.Evaluated M r.types r.frame fp texts view (e.outline cx view .value n).code := by
  obtain ⟨depth, hdelivers⟩ := e.computes hm h hf n hn
  refine ⟨depth, fun code p a b s hmakes hc hsp => ?_⟩
  obtain ⟨s', hrun, v, hv, hg⟩ := hdelivers _ hmakes hc hsp (M.knows_values fp view s.memory)
  refine ⟨v, s', hv, hrun, hg.sp, hg.value, fun b hb hslots => hg.changes b ?_⟩
  rintro (htop | ⟨slot, hslot, -, hstart, hstop⟩)
  · omega
  · have := hslots slot hslot
    omega

/-! ### Functions -/

namespace Function

variable {T : TypeTable} {config : Config} {scope : View Symbol} {n : Nat} {f : Function} {R : Ty}

/-- Where the arguments of a function end. -/
def argumentsStop (T : TypeTable) (f : Function) : Int :=
  f.argumentsStart T + Ty.sizeOfAll (f.signature.arguments.map fun d => T.typeOf d.id)

/-- **A function evaluates its formulas**: each of them is evaluated by its code, on any machine for
which the addresses of the frame are words. A text stands for the address of its label. -/
def EvaluatesFormulas (T : TypeTable) (config : Config) (scope : View Symbol) (n : Nat)
    (f : Function) : Prop :=
  ∃ label : NodeId → String, (f.outline T config scope n).All fun p inner =>
    (∀ id l, p = .text id l → label id = l) ∧
    ∀ view e, p = .expression .value view e → e.IsFormula view → (∃ k m, Makes inner.code k m) ∧
      ∀ (M : Machine) (fp : Int),
      M.Addresses (fp - (f.frame T).frameSize) (fp + f.argumentsStop T) →
        e.Evaluated M T (f.frame T) fp (fun id => M.label (label id)) view inner.code

/-- **Every typed function evaluates its formulas.** -/
theorem evaluatesFormulas (hΓ : View.Settled Ty.Sound scope.meanings)
    (h : f.Typed Ty.Sound T scope.meanings R) (hw : f.WellPlaced) (hf : f.ids.Nodup)
    (hglobal : ∀ name s, scope name = some s → s.isGlobal = true) (config : Config) (n : Nat) :
    f.EvaluatesFormulas T config scope n := by
  obtain ⟨label, hlabel⟩ := exists_labelOfText hf T config scope n
  refine ⟨label,
    ((Outline.all_texts hlabel).and (f.all_sit Ty.stable_sound config n hΓ h hw hf)).imp ?_⟩
  rintro p inner ⟨⟨htext, htexts⟩, hsits⟩
  refine ⟨htext, ?_⟩
  rintro view e rfl hformula
  obtain ⟨hsits, cx, k, hsuits, heq⟩ := hsits
  have hcode : (e.outline cx view .value k).code = inner.code := by rw [heq, Outline.code_piece]
  refine ⟨⟨k, k + e.labelCount, hcode ▸ (e.through .value k).toMakes⟩, fun M fp hM => ?_⟩
  have hsetting : M.Setting (f.room T scope) fp (f.argumentsStop T) cx :=
    ⟨hM, f.laid hglobal, hsuits⟩
  have hfinds : (e.outline cx view .value k).Finds M fun id => M.label (label id) := by
    rw [heq, Outline.finds_expression]
    exact fun q hq => congrArg M.label (htexts q hq)
  exact hcode ▸ hsits.evaluated hsetting hformula hfinds

end Function

/-! ### Units -/

/-- **Every function of an accepted unit evaluates its formulas**, if the types that are written are
proper. -/
theorem formulas_evaluated {nodes : Array Node} {root : NodeId} {t : SyntaxTree}
    (h : SyntaxTree.ofNodes nodes root = .ok t)
    (ht : ∀ d ∈ t.declarations, ∀ u ∈ d.writtenTypes, u.Proper) {T : TypeTable} {σ : SymbolTable}
    (hcheck : Typing.checkTree t = .ok (T, σ)) (config : Config) {before after : List Decl}
    {f : Function} (hf : t.declarations = before ++ .define f :: after) :
    ∃ (c : Compilation) (front back : List Instr), compile t config = .ok c ∧
      c.code = front ++ (f.outline T config σ.scope (Decl.labelCountOfAll before)).code ++ back ∧
      f.EvaluatesFormulas T config σ.scope (Decl.labelCountOfAll before) := by
  have hwritten : ∀ d ∈ t.declarations, ∀ u ∈ d.writtenTypes, Typing.Written Ty.Sound u :=
    fun d hd u hu hauto => ⟨hauto, ht d hd u hu⟩
  have haccepted := (Typing.checkTree_outcome Ty.stable_sound h hwritten).1 T σ hcheck
  obtain ⟨hΓ, ⟨R, hR⟩, hw, c, front, back, hc, hcode⟩ :=
    exists_function_code Ty.stable_sound h hwritten hcheck config hf
  have hmem : Decl.define f ∈ t.declarations := by simp [hf]
  have hids : f.ids.Nodup := SyntaxTree.nodup_ids_of_mem h hmem
  exact ⟨c, front, back, hc, hcode,
    f.evaluatesFormulas hΓ hR hw hids (fun name s hs => haccepted.global name s hs) config _⟩

/-- The frame of the sample fits into 32 bits. -/
theorem exists_sample_frame : ∃ t T σ f, SyntaxTree.ofNodes sampleNodes (.ofIndex 21) = .ok t ∧
    Typing.checkTree t = .ok (T, σ) ∧ t.declarations = [.define f] ∧
    (∀ d ∈ t.declarations, ∀ u ∈ d.writtenTypes, u.Proper) ∧ (f.frame T).frameSize < 2 ^ 31 ∧
    f.argumentsStop T < 2 ^ 31 := by
  obtain ⟨t, T, σ, f, ht, hcheck, hf, hproper, -⟩ := exists_sample_function
  have hok : (SyntaxTree.ofNodes sampleNodes (.ofIndex 21)).toOption.any (fun t =>
      (Typing.checkTree t).toOption.any fun r => t.onlyFunction?.any fun f =>
        decide ((f.frame r.1).frameSize < 2 ^ 31 ∧ f.argumentsStop r.1 < 2 ^ 31)) = true := by
    decide +kernel
  rw [ht] at hok
  change (Typing.checkTree t).toOption.any _ = true at hok
  rw [hcheck, SyntaxTree.onlyFunction?_eq_some.mpr hf] at hok
  exact ⟨t, T, σ, f, ht, hcheck, hf, hproper, of_decide_eq_true hok⟩

theorem formulas_evaluated_sample :
    ∃ t T σ f c, SyntaxTree.ofNodes sampleNodes (.ofIndex 21) = .ok t ∧
    Typing.checkTree t = .ok (T, σ) ∧ t.declarations = [.define f] ∧ compile t .default = .ok c ∧
    ∃ label : NodeId → String, (f.outline T .default σ.scope 0).All fun p inner => ∀ view e,
      p = .expression .value view e → e.IsFormula view → ∀ labels : String → BitVec 32,
        e.Evaluated (.standard labels) T (f.frame T) 0
          (fun id => labels (label id)) view inner.code := by
  obtain ⟨t, T, σ, f, ht, hcheck, hf, hproper, hsize, hstop⟩ := exists_sample_frame
  have hf' : t.declarations = [] ++ .define f :: [] := hf
  obtain ⟨c, front, back, hc, -, label, hall⟩ := formulas_evaluated ht hproper hcheck .default hf'
  refine ⟨t, T, σ, f, c, ht, hcheck, hf, hc, label, hall.imp ?_⟩
  rintro p inner ⟨-, hevaluated⟩ view e hp hformula labels
  exact (hevaluated view e hp hformula).2 _ 0
    (Machine.addresses_standard labels (by omega) (by omega))

end PostfixCompiler
