import PostfixCompiler.Emission.State
import PostfixCompiler.Proofs.Scope.Scene
import PostfixCompiler.Typing.State

/-!
# Moments of a pass

The symbols in a table are numbered in the order in which they were defined, and they do not say
where they come from. So a pass is followed together with a list of **origins**, the node that
declared each symbol. Such a pair is a **moment** of the pass, and it has a scene: what names are
bound to in the table, with the origin of the symbol.

When a pass has worked on a phrase, the symbols that are new are declared by that phrase. A
statement leaves its scopes behind it, so no name leads to the symbols that it defined, and it does
not matter which of its parts declared them.

## Main definitions

* `PostfixCompiler.SymbolTable.scene`: what names are bound to in a table, if the origins of its
  symbols are known.
* `PostfixCompiler.Moment`, `PostfixCompiler.Moment.behind`, `PostfixCompiler.Moment.scene`.

## Main statements

* `PostfixCompiler.SymbolTable.scene_le`: names that stay bound to their symbols stay what they are
  in the scene.
* `PostfixCompiler.SymbolTable.scene_outer`: work that leaves the scopes as they were leaves the
  scene as it was.
* `PostfixCompiler.SymbolTable.scene_defineAll`: definitions bind their names to the node that
  declares them.
-/

namespace PostfixCompiler

/-! ### Tables and origins -/

namespace SymbolTable

/-- **What names are bound to in a table**, whose symbols were declared by the given nodes. -/
def scene (t : SymbolTable) (origins : List NodeId) : Scene := fun name => do
  let (id, s) ← t.resolve? name
  let node ← origins[id.index]?
  pure ⟨node, s.meaning⟩

/-- Symbols are defined one after the other. -/
def defineAll (t : SymbolTable) (ss : List Symbol) : SymbolTable :=
  ss.foldl (fun t s => (t.define s).2) t

variable {t u : SymbolTable} {origins : List NodeId} {r : Symbol → Symbol → Prop}

theorem lookup_of_resolve {name : String} {id : SymbolId} {s : Symbol}
    (h : t.resolve? name = some (id, s)) : t.lookup? name = some id := by
  obtain ⟨i, hi, h⟩ := Option.bind_eq_some_iff.mp h
  obtain ⟨s', -, h⟩ := Option.bind_eq_some_iff.mp h
  cases h
  exact hi

theorem resolve_of_get {name : String} {id : SymbolId} {s : Symbol} (hid : t.lookup? name = some id)
    (hs : t.get? id = some s) : t.resolve? name = some (id, s) := by
  simp [resolve?, hid, hs]

theorem scene_of_resolve {name : String} {id : SymbolId} {s : Symbol} {node : NodeId}
    (h : t.resolve? name = some (id, s)) (hnode : origins[id.index]? = some node) :
    t.scene origins name = some ⟨node, s.meaning⟩ := by
  simp [scene, h, hnode]

theorem scene_of_lookup_none {name : String} (h : t.lookup? name = none) :
    t.scene origins name = none := by
  simp [scene, resolve?, h]

/-- The names in a scene mean what they mean in the table. -/
theorem names_scene (h : origins.length = t.symbols.size) : (t.scene origins).names = t.names := by
  funext name
  rw [View.names, scene, names, view]
  cases hres : t.resolve? name with
  | none => rfl
  | some p =>
    have hlt : p.1.index < origins.length := h ▸ index_lt (get_of_resolve hres)
    simp [List.getElem?_eq_getElem hlt]

/-- No symbol is lost, so there are not fewer of them. -/
theorem Keeps.size_le (h : Keeps r t u) : t.symbols.size ≤ u.symbols.size := by
  by_contra hlt
  have hu : u.symbols.size < t.symbols.size := by omega
  obtain ⟨s, hs, -⟩ := h ⟨u.symbols.size⟩ t.symbols[u.symbols.size] (Array.getElem?_eq_getElem hu)
  exact absurd (index_lt hs) (Nat.lt_irrefl _)

/-- Every name that is bound stays bound to its symbol. -/
def Retains (t u : SymbolTable) : Prop :=
  ∀ name id, t.lookup? name = some id → u.lookup? name = some id

theorem Retains.trans {v : SymbolTable} (h : t.Retains u) (h' : u.Retains v) : t.Retains v :=
  fun name id hid => h' name id (h name id hid)

theorem Outer.lookup?_eq (h : Outer r t u) (name : String) : u.lookup? name = t.lookup? name := by
  rw [lookup?, lookup?, scopes, scopes, h.locals, h.global]

theorem Outer.retains (h : Outer r t u) : t.Retains u :=
  fun name _ hid => (h.lookup?_eq name).trans hid

/-- A definition of a name that is not bound yet hides nothing. -/
theorem retains_define {s : Symbol} (h : t.lookup? s.name = none) : t.Retains (t.define s).2 := by
  intro name id hid
  rw [lookup?_define, if_neg]
  · exact hid
  · rintro rfl
    cases h.symm.trans hid

/-- **Names that stay bound to their symbols stay what they are in the scene**, whatever the origins
of the symbols are that are new. -/
theorem scene_le (h : Keeps r t u) (hl : t.Retains u) (hr : ∀ a b, r a b → b.meaning = a.meaning)
    (ho : origins.length = t.symbols.size) (more : List NodeId) :
    (t.scene origins).Le (u.scene (origins ++ more)) := by
  intro name b hb
  obtain ⟨⟨id, s⟩, hres, hb⟩ := Option.bind_eq_some_iff.mp hb
  obtain ⟨node, hnode, hb⟩ := Option.bind_eq_some_iff.mp hb
  cases hb
  obtain ⟨s', hs', hrs⟩ := h id s (get_of_resolve hres)
  have hlt : id.index < origins.length := ho ▸ index_lt (get_of_resolve hres)
  rw [← hr s s' hrs]
  refine scene_of_resolve (resolve_of_get (hl name id (lookup_of_resolve hres)) hs') ?_
  exact (List.getElem?_append_left hlt).trans hnode

/-- **Work that leaves all scopes as they were leaves the scene as it was.** -/
theorem scene_outer (h : Outer r t u) (hr : ∀ a b, r a b → b.meaning = a.meaning) (ht : t.Closed)
    (ho : origins.length = t.symbols.size) (more : List NodeId) :
    u.scene (origins ++ more) = t.scene origins := by
  funext name
  cases hid : t.lookup? name with
  | none => rw [scene_of_lookup_none hid, scene_of_lookup_none ((h.lookup?_eq name).trans hid)]
  | some id =>
    obtain ⟨s, hs, -⟩ := ht.exists_symbol hid
    have hlt : id.index < origins.length := ho ▸ index_lt hs
    have hb := scene_of_resolve (resolve_of_get hid hs) (List.getElem?_eq_getElem hlt)
    rw [hb]
    exact scene_le h.keeps h.retains hr ho more name _ hb

theorem scene_enter (t : SymbolTable) (origins : List NodeId) :
    t.enter.scene origins = t.scene origins := by
  funext name
  rw [scene, scene, resolve?, resolve?, lookup?_enter]
  rfl

/-- A definition binds its name to the node that declares it. -/
theorem scene_define (ht : t.Closed) (ho : origins.length = t.symbols.size)
    (node : NodeId) (s : Symbol) :
    (t.define s).2.scene (origins ++ [node]) = (t.scene origins).bind s.name ⟨node, s.meaning⟩ := by
  funext name
  by_cases hn : name = s.name
  · rw [View.bind, if_pos hn]
    refine scene_of_resolve (resolve_of_get ?_ (get?_define_self t s)) ?_
    · rw [lookup?_define, if_pos hn]
    · rw [← ho, List.getElem?_concat_length]
  · rw [View.bind_ne _ _ hn]
    have hl : (t.define s).2.lookup? name = t.lookup? name := by rw [lookup?_define, if_neg hn]
    cases hid : t.lookup? name with
    | none => rw [scene_of_lookup_none hid, scene_of_lookup_none (hl.trans hid)]
    | some id =>
      obtain ⟨s', hs', -⟩ := ht.exists_symbol hid
      have hlt : id.index < origins.length := ho ▸ index_lt hs'
      have hget : (t.define s).2.get? id = some s' := (get?_define_lt t s (index_lt hs')).trans hs'
      rw [scene_of_resolve (resolve_of_get (hl.trans hid) hget)
          (List.getElem?_append_left hlt |>.trans (List.getElem?_eq_getElem hlt)),
        scene_of_resolve (resolve_of_get hid hs') (List.getElem?_eq_getElem hlt)]

theorem size_define (t : SymbolTable) (s : Symbol) :
    (t.define s).2.symbols.size = t.symbols.size + 1 := by
  rw [symbols_define, Array.size_push]

theorem size_defineAll (t : SymbolTable) (ss : List Symbol) :
    (t.defineAll ss).symbols.size = t.symbols.size + ss.length := by
  induction ss generalizing t with
  | nil => rfl
  | cons s ss ih =>
    rw [defineAll, List.foldl_cons, ← defineAll, ih, size_define, List.length_cons]
    omega

/-- **Definitions bind their names to the node that declares them**, one after the other. -/
theorem scene_defineAll (ht : t.Closed) (ho : origins.length = t.symbols.size) (node : NodeId)
    {ss : List Symbol} (hss : ∀ s ∈ ss, s.parameters? = none) :
    (t.defineAll ss).scene (origins ++ List.replicate ss.length node) =
      (t.scene origins).declare node (ss.map fun s => (s.name, s.type)) := by
  induction ss generalizing t origins with
  | nil =>
    rw [List.length_nil, List.replicate_zero, List.append_nil]
    rfl
  | cons s ss ih =>
    rw [List.forall_mem_cons] at hss
    have ho' : (origins ++ [node]).length = (t.define s).2.symbols.size := by
      rw [List.length_append, ho, size_define, List.length_singleton]
    have hmeaning : s.meaning = .variable s.type := by rw [Symbol.meaning, hss.1]
    rw [List.length_cons, List.replicate_succ, List.append_cons, List.map_cons,
      View.declare, ← hmeaning, ← scene_define ht ho node s]
    exact ih (ht.define s) ho' hss.2

end SymbolTable

/-! ### Moments -/

/-- A state of a pass has a symbol table. -/
class Tabled (S : Type) where
  /-- The table. -/
  symbols : S → SymbolTable

instance : Tabled Typing.State := ⟨Typing.State.symbols⟩

instance : Tabled Emission.State := ⟨Emission.State.symbols⟩

/-- **A moment of a pass**: its state, and for each symbol the node that declared it. -/
structure Moment (S : Type) where
  /-- The state. -/
  state : S
  /-- The declarations of the symbols, in the order of definition. -/
  origins : List NodeId

namespace Moment

variable {S α : Type} [Tabled S]

/-- The table of a moment. -/
def symbols (m : Moment S) : SymbolTable := Tabled.symbols m.state

/-- **What names are bound to at a moment.** -/
def scene (m : Moment S) : Scene := m.symbols.scene m.origins

/-- The same moment in a changed state, in which there is no new symbol. -/
def change (m : Moment S) (f : S → S) : Moment S := ⟨f m.state, m.origins⟩

/-- The moment at which a later state is reached. Symbols that are new are declared by a node. -/
def reach (m : Moment S) (node : NodeId) (s : S) : Moment S :=
  ⟨s, m.origins ++ List.replicate ((Tabled.symbols s).symbols.size - m.origins.length) node⟩

/-- **The moment behind work on a node**, whatever the outcome of the work is. -/
def behind (m : Moment S) (node : NodeId) (work : EStateM Error S α) : Moment S :=
  m.reach node <|
    match work m.state with
    | .ok _ s => s
    | .error _ s => s

/-- Each symbol has an origin. -/
def Whole (m : Moment S) : Prop := m.origins.length = m.symbols.symbols.size

variable {m : Moment S} (node : NodeId) {s : S}

theorem behind_of_ok {work : EStateM Error S α} {a : α} (h : work m.state = .ok a s) :
    m.behind node work = m.reach node s := by
  rw [behind, h]

theorem names_scene (h : m.Whole) : m.scene.names = m.symbols.names := SymbolTable.names_scene h

/-- No symbol is lost, so each one still has an origin. -/
theorem whole_reach {r : Symbol → Symbol → Prop} (hm : m.Whole)
    (h : SymbolTable.Keeps r m.symbols (Tabled.symbols s)) : (m.reach node s).Whole := by
  have hle : m.origins.length ≤ (Tabled.symbols s).symbols.size := hm ▸ h.size_le
  change (m.origins ++ List.replicate _ node).length = (Tabled.symbols s).symbols.size
  rw [List.length_append, List.length_replicate, Nat.add_sub_cancel' hle]

/-- **Work that leaves all scopes as they were leaves the scene as it was.** -/
theorem reach_outer {r : Symbol → Symbol → Prop} (hm : m.Whole) (hc : m.symbols.Closed)
    (h : SymbolTable.Outer r m.symbols (Tabled.symbols s))
    (hr : ∀ a b, r a b → b.meaning = a.meaning) :
    (m.reach node s).Whole ∧ (m.reach node s).scene = m.scene :=
  ⟨whole_reach node hm h.keeps, SymbolTable.scene_outer h hr hc hm _⟩

/-- Work that goes on for the same node reaches the state behind it. -/
theorem reach_reach {r r' : Symbol → Symbol → Prop} {s' : S} (hm : m.Whole)
    (h : SymbolTable.Keeps r m.symbols (Tabled.symbols s))
    (h' : SymbolTable.Keeps r' (Tabled.symbols s) (Tabled.symbols s')) :
    (m.reach node s).reach node s' = m.reach node s' := by
  have hle : m.origins.length ≤ (Tabled.symbols s).symbols.size := hm ▸ h.size_le
  have hle' := h'.size_le
  simp only [reach, List.length_append, List.length_replicate,
    List.append_assoc, ← List.replicate_add, mk.injEq, true_and]
  congr 2
  omega

/-- **Definitions bind their names to the node that declares them.** -/
theorem reach_defineAll {ss : List Symbol} (hm : m.Whole) (hc : m.symbols.Closed)
    (h : Tabled.symbols s = m.symbols.defineAll ss) (hss : ∀ sym ∈ ss, sym.parameters? = none) :
    (m.reach node s).Whole ∧
      (m.reach node s).scene = m.scene.declare node (ss.map fun sym => (sym.name, sym.type)) := by
  have hsize : (Tabled.symbols s).symbols.size = m.origins.length + ss.length := by
    rw [h, SymbolTable.size_defineAll, ← hm]
  have hreach : m.reach node s = ⟨s, m.origins ++ List.replicate ss.length node⟩ := by
    rw [reach, hsize, Nat.add_sub_cancel_left]
  refine ⟨?_, ?_⟩
  · change (m.reach node s).origins.length = (Tabled.symbols s).symbols.size
    rw [hreach, List.length_append, List.length_replicate, hsize]
  · rw [hreach, scene, symbols, h]
    exact SymbolTable.scene_defineAll hc hm node hss

end Moment

end PostfixCompiler
