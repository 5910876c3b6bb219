import PostfixCompiler.Proofs.Symbol.Session

/-!
# Scopes in an arena

A symbol table can keep each scope that was ever opened in one array, the **arena**. A scope has a
link to the scope around it, and the table knows which scope is the current one; so the scopes that
are open are not written down anywhere, they are found by following the links. A scope that was left
stays in the arena, out of reach.

A link leads to a scope that is older, and it never changes. So the search for a name, which follows
the links upwards, comes to the global scope, and from the current scope it passes the scopes that
are open and no other. That is all there is to say: no session can tell an arena from a table that
keeps the open scopes in a list, nor from a stack of finite maps.

## Main definitions

* `PostfixCompiler.SymbolArena`: a symbol table with its scopes in an arena.
* `PostfixCompiler.SymbolArena.searchFrom`: the search for a name, which is not known to end.
* `PostfixCompiler.SymbolArena.Chain`: the scopes that are passed on the way up.

## Main statements

* `PostfixCompiler.SymbolArena.Chain.searchFrom_eq`: the search ends, at the innermost binding on
  the way.
* `PostfixCompiler.SymbolArena.simulates`: an arena and a table answer alike.
* `PostfixCompiler.SymbolTable.sessions_agree`: no session tells an arena, a table and a stack of
  finite maps apart.
-/

namespace PostfixCompiler

/-- The place of a scope in the arena. -/
structure ScopeId where
  /-- The index. -/
  index : Nat
deriving DecidableEq

/-- **A scope in the arena.** -/
structure ScopeNode where
  /-- The scope around it; only the global scope has none. -/
  parent : Option ScopeId
  /-- The names that it binds. -/
  names : Scope

/-- **A symbol table with its scopes in an arena.** -/
structure SymbolArena where
  /-- All symbols, in the order of definition. -/
  symbols : Array Symbol
  /-- All scopes that were ever opened, the global one first. -/
  scopes : Array ScopeNode
  /-- The current scope. -/
  current : ScopeId

namespace SymbolArena

/-! ### The operations

An operation that looks up a scope or a symbol has no answer if it is not there. -/

/-- No symbols, in the global scope. -/
def empty : SymbolArena := ⟨#[], #[⟨none, []⟩], ⟨0⟩⟩

/-- The scope at a place. -/
def scope? (a : SymbolArena) (id : ScopeId) : Option ScopeNode := a.scopes[id.index]?

/-- Opens a scope inside the current one. -/
def enter (a : SymbolArena) : ScopeId × SymbolArena :=
  let id : ScopeId := ⟨a.scopes.size⟩
  (id, { a with scopes := a.scopes.push ⟨some a.current, []⟩, current := id })

/-- Goes back to the scope around the current one, if there is one. -/
def exit (a : SymbolArena) : Option SymbolArena := do
  let scope ← a.scope? a.current
  match scope.parent with
  | some parent => some { a with current := parent }
  | none => some a

/-- The current scope is the global one. -/
def isGlobalScope (a : SymbolArena) : Option Bool := do
  let scope ← a.scope? a.current
  some scope.parent.isNone

/-- Adds a symbol and binds its name in the current scope. -/
def define (a : SymbolArena) (s : Symbol) : Option (SymbolId × SymbolArena) := do
  let id : SymbolId := ⟨a.symbols.size⟩
  let scope ← a.scope? a.current
  let scopes :=
    a.scopes.setIfInBounds a.current.index { scope with names := scope.names.bind s.name id }
  some (id, { a with symbols := a.symbols.push s, scopes })

/-- **The search for a name**, from a scope upwards, if it passes at most so many scopes. Nothing
says that the links come to an end. -/
def searchFrom (a : SymbolArena) (name : String) : Nat → Option ScopeId → Option (Option SymbolId)
  | _, none => some none
  | 0, some _ => none
  | n + 1, some id => do
    let scope ← a.scope? id
    match scope.names.find? name with
    | some symbol => some (some symbol)
    | none => a.searchFrom name n scope.parent

/-- What a name is bound to, searched for from the current scope upwards. A search that passes more
scopes than there are comes to one of them again, so it never ends. -/
def lookup? (a : SymbolArena) (name : String) : Option (Option SymbolId) :=
  a.searchFrom name a.scopes.size (some a.current)

/-- What a name is bound to in the current scope. -/
def lookupLocal? (a : SymbolArena) (name : String) : Option (Option SymbolId) := do
  let scope ← a.scope? a.current
  some (scope.names.find? name)

/-- The symbol with the given id. -/
def get? (a : SymbolArena) (id : SymbolId) : Option Symbol := a.symbols[id.index]?

/-- Changes a symbol. -/
def modify (a : SymbolArena) (id : SymbolId) (f : Symbol → Symbol) : SymbolArena :=
  { a with symbols := a.symbols.modify id.index f }

/-- The symbols that the global scope binds, each of which is there. -/
def globals (a : SymbolArena) : Option (Multiset Symbol) := do
  let scope ← a.scope? ⟨0⟩
  let symbols ← scope.names.mapM fun b => a.get? b.2
  some symbols

/-- What an arena answers, if it does. -/
def act (op : TableOp) (a : SymbolArena) : Option (TableAnswer × SymbolArena) :=
  match op with
  | .enter => some (.done, a.enter.2)
  | .exit => a.exit.map fun a => (.done, a)
  | .define s => (a.define s).map fun (id, a) => (.defined id, a)
  | .modify id f => some (.done, a.modify id f)
  | .lookup name => (a.lookup? name).map fun id? => (.found id?, a)
  | .lookupLocal name => (a.lookupLocal? name).map fun id? => (.found id?, a)
  | .isGlobalScope => a.isGlobalScope.map fun b => (.global b, a)
  | .globals => a.globals.map fun ss => (.symbols ss, a)
  | .get id => some (.symbol (a.get? id), a)

/-! ### The way up -/

/-- **From a scope upwards these scopes are passed.** Each link leads to an older scope, and the way
ends at the global one. -/
inductive Chain (a : SymbolArena) : ScopeId → List Scope → Prop where
  /-- The global scope is the first one in the arena. -/
  | global {names : Scope} (h : a.scope? ⟨0⟩ = some ⟨none, names⟩) : Chain a ⟨0⟩ [names]
  /-- A scope has an older one around it. -/
  | inside {id parent : ScopeId} {names : Scope} {rest : List Scope}
      (h : a.scope? id = some ⟨some parent, names⟩)
    (holder : parent.index < id.index) (hrest : Chain a parent rest) : Chain a id (names :: rest)

namespace Chain

variable {a b : SymbolArena} {id : ScopeId} {ss : List Scope}

/-- The way up does not depend on younger scopes. -/
theorem of_agree (h : a.Chain id ss)
    (hab : ∀ i : ScopeId, i.index ≤ id.index → b.scope? i = a.scope? i) :
    b.Chain id ss := by
  induction h with
  | global h => exact .global ((hab _ (Nat.le_refl _)).trans h)
  | inside h holder hrest ih =>
    refine .inside ((hab _ (Nat.le_refl _)).trans h) holder (ih fun i hi => hab i ?_)
    exact Nat.le_trans hi (Nat.le_of_lt holder)

/-- **The search ends, at the innermost binding on the way up**, before it has passed a scope
twice. -/
theorem searchFrom_eq (h : a.Chain id ss) (name : String) {n : Nat} (hn : id.index < n) :
    a.searchFrom name n (some id) = some (ss.findSome? fun s => s.find? name) := by
  induction h generalizing n with
  | @global names h =>
    cases n with
    | zero => exact absurd hn (Nat.not_lt_zero _)
    | succ n =>
      simp only [searchFrom, h, Option.bind_eq_bind, Option.bind_some, List.findSome?_cons,
        List.findSome?_nil]
      cases names.find? name <;> rfl
  | @inside id parent names rest h holder hrest ih =>
    cases n with
    | zero => exact absurd hn (Nat.not_lt_zero _)
    | succ n =>
      simp only [searchFrom, h, Option.bind_eq_bind, Option.bind_some, List.findSome?_cons]
      cases names.find? name with
      | none => exact ih (Nat.lt_of_lt_of_le holder (Nat.le_of_lt_succ hn))
      | some i => rfl

/-- The first scope on the way up is the one that it starts at. -/
theorem exists_node {s : Scope} (h : a.Chain id (s :: ss)) :
    ∃ parent, a.scope? id = some ⟨parent, s⟩ ∧
    (parent = none ∧ id = ⟨0⟩ ∧ ss = [] ∨ ∃ p, parent = some p ∧ p.index < id.index ∧
      a.Chain p ss) := by
  cases h with
  | global h => exact ⟨none, h, .inl ⟨rfl, rfl, rfl⟩⟩
  | @inside _ parent _ _ h holder hrest => exact ⟨some parent, h, .inr ⟨parent, rfl, holder, hrest⟩⟩

theorem ne_nil (h : a.Chain id ss) : ss ≠ [] := by
  cases h <;> exact List.cons_ne_nil _ _

/-- The way up ends at the global scope. -/
theorem global_scope {s : Scope} (h : a.Chain id (ss ++ [s])) : a.scope? ⟨0⟩ = some ⟨none, s⟩ := by
  induction ss generalizing id with
  | nil =>
    obtain ⟨parent, hnode, ⟨rfl, rfl, -⟩ | ⟨p, -, -, hrest⟩⟩ := h.exists_node
    · exact hnode
    · exact absurd rfl hrest.ne_nil
  | cons s' ss ih =>
    obtain ⟨parent, -, ⟨-, -, hnil⟩ | ⟨p, -, -, hrest⟩⟩ := h.exists_node
    · exact absurd hnil (by simp)
    · exact ih hrest

theorem index_lt (h : a.Chain id ss) : id.index < a.scopes.size := by
  cases h with
  | global h => exact (Array.getElem?_eq_some_iff.mp h).1
  | inside h => exact (Array.getElem?_eq_some_iff.mp h).1

end Chain

/-! ### Arenas and tables -/

/-- **The arena holds the table**: the scopes on the way up from the current one are the open ones
of the table, and the symbols are the same. -/
structure Holds (a : SymbolArena) (t : SymbolTable) : Prop where
  /-- The symbols are the same. -/
  symbols : a.symbols = t.symbols
  /-- The way up passes the open scopes. -/
  chain : a.Chain a.current t.scopes
  /-- The symbols that the global scope binds are there. -/
  bound : ∀ b ∈ t.global, b.2.index < t.symbols.size

variable {a : SymbolArena} {t : SymbolTable}

theorem holds_empty : empty.Holds .empty :=
  ⟨rfl, .global rfl, fun _ hb => absurd hb List.not_mem_nil⟩

namespace Holds

/-- **The current scope of the arena is the innermost one of the table**, and what is around it
holds the rest. -/
theorem exists_node (h : a.Holds t) :
    ∃ parent, a.scope? a.current = some ⟨parent, t.locals.headD t.global⟩ ∧
    (t.locals = [] ∧ parent = none ∧ a.current = ⟨0⟩ ∨ ∃ s rest p, t.locals = s :: rest ∧
      parent = some p ∧
      p.index < a.current.index ∧ a.Chain p (rest ++ [t.global])) := by
  have hchain := h.chain
  rw [SymbolTable.scopes] at hchain
  cases hl : t.locals with
  | nil =>
    rw [hl] at hchain
    obtain ⟨parent, hnode, ⟨hparent, hcurrent, -⟩ | ⟨p, -, -, hrest⟩⟩ := Chain.exists_node hchain
    · exact ⟨parent, hnode, .inl ⟨rfl, hparent, hcurrent⟩⟩
    · exact absurd rfl hrest.ne_nil
  | cons s rest =>
    rw [hl, List.cons_append] at hchain
    obtain ⟨parent, hnode, ⟨-, -, hnil⟩ | ⟨p, hparent, holder, hrest⟩⟩ := Chain.exists_node hchain
    · exact absurd hnil (by simp)
    · exact ⟨parent, hnode, .inr ⟨s, rest, p, rfl, hparent, holder, hrest⟩⟩

theorem enter (h : a.Holds t) : a.enter.2.Holds t.enter where
  symbols := h.symbols
  chain := by
    refine @Chain.inside _ _ a.current _ _ ?_ h.chain.index_lt (h.chain.of_agree fun i hi => ?_)
    · exact Array.getElem?_push_size
    · have hlt : i.index < a.scopes.size := Nat.lt_of_le_of_lt hi h.chain.index_lt
      rw [scope?, scope?, SymbolArena.enter, Array.getElem?_push_lt hlt,
        Array.getElem?_eq_getElem hlt]
  bound := h.bound

/-- A scope that is left stays where it is, and the way up starts at the one around it. -/
theorem exit (h : a.Holds t) : ∃ a', a.exit = some a' ∧ a'.Holds t.exit := by
  obtain ⟨parent, hnode, ⟨hl, rfl, -⟩ | ⟨s, rest, p, hl, rfl, -, hrest⟩⟩ := h.exists_node
  · have hsame : t.exit = t := by
      rw [SymbolTable.exit, hl, List.tail_nil, ← hl]
    refine ⟨a, by simp [SymbolArena.exit, hnode], ?_⟩
    rw [hsame]
    exact h
  · refine ⟨{ a with current := p }, by simp [SymbolArena.exit, hnode], h.symbols, ?_, h.bound⟩
    rw [SymbolTable.scopes, SymbolTable.exit, hl]
    exact hrest.of_agree fun _ _ => rfl

/-- **A definition changes the current scope only**, which no scope above it can see. -/
theorem define (h : a.Holds t) (s : Symbol) :
    ∃ a', a.define s = some ((t.define s).1, a') ∧ a'.Holds (t.define s).2 := by
  obtain ⟨parent, hnode, hcases⟩ := h.exists_node
  have hlt := h.chain.index_lt
  have hsymbols : a.symbols.push s = (t.define s).2.symbols := by
      rw [SymbolTable.symbols_define, h.symbols]
  have hid : (t.define s).1 = ⟨a.symbols.size⟩ := by
    rw [h.symbols]
    rcases t with ⟨symbols, _ | _, global⟩ <;> rfl
  have hgrows : t.symbols.size < (t.define s).2.symbols.size := by
    rw [SymbolTable.symbols_define, Array.size_push]
    exact Nat.lt_succ_self _
  let a' : SymbolArena := { a with
    symbols := a.symbols.push s
    scopes := a.scopes.setIfInBounds a.current.index
      ⟨parent, (t.locals.headD t.global).bind s.name ⟨a.symbols.size⟩⟩ }
  have hself :
      a'.scope? a.current = some ⟨parent, (t.locals.headD t.global).bind s.name ⟨a.symbols.size⟩⟩ :=
    Array.getElem?_setIfInBounds_self_of_lt hlt
  have hother : ∀ i : ScopeId, i.index ≠ a.current.index → a'.scope? i = a.scope? i := fun i hi =>
    Array.getElem?_setIfInBounds_ne (Ne.symm hi)
  have hdefine : a.define s = some ((t.define s).1, a') := by
    rw [hid]
    simp [SymbolArena.define, hnode, a']
  refine ⟨a', hdefine, hsymbols, ?_, fun b hb => ?_⟩
  · rcases hcases with ⟨hl, rfl, hcurrent⟩ | ⟨s', rest, p, hl, rfl, holder, hrest⟩
    · have hscopes : (t.define s).2.scopes = [t.global.bind s.name ⟨a.symbols.size⟩] := by
        rw [h.symbols]
        simp [SymbolTable.scopes, SymbolTable.define, hl]
      rw [hscopes]
      rw [hcurrent, hl] at hself
      exact hcurrent ▸ .global hself
    · have hscopes :
          (t.define s).2.scopes = s'.bind s.name ⟨a.symbols.size⟩ :: (rest ++ [t.global]) := by
        rw [h.symbols]
        simp [SymbolTable.scopes, SymbolTable.define, hl]
      rw [hscopes]
      rw [hl] at hself
      refine .inside hself holder (hrest.of_agree fun i hi => hother i ?_)
      exact Nat.ne_of_lt (Nat.lt_of_le_of_lt hi holder)
  · -- The global scope binds what it bound before, and at most the new symbol.
    have hcases : b ∈ t.global ∨ b.2 = ⟨t.symbols.size⟩ := by
      rcases t with ⟨symbols, _ | _, global⟩
      · rcases List.mem_cons.mp hb with rfl | hb
        · exact .inr rfl
        · exact .inl (List.mem_filter.mp hb).1
      · exact .inl hb
    rcases hcases with hb | hb
    · exact Nat.lt_trans (h.bound b hb) hgrows
    · rw [hb]
      exact hgrows

theorem modify (h : a.Holds t) (id : SymbolId) (f : Symbol → Symbol) :
    (a.modify id f).Holds (t.modify id f) where
  symbols := by rw [SymbolArena.modify, SymbolTable.modify, h.symbols]
  chain := h.chain.of_agree fun _ _ => rfl
  bound b hb := by
    rw [SymbolTable.modify, Array.size_modify]
    exact h.bound b hb

theorem lookup? (h : a.Holds t) (name : String) : a.lookup? name = some (t.lookup? name) :=
  h.chain.searchFrom_eq name h.chain.index_lt

theorem lookupLocal? (h : a.Holds t) (name : String) :
    a.lookupLocal? name = some (t.lookupLocal? name) := by
  obtain ⟨parent, hnode, -⟩ := h.exists_node
  simp [SymbolArena.lookupLocal?, hnode, SymbolTable.lookupLocal?]

theorem isGlobalScope (h : a.Holds t) : a.isGlobalScope = some t.isGlobalScope := by
  obtain ⟨parent, hnode, ⟨hl, rfl, -⟩ | ⟨s, rest, p, hl, rfl, -⟩⟩ := h.exists_node
  · simp [SymbolArena.isGlobalScope, hnode, SymbolTable.isGlobalScope, hl]
  · simp [SymbolArena.isGlobalScope, hnode, SymbolTable.isGlobalScope, hl]

theorem get? (h : a.Holds t) (id : SymbolId) : a.get? id = t.get? id := by
  rw [SymbolArena.get?, SymbolTable.get?, h.symbols]

/-- Where each symbol is there, all are found. -/
theorem mapM_get? {bs : List (String × SymbolId)} (h : ∀ b ∈ bs, b.2.index < t.symbols.size) :
    bs.mapM (fun b => t.get? b.2) = some (bs.filterMap fun b => t.get? b.2) := by
  induction bs with
  | nil => rfl
  | cons b bs ih =>
    rw [List.forall_mem_cons] at h
    have hget : t.get? b.2 = some t.symbols[b.2.index] := Array.getElem?_eq_getElem h.1
    simp [List.mapM_cons, ih h.2, hget]

theorem globals (h : a.Holds t) : a.globals = some (t.globals : Multiset Symbol) := by
  have hglobal : a.scope? ⟨0⟩ = some ⟨none, t.global⟩ := h.chain.global_scope
  have hperm : (t.global.mergeSort fun a b => a.1 ≤ b.1).Perm t.global := List.mergeSort_perm _ _
  have hget : (fun b : String × SymbolId => a.get? b.2) = fun b => t.get? b.2 :=
    funext fun b => h.get? b.2
  have hfound := mapM_get? h.bound
  simp only [SymbolArena.globals, hglobal, hget, hfound, Option.bind_eq_bind, Option.bind_some]
  exact congrArg some (Multiset.coe_eq_coe.mpr (hperm.filterMap _).symm)

end Holds

/-- **An arena answers as the table does that it holds**: no operation is without an answer. -/
theorem simulates : Simulates Holds act SymbolTable.act := by
  intro op a t h
  cases op with
  | enter => exact ⟨_, _, _, rfl, rfl, h.enter⟩
  | exit =>
    obtain ⟨a', ha', h'⟩ := h.exit
    exact ⟨_, a', _, by rw [act, ha']; rfl, rfl, h'⟩
  | define s =>
    obtain ⟨a', ha', h'⟩ := h.define s
    exact ⟨_, a', _, by rw [act, ha']; rfl, rfl, h'⟩
  | modify id f => exact ⟨_, _, _, rfl, rfl, h.modify id f⟩
  | lookup name => exact ⟨_, a, t, by rw [act, h.lookup?]; rfl, rfl, h⟩
  | lookupLocal name => exact ⟨_, a, t, by rw [act, h.lookupLocal?]; rfl, rfl, h⟩
  | isGlobalScope => exact ⟨_, a, t, by rw [act, h.isGlobalScope]; rfl, rfl, h⟩
  | globals => exact ⟨_, a, t, by rw [act, h.globals]; rfl, rfl, h⟩
  | get id => exact ⟨_, a, t, by rw [act, h.get?], rfl, h⟩

end SymbolArena

/-- **No session tells an arena, a symbol table and a stack of finite maps apart**, however scopes
are opened and left in it, and whether work in them succeeds or fails. The ids that it is given are
distinct, each symbol is what was defined and changed by its id, and behind the session every search
for a name in the arena ends. -/
theorem SymbolTable.sessions_agree (w : TableWork) : ∃ events succeeded a t n,
    w.run SymbolArena.act .empty = some ⟨events, succeeded, a⟩ ∧
    SymbolTable.session w .empty = ⟨events, succeeded, t⟩ ∧
    w.run NameStack.act .empty = some ⟨events, succeeded, n⟩ ∧
    (TableEvent.definedIds events).Nodup ∧
    (∀ id, a.get? id = TableEvent.dataOf id none events ∧
      t.get? id = TableEvent.dataOf id none events) ∧
    ∀ name, ∃ id?, a.lookup? name = some id? := by
  obtain ⟨events, succeeded, a, t, ha, ht, hholds⟩ :=
    SymbolArena.simulates.run w SymbolArena.holds_empty
  obtain ⟨events', succeeded', t', n, ht', hn, hshows⟩ :=
    SymbolTable.simulates.run w SymbolTable.shows_empty
  obtain ⟨rfl, rfl, rfl⟩ := Session.mk.inj (Option.some.inj (ht.symm.trans ht'))
  rw [SymbolTable.run_eq_session, Option.some.injEq] at ht
  have htold : NameStack.empty.Told events n := NameStack.told_run w hn
  refine ⟨events, succeeded, a, t, n, ha, ht, hn, ?_, fun id => ?_, fun name =>
    ⟨_, hholds.lookup? name⟩⟩
  · rw [htold.ids]
    refine List.Nodup.map (fun i j hij => congrArg SymbolId.index hij) ?_
    exact List.nodup_range'
  · rw [hholds.get?, ← hshows.store, htold.store]
    exact ⟨rfl, rfl⟩

end PostfixCompiler
