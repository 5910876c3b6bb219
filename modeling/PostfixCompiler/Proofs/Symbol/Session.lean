import Mathlib.Data.Finmap
import PostfixCompiler.Proofs.Symbol.View

/-!
# Sessions with a symbol table

A pass works with its symbol table through a few operations, and what it does next may depend on
what they answer. Part of the work may be done in a scope of its own, which is left whether that
part succeeds or fails. A **session** is the course of such work: the operations with their answers,
and whether it succeeded.

The plainest table is a **stack of finite maps** from names to the ids of symbols, with a store that
holds the symbols. A session with a symbol table cannot be told from one with such a stack.

## Main definitions

* `PostfixCompiler.TableOp`, `PostfixCompiler.TableAnswer`, `PostfixCompiler.TableWork`: work with a
  symbol table.
* `PostfixCompiler.TableWork.run`: the session that work makes with a table of any kind.
* `PostfixCompiler.SymbolTable.session`: the session that it makes with a symbol table.
* `PostfixCompiler.Simulates`: two kinds of tables that answer alike.
* `PostfixCompiler.NameStack`: a stack of finite maps, with a store of symbols.
* `PostfixCompiler.TableEvent.dataOf`: what a session tells of the symbol with an id.

## Main statements

* `PostfixCompiler.Simulates.run`: no work can tell two kinds of tables apart that answer alike.
* `PostfixCompiler.SymbolTable.simulates`: a symbol table and a stack of finite maps answer alike.
* `PostfixCompiler.NameStack.told_run`: what a session tells of the ids and of the store.
-/

namespace PostfixCompiler

/-! ### Work with a table -/

/-- **An operation on a symbol table.** -/
inductive TableOp where
  /-- A scope is opened inside the others. -/
  | enter
  /-- The innermost scope is left. -/
  | exit
  /-- A symbol is defined in the innermost scope. -/
  | define (s : Symbol)
  /-- A symbol is changed. -/
  | modify (id : SymbolId) (f : Symbol → Symbol)
  /-- A name is looked up. -/
  | lookup (name : String)
  /-- A name is looked up in the innermost scope only. -/
  | lookupLocal (name : String)
  /-- It is asked whether only the global scope is open. -/
  | isGlobalScope
  /-- The symbols of the global scope are asked for. -/
  | globals
  /-- A symbol is asked for. -/
  | get (id : SymbolId)

/-- **What a table answers.** -/
inductive TableAnswer where
  /-- It is done. -/
  | done
  /-- The id of a new symbol. -/
  | defined (id : SymbolId)
  /-- What a name is bound to. -/
  | found (id? : Option SymbolId)
  /-- Whether only the global scope is open. -/
  | global (b : Bool)
  /-- Symbols, in no order. -/
  | symbols (ss : Multiset Symbol)
  /-- The symbol with an id. -/
  | symbol (s? : Option Symbol)

/-- **Work with a symbol table**, which goes on as the answers tell it. -/
inductive TableWork where
  /-- The work is done. -/
  | succeed
  /-- The work has failed. -/
  | fail
  /-- There is an operation, and work that depends on its answer. -/
  | ask (op : TableOp) (next : TableAnswer → TableWork)
  /-- There is work in a scope of its own, and then work that depends on whether it succeeded. -/
  | inScope (body : TableWork) (next : Bool → TableWork)

/-- An operation with its answer. -/
abbrev TableEvent := TableOp × TableAnswer

/-- **A session with a table**, and the table that it leaves. -/
structure Session (σ : Type) where
  /-- The operations with their answers, in order. -/
  events : List TableEvent
  /-- The work succeeded. -/
  succeeded : Bool
  /-- The table behind the work. -/
  table : σ

namespace TableWork

variable {σ τ : Type}

/-- **The session that work makes with a table**, whose operations may have no answer. A scope of
its own is left behind the work in it, also if that has failed. -/
def run (act : TableOp → σ → Option (TableAnswer × σ)) : TableWork → σ → Option (Session σ)
  | .succeed, t => some ⟨[], true, t⟩
  | .fail, t => some ⟨[], false, t⟩
  | .ask op next, t => do
    let (answer, t) ← act op t
    let rest ← (next answer).run act t
    some { rest with events := (op, answer) :: rest.events }
  | .inScope body next, t => do
    let (_, t) ← act .enter t
    let inner ← body.run act t
    let (_, t) ← act .exit inner.table
    let rest ← (next inner.succeeded).run act t
    some { rest with events := inner.events ++ rest.events }

end TableWork

/-! ### Tables that answer alike -/

/-- **Tables of two kinds answer alike**: each operation has the same answer, and leaves tables that
answer alike. -/
def Simulates {σ τ : Type} (R : σ → τ → Prop) (act : TableOp → σ → Option (TableAnswer × σ))
    (act' : TableOp → τ → Option (TableAnswer × τ)) : Prop :=
  ∀ op t u, R t u →
    ∃ answer t' u', act op t = some (answer, t') ∧ act' op u = some (answer, u') ∧ R t' u'

/-- **No work can tell tables apart that answer alike**: the sessions are the same, and they come to
an end. -/
theorem Simulates.run {σ τ : Type} {R : σ → τ → Prop} {act : TableOp → σ → Option (TableAnswer × σ)}
    {act' : TableOp → τ → Option (TableAnswer × τ)} (h : Simulates R act act') (w : TableWork)
    {t : σ} {u : τ} (hR : R t u) :
    ∃ events succeeded t' u', w.run act t = some ⟨events, succeeded, t'⟩ ∧
      w.run act' u = some ⟨events, succeeded, u'⟩ ∧ R t' u' := by
  induction w generalizing t u with
  | succeed => exact ⟨[], true, t, u, rfl, rfl, hR⟩
  | fail => exact ⟨[], false, t, u, rfl, rfl, hR⟩
  | ask op next ih =>
    obtain ⟨answer, t₁, u₁, ht, hu, h₁⟩ := h op t u hR
    obtain ⟨events, succeeded, t₂, u₂, ht₂, hu₂, h₂⟩ := ih answer h₁
    refine ⟨(op, answer) :: events, succeeded, t₂, u₂, ?_, ?_, h₂⟩
    · simp [TableWork.run, ht, ht₂]
    · simp [TableWork.run, hu, hu₂]
  | inScope body next ihbody ihnext =>
    obtain ⟨answer, t₁, u₁, ht, hu, h₁⟩ := h .enter t u hR
    obtain ⟨events, succeeded, t₂, u₂, ht₂, hu₂, h₂⟩ := ihbody h₁
    obtain ⟨answer', t₃, u₃, ht₃, hu₃, h₃⟩ := h .exit t₂ u₂ h₂
    obtain ⟨events', succeeded', t₄, u₄, ht₄, hu₄, h₄⟩ := ihnext succeeded h₃
    refine ⟨events ++ events', succeeded', t₄, u₄, ?_, ?_, h₄⟩
    · simp [TableWork.run, ht, ht₂, ht₃, ht₄]
    · simp [TableWork.run, hu, hu₂, hu₃, hu₄]

/-! ### Symbol tables and stacks of finite maps -/

/-- What a symbol table answers. -/
def SymbolTable.respond (t : SymbolTable) : TableOp → TableAnswer × SymbolTable
  | .enter => (.done, t.enter)
  | .exit => (.done, t.exit)
  | .define s => (.defined (t.define s).1, (t.define s).2)
  | .modify id f => (.done, t.modify id f)
  | .lookup name => (.found (t.lookup? name), t)
  | .lookupLocal name => (.found (t.lookupLocal? name), t)
  | .isGlobalScope => (.global t.isGlobalScope, t)
  | .globals => (.symbols t.globals, t)
  | .get id => (.symbol (t.get? id), t)

/-- An operation on a symbol table always has an answer. -/
def SymbolTable.act (op : TableOp) (t : SymbolTable) : Option (TableAnswer × SymbolTable) :=
  some (t.respond op)

/-- **The session that work makes with a symbol table**, with scopes of their own opened and left as
the passes do. -/
def SymbolTable.session : TableWork → SymbolTable → Session SymbolTable
  | .succeed, t => ⟨[], true, t⟩
  | .fail, t => ⟨[], false, t⟩
  | .ask op next, t =>
    let (answer, t) := t.respond op
    let rest := session (next answer) t
    { rest with events := (op, answer) :: rest.events }
  | .inScope body next, t =>
    let (inner, t) := t.inScope fun t =>
      let inner := session body t
      (inner, inner.table)
    let rest := session (next inner.succeeded) t
    { rest with events := inner.events ++ rest.events }

theorem SymbolTable.run_eq_session (w : TableWork) (t : SymbolTable) :
    w.run act t = some (session w t) := by
  induction w generalizing t with
  | succeed => rfl
  | fail => rfl
  | ask op next ih => simp [TableWork.run, act, session, ih]
  | inScope body next ihbody ihnext =>
      simp [TableWork.run, act, respond, session, inScope, ihbody, ihnext]

/-- A finite map from names to the ids of symbols. -/
abbrev NameMap := Finmap fun _ : String => SymbolId

/-- **A stack of finite maps**, with a store that holds the symbols. -/
structure NameStack where
  /-- The maps over the global one, the last one first. -/
  inner : List NameMap
  /-- The global map. -/
  global : NameMap
  /-- The symbol with an id. -/
  store : SymbolId → Option Symbol
  /-- How many symbols were defined. -/
  count : Nat

namespace NameStack

/-- The stack of the global map only, without symbols. -/
def empty : NameStack := ⟨[], ∅, fun _ => none, 0⟩

/-- **What a stack answers.** A scope is a map on the stack, the global one stays; a definition
overwrites in the map on top, and the innermost binding counts. -/
def respond (n : NameStack) : TableOp → TableAnswer × NameStack
  | .enter => (.done, { n with inner := ∅ :: n.inner })
  | .exit => (.done, { n with inner := n.inner.tail })
  | .define s =>
    let id : SymbolId := ⟨n.count⟩
    let n := { n with store := Function.update n.store id (some s), count := n.count + 1 }
    match n.inner with
    | [] => (.defined id, { n with global := n.global.insert s.name id })
    | top :: rest => (.defined id, { n with inner := top.insert s.name id :: rest })
  | .modify id f => (.done, { n with store := Function.update n.store id ((n.store id).map f) })
  | .lookup name => (.found ((n.inner ++ [n.global]).findSome? fun m => m.lookup name), n)
  | .lookupLocal name => (.found ((n.inner.headD n.global).lookup name), n)
  | .isGlobalScope => (.global n.inner.isEmpty, n)
  | .globals => (.symbols (n.global.entries.filterMap fun b => n.store b.2), n)
  | .get id => (.symbol (n.store id), n)

/-- An operation on a stack always has an answer. -/
def act (op : TableOp) (n : NameStack) : Option (TableAnswer × NameStack) := some (n.respond op)

end NameStack

namespace Scope

/-- **The scope lists the bindings of a finite map**, each of them once. -/
structure Lists (s : Scope) (m : NameMap) : Prop where
  /-- No name is bound twice. -/
  nodup : (s.map Prod.fst).Nodup
  /-- The names are bound to the same symbols. -/
  lookup : ∀ name, m.lookup name = s.find? name

variable {s : Scope} {m : NameMap}

theorem lists_empty : Lists [] ∅ := ⟨List.nodup_nil, fun _ => Finmap.lookup_empty _⟩

theorem Lists.bind (h : s.Lists m) (name : String) (id : SymbolId) :
    (s.bind name id).Lists (m.insert name id) where
  nodup := by
    rw [Scope.bind, List.map_cons, List.nodup_cons]
    refine ⟨fun hmem => ?_, h.nodup.sublist (List.filter_sublist.map _)⟩
    obtain ⟨b, hb, hname⟩ := List.mem_map.mp hmem
    simp [hname] at hb
  lookup x := by
    rw [find?_bind]
    by_cases hx : x = name
    · rw [hx, Finmap.lookup_insert, if_pos rfl]
    · rw [Finmap.lookup_insert_of_ne _ hx, if_neg hx, h.lookup]

/-- A scope without a name bound twice is a finite map. -/
def toMap (s : Scope) (h : (s.map Prod.fst).Nodup) : NameMap :=
  ⟨(s.map fun b => (⟨b.1, b.2⟩ : Sigma fun _ : String => SymbolId)), by
    rw [Multiset.coe_nodupKeys, List.NodupKeys, List.keys, List.map_map]
    exact h⟩

theorem lookup_toMap (h : (s.map Prod.fst).Nodup) (name : String) :
    (s.toMap h).lookup name = s.find? name := by
  change List.dlookup name (s.map fun b => (⟨b.1, b.2⟩ : Sigma fun _ : String => SymbolId)) =
    List.lookup name s
  clear h
  induction s with
  | nil => rfl
  | cons b s ih =>
    rw [List.map_cons, List.lookup_cons]
    by_cases hb : b.1 = name
    · subst hb
      simp
    · rw [List.dlookup_cons_ne _ _ (Ne.symm hb), ih, beq_false_of_ne (Ne.symm hb)]

/-- The bindings of the map are those of the scope. -/
theorem Lists.entries (h : s.Lists m) :
    m.entries = (s.map fun b => (⟨b.1, b.2⟩ : Sigma fun _ : String => SymbolId)) := by
  have hm : m = s.toMap h.nodup :=
    Finmap.ext_lookup fun x => (h.lookup x).trans (lookup_toMap h.nodup x).symm
  rw [hm]
  rfl

end Scope

namespace SymbolTable

/-- **The table shows the stack**: its scopes list the maps, and its symbols are those of the
store. -/
structure Shows (t : SymbolTable) (n : NameStack) : Prop where
  /-- The scopes inside the global one list the maps over the global one. -/
  inner : List.Forall₂ Scope.Lists t.locals n.inner
  /-- The global scope lists the global map. -/
  global : t.global.Lists n.global
  /-- The symbols are those of the store. -/
  store : ∀ id, n.store id = t.get? id
  /-- The ids were given one after the other. -/
  count : n.count = t.symbols.size

variable {t : SymbolTable} {n : NameStack}

theorem shows_empty : SymbolTable.empty.Shows .empty := ⟨.nil, Scope.lists_empty, fun _ => rfl, rfl⟩

/-- What a name is bound to in scopes and in the maps that they list. -/
theorem findSome?_lists {ss : List Scope} {ms : List NameMap} (h : List.Forall₂ Scope.Lists ss ms)
    (name : String) :
    ms.findSome? (fun m => m.lookup name) = ss.findSome? fun s => s.find? name := by
  induction h with
  | nil => rfl
  | cons h _ ih => rw [List.findSome?_cons, List.findSome?_cons, h.lookup, ih]

theorem headD_lists {ss : List Scope} {ms : List NameMap} {s : Scope} {m : NameMap}
    (h : List.Forall₂ Scope.Lists ss ms) (hs : s.Lists m) : (ss.headD s).Lists (ms.headD m) := by
  cases h with
  | nil => exact hs
  | cons h _ => exact h

theorem tail_lists {ss : List Scope} {ms : List NameMap} (h : List.Forall₂ Scope.Lists ss ms) :
    List.Forall₂ Scope.Lists ss.tail ms.tail := by
  cases h with
  | nil => exact .nil
  | cons _ h => exact h

theorem isEmpty_lists {ss : List Scope} {ms : List NameMap} (h : List.Forall₂ Scope.Lists ss ms) :
    ms.isEmpty = ss.isEmpty := by
  cases h <;> rfl

theorem get?_define (t : SymbolTable) (s : Symbol) (id : SymbolId) :
    (t.define s).2.get? id = if id = ⟨t.symbols.size⟩ then some s else t.get? id := by
  rw [get?, symbols_define, Array.getElem?_push, get?]
  by_cases h : id = ⟨t.symbols.size⟩
  · rw [if_pos h, if_pos (congrArg SymbolId.index h)]
  · rw [if_neg h, if_neg fun hi => h (congrArg SymbolId.mk hi)]

theorem Shows.define (h : t.Shows n) (s : Symbol) :
    (t.define s).1 = ⟨n.count⟩ ∧ (t.define s).2.Shows (n.respond (.define s)).2 ∧
      (n.respond (.define s)).1 = .defined ⟨n.count⟩ := by
  have hstore : ∀ id, Function.update n.store ⟨n.count⟩ (some s) id = (t.define s).2.get? id := by
    intro id
    rw [get?_define, Function.update_apply, h.count, h.store]
  have hcount : n.count + 1 = (t.define s).2.symbols.size := by
      rw [symbols_define, Array.size_push, h.count]
  obtain ⟨hinner, hglobal, -, hsize⟩ := h
  obtain ⟨symbols, locals, global⟩ := t
  obtain ⟨inner, globalMap, store, count⟩ := n
  cases hinner with
  | nil =>
    refine ⟨congrArg SymbolId.mk hsize.symm, ⟨.nil, ?_, hstore, hcount⟩, rfl⟩
    change Scope.Lists _ (globalMap.insert s.name ⟨count⟩)
    rw [show count = symbols.size from hsize]
    exact hglobal.bind s.name _
  | cons htop hrest =>
    refine ⟨congrArg SymbolId.mk hsize.symm, ⟨.cons ?_ hrest, hglobal, hstore, hcount⟩, rfl⟩
    rw [show count = symbols.size from hsize]
    exact htop.bind s.name _

theorem Shows.modify (h : t.Shows n) (id : SymbolId) (f : Symbol → Symbol) :
    (t.modify id f).Shows (n.respond (.modify id f)).2 where
  inner := h.inner
  global := h.global
  store i := by
    rw [get?_modify]
    change Function.update n.store id ((n.store id).map f) i = _
    rw [Function.update_apply, h.store, h.store]
    split <;> simp_all
  count := by
    change n.count = (t.symbols.modify id.index f).size
    rw [Array.size_modify, h.count]

theorem Shows.globals (h : t.Shows n) :
    (t.globals : Multiset Symbol) = n.global.entries.filterMap fun b => n.store b.2 := by
  have hperm : (t.global.mergeSort fun a b => a.1 ≤ b.1).Perm t.global := List.mergeSort_perm _ _
  have hstore : (fun b : String × SymbolId => n.store b.2) = fun b => t.get? b.2 :=
    funext fun b => h.store b.2
  rw [h.global.entries, Multiset.filterMap_coe, List.filterMap_map, Multiset.coe_eq_coe]
  change (t.global.mergeSort _).filterMap _ |>.Perm (t.global.filterMap fun b => n.store b.2)
  rw [hstore]
  exact hperm.filterMap _

/-- **A symbol table answers as the stack does that it shows.** -/
theorem simulates : Simulates Shows act NameStack.act := by
  intro op t n h
  have hlookup : ∀ name,
      ((n.inner ++ [n.global]).findSome? fun m => m.lookup name) = t.lookup? name := fun name =>
    findSome?_lists (List.rel_append h.inner (.cons h.global .nil)) name
  have hlocal : ∀ name, (n.inner.headD n.global).lookup name = t.lookupLocal? name := fun name =>
    (headD_lists h.inner h.global).lookup name
  have hglobal : n.inner.isEmpty = t.isGlobalScope := isEmpty_lists h.inner
  cases op with
  | enter => exact ⟨_, _, _, rfl, rfl, .cons Scope.lists_empty h.inner, h.global, h.store, h.count⟩
  | exit => exact ⟨_, _, _, rfl, rfl, tail_lists h.inner, h.global, h.store, h.count⟩
  | define s =>
    obtain ⟨hid, hshows, hanswer⟩ := h.define s
    refine ⟨.defined ⟨n.count⟩, _, _, ?_, ?_, hshows⟩
    · rw [act, respond, hid]
    · rw [NameStack.act, ← hanswer]
  | modify id f => exact ⟨_, _, _, rfl, rfl, h.modify id f⟩
  | lookup name => exact ⟨_, t, n, rfl, by rw [NameStack.act, NameStack.respond, hlookup], h⟩
  | lookupLocal name => exact ⟨_, t, n, rfl, by rw [NameStack.act, NameStack.respond, hlocal], h⟩
  | isGlobalScope => exact ⟨_, t, n, rfl, by rw [NameStack.act, NameStack.respond, hglobal], h⟩
  | globals => exact ⟨_, t, n, rfl, by rw [NameStack.act, NameStack.respond, h.globals], h⟩
  | get id => exact ⟨_, t, n, rfl, by rw [NameStack.act, NameStack.respond, h.store], h⟩

end SymbolTable

/-! ### What a session tells of symbols -/

namespace TableEvent

/-- What an operation does to the symbol with an id: it is defined or changed by its id, or nothing
is done to it. -/
def change (id : SymbolId) (s? : Option Symbol) : TableEvent → Option Symbol
  | (.define s, .defined i) => if i = id then some s else s?
  | (.modify i f, _) => if i = id then s?.map f else s?
  | _ => s?

/-- **What a session tells of the symbol with an id**, given what was known of it before. -/
def dataOf (id : SymbolId) (s? : Option Symbol) (events : List TableEvent) : Option Symbol :=
  events.foldl (change id) s?

/-- The ids that were given to new symbols, in order. -/
def definedIds (events : List TableEvent) : List SymbolId :=
  events.filterMap fun
    | (.define _, .defined id) => some id
    | _ => none

end TableEvent

namespace NameStack

open TableEvent

/-- **What a session tells of the ids and of the store**: the new symbols have the next ids, in
order, and each symbol is what was defined and changed by its id. -/
structure Told (n : NameStack) (events : List TableEvent) (n' : NameStack) : Prop where
  /-- A symbol is what was defined and changed by its id. -/
  store : ∀ id, n'.store id = dataOf id (n.store id) events
  /-- The ids were given one after the other. -/
  ids : definedIds events = (List.range' n.count (n'.count - n.count)).map SymbolId.mk
  /-- No id was taken back. -/
  count_le : n.count ≤ n'.count

theorem Told.refl (n : NameStack) : n.Told [] n :=
  ⟨fun _ => rfl, by simp [definedIds], Nat.le_refl _⟩

theorem Told.trans {n n' n'' : NameStack} {events events' : List TableEvent} (h : n.Told events n')
    (h' : n'.Told events' n'') : n.Told (events ++ events') n'' where
  store id := by
    rw [h'.store, h.store, dataOf, dataOf, dataOf, List.foldl_append]
  ids := by
    have hfirst := h.ids
    have hrest := h'.ids
    have hcount : n''.count - n.count = (n'.count - n.count) + (n''.count - n'.count) := by
      have hle := h.count_le
      have hle' := h'.count_le
      omega
    have hstart : n'.count = n.count + 1 * (n'.count - n.count) := by
      have hle := h.count_le
      omega
    rw [definedIds, List.filterMap_append, ← definedIds, ← definedIds, hfirst, hrest,
      hcount, ← List.range'_append, List.map_append, ← hstart]
  count_le := Nat.le_trans h.count_le h'.count_le

/-- One operation gives the next id to a new symbol, and does nothing to a symbol without its id. -/
theorem told_respond (n : NameStack) (op : TableOp) :
    n.Told [(op, (n.respond op).1)] (n.respond op).2 := by
  cases op with
  | define s =>
    obtain ⟨inner, global, store, count⟩ := n
    have hupdate : ∀ id, Function.update store ⟨count⟩ (some s) id =
        if (⟨count⟩ : SymbolId) = id then some s else store id := by
      intro id
      rw [Function.update_apply]
      simp only [eq_comm]
    cases inner with
    | nil => exact ⟨hupdate, by simp [respond, definedIds], Nat.le_succ count⟩
    | cons top rest => exact ⟨hupdate, by simp [respond, definedIds], Nat.le_succ count⟩
  | modify id f =>
    refine ⟨fun i => ?_, by simp [respond, definedIds], Nat.le_refl _⟩
    change Function.update n.store id ((n.store id).map f) i =
      if id = i then (n.store i).map f else n.store i
    rw [Function.update_apply]
    by_cases hi : i = id
    · rw [if_pos hi, if_pos hi.symm, hi]
    · rw [if_neg hi, if_neg (Ne.symm hi)]
  | _ => exact ⟨fun _ => rfl, by simp [respond, definedIds], Nat.le_refl _⟩

/-- **A whole session tells of the ids and of the store.** -/
theorem told_run (w : TableWork) {n n' : NameStack} {events : List TableEvent} {succeeded : Bool}
    (h : w.run act n = some ⟨events, succeeded, n'⟩) : n.Told events n' := by
  induction w generalizing n n' events succeeded with
  | succeed =>
    cases h
    exact .refl n
  | fail =>
    cases h
    exact .refl n
  | ask op next ih =>
    simp only [TableWork.run, act, Option.bind_eq_bind, Option.bind_some] at h
    obtain ⟨⟨events₁, succeeded₁, n₁⟩, hrest, h⟩ := Option.bind_eq_some_iff.mp h
    cases h
    exact (told_respond n op).trans (ih _ hrest)
  | inScope body next ihbody ihnext =>
    simp only [TableWork.run, act, Option.bind_eq_bind, Option.bind_some] at h
    obtain ⟨⟨events₁, succeeded₁, n₁⟩, hbody, h⟩ := Option.bind_eq_some_iff.mp h
    obtain ⟨⟨events₂, succeeded₂, n₂⟩, hrest, h⟩ := Option.bind_eq_some_iff.mp h
    cases h
    -- Neither the scope that is opened nor the one that is left touches the store.
    have hinner : n.Told events₁ n₁ :=
      ⟨(ihbody hbody).store, (ihbody hbody).ids, (ihbody hbody).count_le⟩
    have houter : n₁.Told events₂ n₂ :=
      ⟨(ihnext _ hrest).store, (ihnext _ hrest).ids, (ihnext _ hrest).count_le⟩
    exact hinner.trans houter

end NameStack

end PostfixCompiler
