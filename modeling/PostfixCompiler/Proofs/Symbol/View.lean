import PostfixCompiler.Symbol.Table

/-!
# What names stand for

The passes ask a symbol table one question only, what a name stands for. A **view** of a table is
its answer to that question, with as much of a symbol kept as the passes need to know. Opening a
scope leaves the view as it is, a definition binds one name in it, and what was bound in a scope is
gone when the scope is closed.

The tables of a run never lose a symbol. Between two moments the symbols of the earlier one may
change in a way that a relation `r` describes – the checker settles the type of a function, the
writer changes nothing – so the statements here are about any such relation.

## Main definitions

* `PostfixCompiler.View`, `PostfixCompiler.View.bind`, `PostfixCompiler.SymbolTable.view`.
* `PostfixCompiler.SymbolTable.Closed`: every binding leads to a symbol of that name.
* `PostfixCompiler.SymbolTable.Inner`: what work does that only binds names in the innermost scope.
* `PostfixCompiler.SymbolTable.Outer`: what work does that leaves all scopes as they were.

## Main statements

* `PostfixCompiler.SymbolTable.view_define`, `PostfixCompiler.SymbolTable.Outer.view_eq`.
* `PostfixCompiler.SymbolTable.Inner.exit`: closing the scope in which work was done undoes its
  bindings.
-/

namespace PostfixCompiler

/-- What names stand for. -/
abbrev View (β : Type) := String → Option β

namespace View

variable {β : Type}

/-- A name stands for something else from now on. -/
def bind (v : View β) (name : String) (b : β) : View β := fun x => if x = name then some b else v x

theorem bind_self (v : View β) (name : String) (b : β) : v.bind name b name = some b := by
  rw [bind, if_pos rfl]

theorem bind_ne (v : View β) {name x : String} (b : β) (h : x ≠ name) : v.bind name b x = v x := by
  rw [bind, if_neg h]

/-- The last meaning of a name counts. -/
theorem bind_bind (v : View β) (name : String) (b c : β) :
    (v.bind name b).bind name c = v.bind name c := by
  funext x
  by_cases h : x = name
  · rw [h, bind_self, bind_self]
  · rw [bind_ne _ _ h, bind_ne _ _ h, bind_ne _ _ h]

/-- A name that stands for something goes on standing for it. -/
theorem bind_eq_self {v : View β} {name : String} {b : β} (h : v name = some b) :
    v.bind name b = v := by
  funext x
  by_cases hx : x = name
  · rw [hx, bind_self, h]
  · rw [bind_ne _ _ hx]

/-- One view knows all that another one knows. -/
def Le (v w : View β) : Prop := ∀ (x : String) (b : β), v x = some b → w x = some b

theorem Le.refl (v : View β) : v.Le v := fun _ _ h => h

theorem Le.trans {u v w : View β} (h : u.Le v) (h' : v.Le w) : u.Le w :=
  fun x b hx => h' x b (h x b hx)

theorem Le.bind {v w : View β} (h : v.Le w) (name : String) (b : β) :
    (v.bind name b).Le (w.bind name b) := by
  intro x c hx
  by_cases hn : x = name
  · rw [View.bind, if_pos hn] at hx ⊢
    exact hx
  · rw [bind_ne _ _ hn] at hx ⊢
    exact h x c hx

/-- A name that was unknown is bound without loss. -/
theorem le_bind {v : View β} {name : String} (h : v name = none) (b : β) :
    v.Le (v.bind name b) := by
  intro x c hx
  rw [bind_ne]
  · exact hx
  · rintro rfl
    rw [h] at hx
    cases hx

end View

/-! ### Scopes -/

/-- Where entries are dropped by their names, those of a name are all kept or all dropped. -/
theorem lookup_filter {β : Type} (keeps : String → Bool)
    (entries : List (String × β)) (x : String) :
    (entries.filter fun entry => keeps entry.1).lookup x =
      if keeps x then entries.lookup x else none := by
  induction entries with
  | nil => simp
  | cons entry entries ih =>
    obtain ⟨y, b⟩ := entry
    rw [List.filter_cons, List.lookup_cons]
    by_cases hx : x = y
    · subst hx
      cases hkeeps : keeps x
      · rw [hkeeps] at ih
        exact ih
      · simp
    · rw [beq_false_of_ne hx, ← ih]
      split
      · rw [List.lookup_cons, beq_false_of_ne hx]
      · rfl

namespace Scope

theorem find?_bind (s : Scope) (name : String) (id : SymbolId) (x : String) :
    (s.bind name id).find? x = if x = name then some id else s.find? x := by
  unfold find? bind
  rw [List.lookup_cons]
  by_cases h : x = name
  · simp [h]
  · rw [beq_false_of_ne h, if_neg h]
    exact (lookup_filter (fun y => y ≠ name) s x).trans (if_pos (decide_eq_true h))

/-- A name is bound to a symbol that some binding names. -/
theorem mem_of_find? {s : Scope} {name : String} {id : SymbolId} (h : s.find? name = some id) :
    (name, id) ∈ s := by
  induction s with
  | nil => cases h
  | cons b s ih =>
    rw [find?, List.lookup_cons] at h
    split at h
    · rename_i hb
      cases h
      rw [eq_of_beq hb]
      exact List.mem_cons_self
    · exact List.mem_cons_of_mem b (ih h)

end Scope

namespace SymbolTable

/-! ### Views -/

variable {β : Type} {r : Symbol → Symbol → Prop}

/-- **What the names in scope stand for**, with `f` kept of each symbol. -/
def view (t : SymbolTable) (f : Symbol → β) : View β :=
  fun name => (t.resolve? name).map fun p => f p.2

/-- Every binding leads to a symbol of that name. -/
def Closed (t : SymbolTable) : Prop :=
  ∀ scope ∈ t.scopes, ∀ b ∈ scope, ∃ s, t.get? b.2 = some s ∧ s.name = b.1

theorem closed_empty : empty.Closed := by
  simp [Closed, scopes, empty]

theorem Closed.exists_symbol {t : SymbolTable} (h : t.Closed) {name : String} {id : SymbolId}
    (hid : t.lookup? name = some id) : ∃ s, t.get? id = some s ∧ s.name = name := by
  obtain ⟨scope, hscope, hfind⟩ := List.exists_of_findSome?_eq_some hid
  exact h scope hscope _ (Scope.mem_of_find? hfind)

theorem index_lt {t : SymbolTable} {id : SymbolId} {s : Symbol} (h : t.get? id = some s) :
    id.index < t.symbols.size :=
  (Array.getElem?_eq_some_iff.mp h).1

/-- What a name stands for, by way of the symbol that it is bound to. -/
theorem view_of_lookup {t : SymbolTable} (h : t.Closed) (f : Symbol → β) {name : String}
    {id : SymbolId} (hid : t.lookup? name = some id) :
    ∃ s, t.get? id = some s ∧ t.view f name = some (f s) := by
  obtain ⟨s, hs, -⟩ := h.exists_symbol hid
  exact ⟨s, hs, by simp [view, resolve?, hid, hs]⟩

/-- A name stands for a symbol of that name. -/
theorem Closed.name_eq {t : SymbolTable} (h : t.Closed) {name : String} {s : Symbol}
    (hs : t.view id name = some s) : s.name = name := by
  obtain ⟨⟨i, s'⟩, hres, rfl⟩ := Option.map_eq_some_iff.mp hs
  obtain ⟨i', hi, hres⟩ := Option.bind_eq_some_iff.mp hres
  obtain ⟨s'', hs'', hres⟩ := Option.bind_eq_some_iff.mp hres
  cases hres
  obtain ⟨u, hu, hname⟩ := h.exists_symbol hi
  cases hs''.symm.trans hu
  exact hname

theorem view_of_lookup_none {t : SymbolTable} (f : Symbol → β) {name : String}
    (h : t.lookup? name = none) : t.view f name = none := by
  simp [view, resolve?, h]

/-- The symbol behind a name, as the view shows it. -/
theorem view_of_resolve {t : SymbolTable} (f : Symbol → β) {name : String} {id : SymbolId}
    {s : Symbol} (h : t.resolve? name = some (id, s)) : t.view f name = some (f s) := by
  rw [view, h, Option.map_some]

theorem get_of_resolve {t : SymbolTable} {name : String} {id : SymbolId} {s : Symbol}
    (h : t.resolve? name = some (id, s)) : t.get? id = some s := by
  obtain ⟨i, _, h⟩ := Option.bind_eq_some_iff.mp h
  obtain ⟨u, hu, h⟩ := Option.bind_eq_some_iff.mp h
  cases h
  exact hu

theorem exists_resolve_of_view {t : SymbolTable} {f : Symbol → β} {name : String} {b : β}
    (h : t.view f name = some b) : ∃ id s, t.resolve? name = some (id, s) ∧ f s = b := by
  obtain ⟨⟨id, s⟩, hs, hb⟩ := Option.map_eq_some_iff.mp h
  exact ⟨id, s, hs, hb⟩

/-! ### What the operations do to views -/

theorem lookup?_enter (t : SymbolTable) (name : String) :
    t.enter.lookup? name = t.lookup? name := by
  rw [lookup?, lookup?, enter, scopes, scopes, List.cons_append, List.findSome?_cons]
  rfl

theorem view_enter (t : SymbolTable) (f : Symbol → β) : t.enter.view f = t.view f := by
  funext name
  rw [view, view, resolve?, resolve?, lookup?_enter]
  rfl

theorem Closed.enter {t : SymbolTable} (h : t.Closed) : t.enter.Closed := by
  intro s hs b hb
  rcases List.mem_cons.mp hs with rfl | hs
  · cases hb
  · exact h s hs b hb

theorem lookup?_define (t : SymbolTable) (s : Symbol) (name : String) :
    (t.define s).2.lookup? name =
      if name = s.name then some ⟨t.symbols.size⟩ else t.lookup? name := by
  unfold define lookup? scopes
  rcases t with ⟨symbols, locals, global⟩
  cases locals with
  | nil =>
    simp only [List.nil_append, List.findSome?_cons, List.findSome?_nil, Scope.find?_bind]
    by_cases h : name = s.name
    · rw [if_pos h, if_pos h]
    · rw [if_neg h, if_neg h]
  | cons scope rest =>
    simp only [List.cons_append, List.findSome?_cons, Scope.find?_bind]
    by_cases h : name = s.name
    · rw [if_pos h, if_pos h]
    · rw [if_neg h, if_neg h]

theorem symbols_define (t : SymbolTable) (s : Symbol) :
    (t.define s).2.symbols = t.symbols.push s := by
  rcases t with ⟨symbols, _ | _, global⟩ <;> rfl

theorem get?_define_self (t : SymbolTable) (s : Symbol) :
    (t.define s).2.get? ⟨t.symbols.size⟩ = some s := by
  rw [get?, symbols_define, Array.getElem?_push_size]

theorem get?_define_lt (t : SymbolTable) (s : Symbol) {id : SymbolId}
    (h : id.index < t.symbols.size) : (t.define s).2.get? id = t.get? id := by
  rw [get?, get?, symbols_define, Array.getElem?_push_lt h, Array.getElem?_eq_getElem h]

/-- **A definition binds its name**, and nothing else. -/
theorem view_define {t : SymbolTable} (h : t.Closed) (f : Symbol → β) (s : Symbol) :
    (t.define s).2.view f = (t.view f).bind s.name (f s) := by
  funext name
  by_cases hn : name = s.name
  · rw [View.bind, if_pos hn, view, resolve?, lookup?_define, if_pos hn]
    simp [get?_define_self]
  · rw [View.bind_ne _ _ hn, view, view, resolve?, resolve?, lookup?_define, if_neg hn]
    cases hid : t.lookup? name with
    | none => rfl
    | some id =>
      obtain ⟨_, hs, -⟩ := h.exists_symbol hid
      simp [get?_define_lt t s (index_lt hs)]

theorem Closed.define {t : SymbolTable} (h : t.Closed) (s : Symbol) : (t.define s).2.Closed := by
  intro scope hscope b hb
  have hold : ∀ sc ∈ t.scopes, ∀ b ∈ sc, ∃ s', (t.define s).2.get? b.2 = some s' ∧
      s'.name = b.1 := by
    intro sc hsc b hb
    obtain ⟨s', hs', hname⟩ := h sc hsc b hb
    exact ⟨s', (get?_define_lt t s (index_lt hs')).trans hs', hname⟩
  have hbind : ∀ sc ∈ t.scopes, ∀ b ∈ sc.bind s.name ⟨t.symbols.size⟩,
      ∃ s', (t.define s).2.get? b.2 = some s' ∧ s'.name = b.1 := by
    intro sc hsc b hb
    rcases List.mem_cons.mp hb with rfl | hb
    · exact ⟨s, get?_define_self t s, rfl⟩
    · exact hold sc hsc b (List.mem_filter.mp hb).1
  rcases t with ⟨symbols, locals, global⟩
  cases locals with
  | nil =>
    rcases List.mem_singleton.mp hscope with rfl
    exact hbind global (by simp [scopes]) b hb
  | cons first rest =>
    rcases List.mem_cons.mp hscope with rfl | hscope
    · exact hbind first (by simp [scopes]) b hb
    · exact hold scope (List.mem_cons_of_mem _ hscope) b hb

/-! ### Work on a table -/

/-- Every symbol is still there, changed at most as `r` allows. -/
def Keeps (r : Symbol → Symbol → Prop) (t u : SymbolTable) : Prop :=
  ∀ (id : SymbolId) (s : Symbol), t.get? id = some s → ∃ s', u.get? id = some s' ∧ r s s'

/-- **Work that leaves all scopes as they were.** -/
structure Outer (r : Symbol → Symbol → Prop) (t u : SymbolTable) : Prop where
  /-- No symbol is lost. -/
  keeps : Keeps r t u
  /-- The scopes inside the global one are those that there were. -/
  locals : u.locals = t.locals
  /-- The global scope is what it was. -/
  global : u.global = t.global

/-- **Work that binds names in the innermost scope only**, which is not the global one. -/
structure Inner (r : Symbol → Symbol → Prop) (t u : SymbolTable) : Prop where
  /-- No symbol is lost. -/
  keeps : Keeps r t u
  /-- There is a scope inside the global one. -/
  local_ne : u.locals ≠ []
  /-- The scopes around the innermost one are those that there were. -/
  tail : u.locals.tail = t.locals.tail
  /-- The global scope is what it was. -/
  global : u.global = t.global

theorem Keeps.refl (hr : ∀ s, r s s) (t : SymbolTable) : Keeps r t t := fun _ s h => ⟨s, h, hr s⟩

theorem Keeps.trans (hr : ∀ a b c, r a b → r b c → r a c) {t u v : SymbolTable} (h : Keeps r t u)
    (h' : Keeps r u v) : Keeps r t v := by
  intro id s hs
  obtain ⟨s', hs', h₁⟩ := h id s hs
  obtain ⟨s'', hs'', h₂⟩ := h' id s' hs'
  exact ⟨s'', hs'', hr s s' s'' h₁ h₂⟩

/-- Work that leaves all scopes as they were leaves the table closed, if symbols keep their
names. -/
theorem Outer.closed (hr : ∀ {a b}, r a b → b.name = a.name) {t u : SymbolTable} (h : Outer r t u)
    (ht : t.Closed) : u.Closed := by
  intro scope hscope b hb
  rw [scopes, h.locals, h.global] at hscope
  obtain ⟨s, hs, hname⟩ := ht scope hscope b hb
  obtain ⟨s', hs', hrs⟩ := h.keeps b.2 s hs
  exact ⟨s', hs', (hr hrs).trans hname⟩

/-- **Work that leaves all scopes as they were leaves the view as it was**, if the view does not see
what changes in a symbol. -/
theorem Outer.view_eq {t u : SymbolTable} (h : Outer r t u) (ht : t.Closed) {f : Symbol → β}
    (hf : ∀ a b, r a b → f b = f a) : u.view f = t.view f := by
  funext name
  have hl : u.lookup? name = t.lookup? name := by
    rw [lookup?, lookup?, scopes, scopes, h.locals, h.global]
  cases hid : t.lookup? name with
  | none => rw [view_of_lookup_none f hid, view_of_lookup_none f (hl.trans hid)]
  | some id =>
    obtain ⟨s, hs, hv⟩ := view_of_lookup ht f hid
    obtain ⟨s', hs', hr⟩ := h.keeps id s hs
    rw [hv]
    simp [view, resolve?, hl, hid, hs', hf s s' hr]

/-- Work on names inside a scope of its own binds nothing outside. -/
theorem Inner.exit {t u : SymbolTable} (h : Inner r t.enter u) : Outer r t u.exit where
  keeps := h.keeps
  locals := h.tail
  global := h.global

theorem Inner.refl (hr : ∀ s, r s s) {t : SymbolTable} (h : t.locals ≠ []) : Inner r t t :=
  ⟨.refl hr t, h, rfl, rfl⟩

theorem Inner.trans (hr : ∀ a b c, r a b → r b c → r a c) {t u v : SymbolTable} (h : Inner r t u)
    (h' : Inner r u v) : Inner r t v :=
  ⟨h.keeps.trans hr h'.keeps, h'.local_ne, h'.tail.trans h.tail, h'.global.trans h.global⟩

theorem Outer.refl (hr : ∀ s, r s s) (t : SymbolTable) : Outer r t t := ⟨.refl hr t, rfl, rfl⟩

theorem Outer.trans (hr : ∀ a b c, r a b → r b c → r a c) {t u v : SymbolTable} (h : Outer r t u)
    (h' : Outer r u v) : Outer r t v :=
  ⟨h.keeps.trans hr h'.keeps, h'.locals.trans h.locals, h'.global.trans h.global⟩

/-- Inside a scope, work that leaves the scopes as they were binds nothing outside of the
innermost. -/
theorem Outer.inner {t u : SymbolTable} (h : Outer r t u) (ht : t.locals ≠ []) : Inner r t u :=
  ⟨h.keeps, h.locals ▸ ht, by rw [h.locals], h.global⟩

/-- Inside a scope, a definition binds its name in the innermost one. -/
theorem inner_define (hr : ∀ s, r s s) {t : SymbolTable} (h : t.locals ≠ []) (s : Symbol) :
    Inner r t (t.define s).2 := by
  refine ⟨fun id s' hs => ?_, ?_, ?_, ?_⟩
  · refine ⟨s', ?_, hr s'⟩
    rw [get?_define_lt t s (Array.getElem?_eq_some_iff.mp hs).1]
    exact hs
  all_goals
    rcases t with ⟨symbols, locals, global⟩
    cases locals with
    | nil => exact absurd rfl h
    | cons scope rest => simp [define]

/-! ### Changed symbols -/

theorem get?_modify (t : SymbolTable) (id i : SymbolId) (f : Symbol → Symbol) :
    (t.modify id f).get? i = if i = id then (t.get? i).map f else t.get? i := by
  rw [get?, get?, modify, Array.getElem?_modify]
  by_cases h : i = id
  · rw [if_pos h, if_pos (congrArg SymbolId.index h.symm)]
  · have hne : id.index ≠ i.index := fun hi => h (congrArg SymbolId.mk hi.symm)
    rw [if_neg h, if_neg hne]

/-- A change that is allowed for every symbol leaves all scopes as they were. -/
theorem outer_modify_of_forall (hr : ∀ s, r s s) {f : Symbol → Symbol} (hf : ∀ s, r s (f s))
    (t : SymbolTable) (id : SymbolId) : Outer r t (t.modify id f) := by
  refine ⟨fun i s hs => ?_, rfl, rfl⟩
  rw [get?_modify, hs]
  split
  · exact ⟨f s, rfl, hf s⟩
  · exact ⟨s, rfl, hr s⟩

/-- To change one symbol is to leave all scopes as they were. -/
theorem outer_modify (hr : ∀ s, r s s) {t : SymbolTable} {id : SymbolId} {s : Symbol}
    {f : Symbol → Symbol} (h : t.get? id = some s) (hf : r s (f s)) :
    Outer r t (t.modify id f) := by
  refine ⟨fun i s' hs' => ?_, rfl, rfl⟩
  rw [get?_modify]
  split
  · rename_i heq
    rw [heq, h] at hs'
    cases hs'
    exact ⟨f s, by rw [heq, h, Option.map_some], hf⟩
  · exact ⟨s', hs', hr s'⟩

end SymbolTable

end PostfixCompiler
