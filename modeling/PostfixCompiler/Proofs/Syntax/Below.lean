import PostfixCompiler.Proofs.Syntax.Valid

/-!
# The phrase of a node and the nodes below it

The phrase of a node is made when the node is read, from the phrases of its children, and these were
read before. So it depends on the nodes below it only: in two trees in which **the nodes of a phrase
are the same**, under the same ids, the phrase is the same, whatever other nodes stand around it.

This says what it is for one unit to begin another one, by the nodes alone: the program of the
second unit lists the declarations of the first one and then others, and the nodes of the first ones
are what they were. Then the declarations of the second unit are those of the first one and others
behind them.

## Main definitions

* `PostfixCompiler.Forest.Reads`: phrases are those of some nodes, each made from the phrases before
  it.
* `PostfixCompiler.SyntaxTree.InitialIn`: one unit begins another one.

## Main statements

* `PostfixCompiler.Forest.phrase_congr`: the phrase of a node depends on those of its children.
* `PostfixCompiler.SyntaxTree.phrase_eq`: the phrase of a node depends on the nodes below it.
* `PostfixCompiler.SyntaxTree.InitialIn.exists_append`: the declarations of a unit that begins
  another one.
-/

namespace PostfixCompiler

namespace Forest

variable {α : Type} {phrases phrases' : Array Phrase}

/-! ### Phrases and children -/

section Children

variable {id : NodeId} {position : Position} {as? : Phrase → Option α}

theorem expect_congr {child : NodeId} (h : phrases'[child.index]? = phrases[child.index]?) :
    expect phrases' id position as? child = expect phrases id position as? child := by
  rw [expect, expect, h]

theorem expectOption_congr {child : Option NodeId}
    (h : ∀ c ∈ child.toList, phrases'[c.index]? = phrases[c.index]?) :
    expectOption phrases' id position as? child = expectOption phrases id position as? child := by
  cases child with
  | none => rfl
  | some c => rw [expectOption, expectOption, expect_congr (h c (by simp))]

theorem expectAll_congr {children : List NodeId}
    (h : ∀ c ∈ children, phrases'[c.index]? = phrases[c.index]?) :
    expectAll phrases' id position as? children = expectAll phrases id position as? children := by
  unfold expectAll
  induction children with
  | nil => rfl
  | cons c cs ih =>
    rw [List.forall_mem_cons] at h
    rw [List.mapM_cons, List.mapM_cons, expect_congr h.1, ih h.2]

/-- What a child is does not depend on who asks. -/
theorem expect_eq_ok {child : NodeId} {a : α} :
    expect phrases id position as? child = .ok a ↔ phrases[child.index]?.bind as? = some a := by
  unfold expect
  cases phrases[child.index]?.bind as? <;> simp

end Children

/-- **The phrase of a node depends on the phrases of its children.** -/
theorem phrase_congr {site : Site} {k : Kind}
    (h : ∀ c ∈ k.children, phrases'[c.index]? = phrases[c.index]?) :
    phrase phrases' site k = phrase phrases site k := by
  cases k with
  | integer | double | string | nullptr | input | «variable» | «break» | «continue» => rfl
  | program cs | functionDeclaration _ _ _ cs | write cs | tuple cs | functionCall _ cs =>
    have hcs : ∀ c ∈ cs, phrases'[c.index]? = phrases[c.index]? := h
    simp only [phrase, expectAll_congr hcs]
  | variableDeclaration _ _ _ c | «return» c =>
    have hc : ∀ i ∈ c.toList, phrases'[i.index]? = phrases[i.index]? := h
    simp only [phrase, expectOption_congr hc]
  | evaluation e | tupleIndex e | rvalue e | addressOf e | unary op e | stackAlloc e | sizeof e =>
    simp only [phrase, expect_congr (h e List.mem_cons_self)]
  | ifThen a b | pointerIndex a b | assignment a b | binary op a b =>
    simp only [phrase, expect_congr (h a (by simp [Kind.children])),
      expect_congr (h b (by simp [Kind.children]))]
  | ifElse c t e =>
    simp only [phrase, expect_congr (h c (by simp [Kind.children])),
      expect_congr (h t (by simp [Kind.children])), expect_congr (h e (by simp [Kind.children]))]
  | functionDefinition q t name args body =>
    simp only [phrase, expectAll_congr fun c hc => h c (List.mem_append_left _ hc),
      expect_congr (h body (by simp [Kind.children]))]
  | block ds body =>
    simp only [phrase, expectAll_congr fun c hc => h c (List.mem_append_left _ hc),
      expectAll_congr fun c hc => h c (List.mem_append_right _ hc)]
  | forLoop inits c incs body =>
    have hinits : ∀ i ∈ inits, phrases'[i.index]? = phrases[i.index]? :=
      fun i hi => h i (by simp [Kind.children, hi])
    have hc : ∀ i ∈ c.toList, phrases'[i.index]? = phrases[i.index]? := fun i hi =>
      h i (List.mem_append_left _ (List.mem_append_left _ (List.mem_append_right _ hi)))
    have hincs : ∀ i ∈ incs, phrases'[i.index]? = phrases[i.index]? :=
      fun i hi => h i (by simp [Kind.children, hi])
    simp only [phrase, expectAll_congr hinits, expectOption_congr hc, expectAll_congr hincs,
      expect_congr (h body (by simp [Kind.children]))]

/-! ### What is read -/

/-- **Phrases are those of some nodes**: each is made from the phrases before it. -/
structure Reads (nodes : List Node) (phrases : Array Phrase) : Prop where
  /-- Each node has a phrase. -/
  size_eq : phrases.size = nodes.length
  /-- The phrase of a node is made from those of its children. -/
  phrase_eq : ∀ {i : Nat} {n : Node}, nodes[i]? = some n → ∃ p, phrases[i]? = some p ∧
    phrase phrases ⟨.ofIndex i, n.line⟩ n.kind = .ok p
  /-- Children come first. -/
  index_lt : ∀ {i : Nat} {n : Node}, nodes[i]? = some n → ∀ c ∈ n.kind.children, c.index < i

/-- One more node is read. -/
theorem Reads.read {nodes : List Node} {f g : Forest} {n : Node} (hf : Reads nodes f.phrases)
    (hsize : f.taken.size = f.phrases.size) (h : f.read n = .ok g) :
    Reads (nodes ++ [n]) g.phrases ∧ g.taken.size = g.phrases.size := by
  obtain ⟨taken, htaken, h⟩ := bind_eq_ok.mp h
  obtain ⟨p, hp, h⟩ := bind_eq_ok.mp h
  cases h
  obtain ⟨-, hfree, htakenSize, -⟩ := of_foldlM_take htaken
  have hlt : ∀ c ∈ n.kind.children, c.index < f.phrases.size := fun c hc =>
    hsize ▸ (Array.getElem?_eq_some_iff.mp (hfree c hc)).1
  have hold : ∀ i < f.phrases.size, (f.phrases.push p)[i]? = f.phrases[i]? := fun i hi => by
    rw [Array.getElem?_push_lt hi, Array.getElem?_eq_getElem hi]
  -- A node was read before, or it is the one that is read now.
  have hcases : ∀ {i : Nat} {m : Node}, (nodes ++ [n])[i]? = some m →
      (nodes[i]? = some m ∧ i < f.phrases.size) ∨ (i = f.phrases.size ∧ m = n) := by
    intro i m hm
    rw [hf.size_eq]
    by_cases hi : i < nodes.length
    · rw [List.getElem?_append_left hi] at hm
      exact .inl ⟨hm, hi⟩
    · rw [List.getElem?_append_right (Nat.le_of_not_lt hi), List.getElem?_singleton] at hm
      split at hm
      · cases hm
        exact .inr ⟨by omega, rfl⟩
      · cases hm
  refine ⟨⟨by simp [hf.size_eq], fun {i m} hm => ?_, fun {i m} hm => ?_⟩,
    by simp [htakenSize, hsize]⟩
  · rcases hcases hm with ⟨hm, hi⟩ | ⟨rfl, rfl⟩
    · obtain ⟨q, hq, hphrase⟩ := hf.phrase_eq hm
      refine ⟨q, (hold i hi).trans hq, ?_⟩
      rwa [phrase_congr fun c hc => hold _ (Nat.lt_trans (hf.index_lt hm c hc) hi)]
    · refine ⟨p, Array.getElem?_push_size, ?_⟩
      rwa [phrase_congr fun c hc => hold _ (hlt c hc)]
  · rcases hcases hm with ⟨hm, -⟩ | ⟨rfl, rfl⟩
    · exact hf.index_lt hm
    · exact hlt

/-- **All nodes are read.** -/
theorem Reads.foldlM {before after : List Node} {f g : Forest} (hf : Reads before f.phrases)
    (hsize : f.taken.size = f.phrases.size) (h : after.foldlM Forest.read f = .ok g) :
    Reads (before ++ after) g.phrases := by
  induction after generalizing before f with
  | nil =>
    cases h
    rwa [List.append_nil]
  | cons n after ih =>
    rw [List.foldlM_cons] at h
    obtain ⟨f', hf', h⟩ := bind_eq_ok.mp h
    obtain ⟨hreads, hsize'⟩ := hf.read hsize hf'
    rw [List.append_cons]
    exact ih hreads hsize' h

theorem Reads.empty : Reads [] Forest.empty.phrases := ⟨rfl, by simp, by simp⟩

end Forest

namespace SyntaxTree

variable {nodes nodes' : Array Node} {root root' : NodeId} {t t' : SyntaxTree}

/-- **The phrases of a tree are those of its nodes.** -/
theorem reads (h : ofNodes nodes root = .ok t) :
    Forest.Reads t.nodes.toList t.phrases ∧ (∀ p ∈ t.phrases, p.WellPlaced) ∧
      ∃ site, t.phrases[t.root.index]? = some (.program site t.declarations) := by
  rw [ofNodes] at h
  split at h
  · cases h
  case h_3 => cases h
  obtain ⟨f, hf, h⟩ := bind_eq_ok.mp h
  have hsound : f.Sound :=
    foldlM_eq_ok (motive := Forest.Sound) (fun _ _ _ hb hr => hb.read hr) Forest.Sound.empty hf
  have hreads := Forest.Reads.foldlM Forest.Reads.empty rfl hf
  split at h
  · cases h
    exact ⟨hreads, hsound.wellPlaced, _, ‹_›⟩
  · cases h

/-- **The phrase of a node depends on the nodes below it.** -/
theorem phrase_eq (h : ofNodes nodes root = .ok t) (h' : ofNodes nodes' root' = .ok t') :
    ∀ {i : NodeId} {p : Phrase}, t.phrases[i.index]? = some p →
      (∀ j ∈ p.ids, t'.nodes[j.index]? = t.nodes[j.index]?) → t'.phrases[i.index]? = some p := by
  obtain ⟨hreads, hplaced, -⟩ := reads h
  obtain ⟨hreads', -, -⟩ := reads h'
  intro i
  -- The children of a node come before it.
  induction hn : i.index using Nat.strongRecOn generalizing i with
  | ind n ih =>
    subst hn
    intro p hp hsame
    have hlt : i.index < t.nodes.toList.length :=
      hreads.size_eq ▸ (Array.getElem?_eq_some_iff.mp hp).1
    obtain ⟨m, hm⟩ : ∃ m, t.nodes.toList[i.index]? = some m := ⟨_, List.getElem?_eq_getElem hlt⟩
    obtain ⟨q, hq, hphrase⟩ := hreads.phrase_eq hm
    cases hp.symm.trans hq
    obtain ⟨hids, -⟩ := Forest.gathers _ _ _ _ hplaced hphrase
    have hself : NodeId.ofIndex i.index = i :=
      NodeId.index_injective (Forest.index_ofIndex (Forest.index_lt_size i))
    have hm' : t'.nodes.toList[i.index]? = some m := by
      rw [Array.getElem?_toList, hsame i (by simp [hids, hself]), ← Array.getElem?_toList, hm]
    obtain ⟨q, hq', hphrase'⟩ := hreads'.phrase_eq hm'
    have hchildren : ∀ c ∈ m.kind.children, t'.phrases[c.index]? = t.phrases[c.index]? := by
      intro c hc
      have hindex := hreads.index_lt hm c hc
      have hclt : c.index < t.phrases.size := hreads.size_eq ▸ Nat.lt_trans hindex hlt
      obtain ⟨r, hr⟩ : ∃ r, t.phrases[c.index]? = some r := ⟨_, Array.getElem?_eq_getElem hclt⟩
      rw [hr]
      refine ih c.index hindex rfl hr fun j hj => hsame j ?_
      rw [hids]
      refine List.mem_cons_of_mem _ (List.mem_flatMap.mpr ⟨c, hc, ?_⟩)
      rwa [Forest.idsAt, hr]
    rw [Forest.phrase_congr hchildren, hphrase] at hphrase'
    cases hphrase'
    exact hq'

/-! ### Units that begin other units -/

/-- **One unit begins another one**: the program of the other unit lists the declarations of the one
and then others, and the nodes of these declarations are the same, under the same ids. -/
structure InitialIn (t t' : SyntaxTree) : Prop where
  /-- The declarations are listed first. -/
  listed : ∃ ids more, t.kind? t.root = some (.program ids) ∧
    t'.kind? t'.root = some (.program (ids ++ more))
  /-- Their nodes are the same. -/
  nodes : ∀ i ∈ Decl.idsOfAll t.declarations, t'.nodes[i.index]? = t.nodes[i.index]?

/-- The declarations of a unit are those that its program lists. -/
theorem expectAll_eq (h : ofNodes nodes root = .ok t) {ids : List NodeId}
    (hroot : t.kind? t.root = some (.program ids)) :
    ∃ site : Site,
    Forest.expectAll t.phrases site.id .declaration Phrase.decl? ids = .ok t.declarations := by
  obtain ⟨hreads, -, site, hprogram⟩ := reads h
  obtain ⟨m, hm, hkind⟩ := Option.map_eq_some_iff.mp hroot
  obtain ⟨p, hp, hphrase⟩ := hreads.phrase_eq (n := m) (by rw [Array.getElem?_toList, hm])
  cases hprogram.symm.trans hp
  rw [hkind] at hphrase
  obtain ⟨ds, hds, hphrase⟩ := bind_eq_ok.mp hphrase
  cases hphrase
  exact ⟨_, hds⟩

/-- **The declarations of a unit that begins another one** are the first declarations of the other
one. -/
theorem InitialIn.exists_append (hinitial : t.InitialIn t') (h : ofNodes nodes root = .ok t)
    (h' : ofNodes nodes' root' = .ok t') : ∃ more, t'.declarations = t.declarations ++ more := by
  obtain ⟨ids, more, hroot, hroot'⟩ := hinitial.listed
  obtain ⟨site, hds⟩ := expectAll_eq h hroot
  obtain ⟨site', hds'⟩ := expectAll_eq h' hroot'
  obtain ⟨-, hplaced, -⟩ := reads h
  have hall := mapM_eq_ok.mp hds
  obtain ⟨hshown, -⟩ := Forest.of_expectAll Forest.shows_decl hplaced hds
  have hsame : ∀ c ∈ ids, t'.phrases[c.index]? = t.phrases[c.index]? := by
    intro c hc
    obtain ⟨d, hd, hexpect⟩ := exists_of_mem_left hall hc
    obtain ⟨p, hp, -⟩ := Option.bind_eq_some_iff.mp (Forest.expect_eq_ok.mp hexpect)
    rw [hp]
    -- The nodes below a declaration are those of its phrase, and they are the same in both units.
    refine phrase_eq h h' hp fun j hj => hinitial.nodes j ?_
    rw [Decl.idsOfAll_eq_flatMap, ← hshown]
    refine List.mem_flatMap.mpr ⟨c, hc, ?_⟩
    rwa [Forest.idsAt, hp]
  have hfirst : ids.mapM (Forest.expect t'.phrases site'.id .declaration Phrase.decl?) =
      .ok t.declarations := by
    refine Eq.trans (Forest.expectAll_congr hsame) (mapM_eq_ok.mpr (hall.imp fun c d hcd => ?_))
    exact Forest.expect_eq_ok.mpr (Forest.expect_eq_ok.mp hcd)
  rw [Forest.expectAll, List.mapM_append, hfirst] at hds'
  obtain ⟨ds, hds, hds'⟩ := bind_eq_ok.mp hds'
  obtain ⟨rest, -, hds'⟩ := bind_eq_ok.mp hds'
  cases hds
  exact ⟨rest, (Except.ok.inj hds').symm⟩

end SyntaxTree

end PostfixCompiler
