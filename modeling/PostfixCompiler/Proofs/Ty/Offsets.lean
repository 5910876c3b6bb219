import PostfixCompiler.Proofs.Ty.Leaves

/-!
# Where the leaves of a value are

The size of a type, its leaves, the offsets of its leaves and the offset of a component are found by
four recursions on the type, and whoever moves a value relies on their agreement: the leaves lie one
behind the other, without a gap, from the first byte of the value to its last one. So the value of a
component lies in its tuple as it would lie alone, only further up. Tuples without components take
part in this: they have no leaves and no bytes.

## Main definitions

* `PostfixCompiler.Ty.InRow`: leaves lie one behind the other.
* `PostfixCompiler.Ty.movedBy`: a leaf that lies further up.

## Main statements

* `PostfixCompiler.Ty.inRow_leavesFrom`: the leaves of a value lie in a row that takes all of its
  bytes.
* `PostfixCompiler.Ty.map_movedBy_leavesFrom`: a value lies alike wherever it lies.
* `PostfixCompiler.Ty.leaves_adjoin`: the four recursions agree.
-/

namespace PostfixCompiler.Ty

variable {first last middle byte : Nat} {ls ms : List (Ty × Nat)} {l m : Ty × Nat}

/-! ### Rows of leaves -/

/-- **Leaves lie one behind the other**, without a gap, from a byte on up to the byte behind
them. -/
def InRow (first last : Nat) : List (Ty × Nat) → Prop
  | [] => first = last
  | (t, byte) :: rest => byte = first ∧ InRow (first + t.size) last rest

namespace InRow

theorem append :
    ∀ {ls : List (Ty × Nat)} {first : Nat}, InRow first middle ls → InRow middle last ms →
    InRow first last (ls ++ ms)
  | [], _, h, h' => by
    rw [InRow] at h
    exact h ▸ h'
  | (_, _) :: _, _, ⟨hbyte, h⟩, h' => ⟨hbyte, h.append h'⟩

/-- The first leaf is where the row begins. -/
theorem head (h : InRow first last ls) (hl : ls.head? = some l) : l.2 = first := by
  match ls, hl with
  | _ :: _, rfl => exact h.1

/-- Each leaf is where the one before it ends. -/
theorem next : ∀ {ls : List (Ty × Nat)} {first k : Nat}, InRow first last ls → ls[k]? = some l →
    ls[k + 1]? = some m → m.2 = l.2 + l.1.size
  | _ :: ls, _, 0, ⟨hbyte, h⟩, hl, hm => by
    cases hl
    rw [List.getElem?_cons_succ, ← List.head?_eq_getElem?] at hm
    rw [h.head hm, hbyte]
  | _ :: _, _, _ + 1, ⟨_, h⟩, hl, hm => h.next hl hm

/-- The last leaf ends where the row ends. -/
theorem last_end :
    ∀ {ls : List (Ty × Nat)} {first : Nat}, InRow first last ls → ls.getLast? = some l →
    l.2 + l.1.size = last
  | [_], _, ⟨hbyte, h⟩, hl => by
    obtain rfl := Option.some.inj hl
    rw [InRow] at h
    rw [List.getLast_singleton, hbyte, h]
  | _ :: _ :: _, _, ⟨_, h⟩, hl => h.last_end (by rwa [List.getLast?_cons_cons] at hl)

end InRow

mutual

/-- **The leaves of a value lie in a row that takes all of its bytes.** -/
theorem inRow_leavesFrom : ∀ (t : Ty) (k : Nat), InRow k (k + t.size) (t.leavesFrom k)
  | .tuple ts, k => inRow_leavesOfAllFrom ts k
  | .void, _ | .int, _ | .double, _ | .string, _ | .pointer _, _ | .auto, _ => ⟨rfl, rfl⟩

/-- As `inRow_leavesFrom`, for values that stand one after the other. -/
theorem inRow_leavesOfAllFrom :
    ∀ (ts : List Ty) (k : Nat), InRow k (k + sizeOfAll ts) (leavesOfAllFrom k ts)
  | [], _ => rfl
  | t :: ts, k => by
    rw [leavesOfAllFrom, sizeOfAll, ← Nat.add_assoc]
    exact (inRow_leavesFrom t k).append (inRow_leavesOfAllFrom ts (k + t.size))

end

/-! ### Parts of a value -/

/-- A leaf that lies some bytes further up. -/
def movedBy (bytes : Nat) (l : Ty × Nat) : Ty × Nat := (l.1, bytes + l.2)

mutual

/-- **A value lies alike wherever it lies.** -/
theorem map_movedBy_leavesFrom (bytes : Nat) : ∀ (t : Ty) (k : Nat),
    (t.leavesFrom k).map (movedBy bytes) = t.leavesFrom (bytes + k)
  | .tuple ts, k => map_movedBy_leavesOfAllFrom bytes ts k
  | .void, _ | .int, _ | .double, _ | .string, _ | .pointer _, _ | .auto, _ => rfl

/-- As `map_movedBy_leavesFrom`, for values that stand one after the other. -/
theorem map_movedBy_leavesOfAllFrom (bytes : Nat) : ∀ (ts : List Ty) (k : Nat),
    (leavesOfAllFrom k ts).map (movedBy bytes) = leavesOfAllFrom (bytes + k) ts
  | [], _ => rfl
  | t :: ts, k => by
    rw [leavesOfAllFrom, leavesOfAllFrom, List.map_append, map_movedBy_leavesFrom bytes t,
      map_movedBy_leavesOfAllFrom bytes ts, Nat.add_assoc]

end

/-- The leaves of a component are those of the tuple that lie behind the components before it. -/
theorem leavesOfAllFrom_component {ts : List Ty} {i : Nat} {u : Ty}
    (hu : ts[i]? = some u) (k : Nat) :
    leavesOfAllFrom k ts =
      leavesOfAllFrom k (ts.take i) ++ u.leavesFrom (k + sizeOfAll (ts.take i)) ++
      leavesOfAllFrom (k + sizeOfAll (ts.take i) + u.size) (ts.drop (i + 1)) := by
  obtain ⟨hi, rfl⟩ := List.getElem?_eq_some_iff.mp hu
  calc leavesOfAllFrom k ts = leavesOfAllFrom k (ts.take i ++ ts[i] :: ts.drop (i + 1)) := by
        rw [List.getElem_cons_drop, List.take_append_drop]
    _ = _ := by rw [leavesOfAllFrom_append, leavesOfAllFrom, List.append_assoc]

/-- **The leaves of a value adjoin each other.** In order they are the leaves of the type; the first
one is at the first byte, each other one begins where the one before it ends, and the last one ends
where the value ends, which has no bytes if it has no leaves. The leaves of a component of a tuple,
moved up by the offset of the component, are the leaves that the tuple has behind those of the
components before it, and before those of the components behind it. -/
theorem leaves_adjoin (t : Ty) :
    t.leafOffsets.map Prod.fst = t.leaves ∧
    (∀ l, t.leafOffsets.head? = some l → l.2 = 0) ∧
    (∀ k l m, t.leafOffsets[k]? = some l → t.leafOffsets[k + 1]? = some m → m.2 = l.2 + l.1.size) ∧
    (∀ l, t.leafOffsets.getLast? = some l → l.2 + l.1.size = t.size) ∧
    (t.leafOffsets = [] → t.size = 0) ∧
    ∀ ts, t = .tuple ts → ∀ index : Int, 1 ≤ index → index ≤ ts.length →
      ∃ u byte before behind, ts[index.toNat - 1]? = some u ∧ t.componentOffset? index = some byte ∧
        t.leafOffsets = before ++ u.leafOffsets.map (movedBy byte) ++ behind ∧
        before.map Prod.fst = leavesOfAll (ts.take (index.toNat - 1)) ∧
        behind.map Prod.fst = leavesOfAll (ts.drop index.toNat) := by
  have hrow := inRow_leavesFrom t 0
  rw [Nat.zero_add] at hrow
  refine ⟨map_leavesFrom t 0, fun l => hrow.head, fun k l m => hrow.next, fun l => hrow.last_end,
    fun hnil => ?_, ?_⟩
  · rw [leafOffsets] at hnil
    rw [hnil, InRow] at hrow
    exact hrow.symm
  · rintro ts rfl index hfirst hlast
    have hlt : index.toNat - 1 < ts.length := by omega
    have hu : ts[index.toNat - 1]? = some ts[index.toNat - 1] := List.getElem?_eq_getElem hlt
    have hnext : index.toNat - 1 + 1 = index.toNat := by omega
    refine ⟨ts[index.toNat - 1], sizeOfAll (ts.take (index.toNat - 1)),
      leavesOfAllFrom 0 (ts.take (index.toNat - 1)),
      leavesOfAllFrom (sizeOfAll (ts.take (index.toNat - 1)) + ts[index.toNat - 1].size)
        (ts.drop index.toNat),
      hu, if_pos ⟨hfirst, hlast⟩, ?_, map_leavesOfAllFrom _ _, map_leavesOfAllFrom _ _⟩
    have hmoved :=
      map_movedBy_leavesFrom (sizeOfAll (ts.take (index.toNat - 1))) ts[index.toNat - 1] 0
    have hparts := leavesOfAllFrom_component hu 0
    rw [Nat.zero_add, hnext] at hparts
    rw [leafOffsets, leafOffsets, hmoved, Nat.add_zero, leavesFrom]
    exact hparts

/-- In a tuple of an `int`, a tuple without components, and a `double` in a tuple of its own, the
double is at byte 4. -/
theorem leaves_adjoin_nested : ∃ u byte before behind,
    [Ty.int, .tuple [], .tuple [.double]][2]? = some u ∧
    (Ty.tuple [.int, .tuple [], .tuple [.double]]).componentOffset? 3 = some byte ∧
    (Ty.tuple [.int, .tuple [], .tuple [.double]]).leafOffsets =
      before ++ u.leafOffsets.map (movedBy byte) ++ behind ∧
    before.map Prod.fst = [.int] ∧ behind.map Prod.fst = [] :=
  (leaves_adjoin (.tuple [.int, .tuple [], .tuple [.double]])).2.2.2.2.2 _ rfl 3
    (by decide) (by decide)

end PostfixCompiler.Ty
