import PostfixCompiler.Proofs.Json.ReadBack

/-!
# How deep containers are nested

A reader that looks at a value as a whole asks that all of it denotes something and that its
containers are nested no deeper than some limit. How deep they are nested is a number, so for every
value there is a limit that is high enough.

## Main definitions

* `PostfixCompiler.Json.nesting`: how deep the containers of a value are nested.

## Main statements

* `PostfixCompiler.Json.readableWithin_of_nesting_le`: a faithful value is readable within any limit
  that is high enough.
-/

namespace PostfixCompiler.Json

mutual

/-- **How deep the containers of the value are nested.** -/
def nesting : Json → Nat
  | .array vs => eachNesting vs + 1
  | .object ms => membersNesting ms + 1
  | .null | .bool _ | .int _ | .double _ | .text _ | .unreadable => 0

/-- How deep the containers of the values are nested at most. -/
def eachNesting : List Json → Nat
  | [] => 0
  | v :: vs => max v.nesting (eachNesting vs)

/-- How deep the containers of the members are nested at most. -/
def membersNesting : List (String × Json) → Nat
  | [] => 0
  | (_, v) :: ms => max v.nesting (membersNesting ms)

end

theorem eachNesting_le_iff {vs : List Json} {n : Nat} :
    eachNesting vs ≤ n ↔ ∀ v ∈ vs, v.nesting ≤ n := by
  induction vs with
  | nil => exact iff_of_true (Nat.zero_le n) nofun
  | cons v vs ih => exact Nat.max_le.trans (by rw [ih, List.forall_mem_cons])

theorem membersNesting_le_iff {ms : List (String × Json)} {n : Nat} :
    membersNesting ms ≤ n ↔ ∀ m ∈ ms, m.2.nesting ≤ n := by
  induction ms with
  | nil => exact iff_of_true (Nat.zero_le n) nofun
  | cons m ms ih => exact Nat.max_le.trans (by rw [ih, List.forall_mem_cons])

/-- The containers of a member are nested less deep than those of the object. -/
theorem nesting_lt_of_mem_object {ms : List (String × Json)} {m : String × Json} (hm : m ∈ ms) :
    m.2.nesting < (Json.object ms).nesting :=
  Nat.lt_succ_of_le (membersNesting_le_iff.mp (Nat.le_refl _) m hm)

/-- The containers of an item are nested less deep than those of the array. -/
theorem nesting_lt_of_mem_array {vs : List Json} {v : Json} (hv : v ∈ vs) :
    v.nesting < (Json.array vs).nesting :=
  Nat.lt_succ_of_le (eachNesting_le_iff.mp (Nat.le_refl _) v hv)

/-- Fewer members are not nested deeper. -/
theorem nesting_object_le {ms ms' : List (String × Json)} (h : ∀ m ∈ ms, m ∈ ms') :
    (Json.object ms).nesting ≤ (Json.object ms').nesting :=
  Nat.succ_le_succ (membersNesting_le_iff.mpr fun m hm =>
    membersNesting_le_iff.mp (Nat.le_refl _) m (h m hm))

variable {reads : Double → Prop}

mutual

/-- **A faithful value is readable within any limit that is high enough.** -/
theorem readableWithin_of_nesting_le {limit : Nat} :
    ∀ v : Json, v.Faithful reads → v.nesting ≤ limit → v.readableWithin limit = true
  | .null, _, _ | .bool _, _, _ | .int _, _, _ | .double _, _, _ | .text _, _, _ => rfl
  | .array vs, h, hn => by
    rw [nesting] at hn
    rw [readableWithin, allReadableWithin_of_nesting_le vs h (by omega)]
    simp
    omega
  | .object ms, h, hn => by
    rw [nesting] at hn
    rw [readableWithin, membersReadableWithin_of_nesting_le ms h (by omega)]
    simp
    omega

theorem allReadableWithin_of_nesting_le {limit : Nat} :
    ∀ vs : List Json, AllFaithful reads vs → eachNesting vs ≤ limit →
    allReadableWithin limit vs = true
  | [], _, _ => rfl
  | v :: vs, h, hn => by
    rw [eachNesting, Nat.max_le] at hn
    rw [allReadableWithin, readableWithin_of_nesting_le v h.1 hn.1,
      allReadableWithin_of_nesting_le vs h.2 hn.2]
    rfl

theorem membersReadableWithin_of_nesting_le {limit : Nat} :
    ∀ ms : List (String × Json), MembersFaithful reads ms → membersNesting ms ≤ limit →
      membersReadableWithin limit ms = true
  | [], _, _ => rfl
  | (_, v) :: ms, h, hn => by
    rw [membersNesting, Nat.max_le] at hn
    rw [membersReadableWithin, readableWithin_of_nesting_le v h.1 hn.1,
      membersReadableWithin_of_nesting_le ms h.2 hn.2]
    rfl

end

end PostfixCompiler.Json
