import Mathlib

/-! Following forwarding addresses. A thing is at one place after each of a number of steps; where it was, an address
tells where it went next. The addresses are followed from an old place until something is found, and no place is
visited twice. If each place tells where the thing went when it left it for good, the trail ends at the thing. -/

namespace Trail

variable {P : Type} [DecidableEq P]

/-- At most `fuel` hops, from `q`, past the places already seen. -/
def follow (hop : P → Option P) (found : P → Bool) : Nat → List P → P → Option P
  | 0, _, _ => none
  | fuel + 1, seen, q =>
    match hop q with
    | none => none
    | some next =>
      if next ∈ seen then none else if found next then some next else follow hop found fuel (next :: seen) next

/-- The thing, at `c i` after `i` of the `n` steps, leaves `q` with step `t` and never comes back. -/
structure LeftForGood (c : Nat → P) (n t : Nat) (q : P) : Prop where
  early : t < n
  there : c t = q
  gone : ∀ i, t < i → i ≤ n → c i ≠ q

variable {hop : P → Option P} {found : P → Bool} {c : Nat → P} {n i t : Nat} {q : P} {seen : List P}

omit [DecidableEq P] in
/-- A place the thing was at, and is not at in the end, it has left for good. -/
theorem exists_leftForGood (hi : i ≤ n) (hq : c i = q) (hne : c n ≠ q) : ∃ t, i ≤ t ∧ LeftForGood c n t q := by
  induction hd : n - i using Nat.strongRecOn generalizing i with
  | _ d ih =>
    by_cases hback : ∃ j, i < j ∧ j ≤ n ∧ c j = q
    · obtain ⟨j, hlt, hle, hj⟩ := hback
      obtain ⟨t, hjt, ht⟩ := ih (n - j) (by omega) hle hj rfl
      exact ⟨t, by omega, ht⟩
    · have hlt : i < n := by
        rcases Nat.lt_or_eq_of_le hi with hlt | rfl
        · exact hlt
        · exact absurd hq hne
      exact ⟨i, Nat.le_refl i, hlt, hq, fun j hij hjn heq => hback ⟨j, hij, hjn, heq⟩⟩

/-- **A trail ends at the thing.** Every hop leads to a place that the thing left later, so no place is met twice. -/
theorem follow_finds (hhop : ∀ t q, LeftForGood c n t q → hop q = some (c (t + 1))) (hfound : found (c n) = true)
    (hempty : ∀ i, i ≤ n → c i ≠ c n → found (c i) = false) {fuel : Nat} (hfuel : n ≤ t + fuel)
    (hleft : LeftForGood c n t q) (hseen : ∀ s ∈ seen, ∀ i, t < i → i ≤ n → c i ≠ s) :
    follow hop found fuel seen q = some (c n) := by
  induction fuel generalizing t q seen with
  | zero => exact absurd hleft.early (by omega)
  | succ fuel ih =>
    have hlt := hleft.early
    have hnew : c (t + 1) ∉ seen := fun hmem => hseen _ hmem (t + 1) (by omega) (by omega) rfl
    rw [follow, hhop t q hleft]
    dsimp only
    rw [if_neg hnew]
    by_cases hend : c (t + 1) = c n
    · rw [hend, if_pos hfound]
    obtain ⟨t', hle, hleft'⟩ := exists_leftForGood (n := n) (i := t + 1) (by omega) rfl (Ne.symm hend)
    rw [hempty (t + 1) (by omega) hend]
    refine ih (by omega) hleft' fun s hs i hti hin => ?_
    rcases List.mem_cons.mp hs with rfl | hs
    · exact hleft'.gone i hti hin
    · exact hseen s hs i (by omega) hin

end Trail
