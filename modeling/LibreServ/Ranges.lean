import Mathlib

/-! Half-open ranges of natural numbers and the left-to-right sweep that decides whether a list of
them, sorted by start, covers everything below a bound. -/

namespace Ranges

variable {l : List (ℕ × ℕ)}

/-- The list covers everything from `lo` up to `hi`. -/
def Covers (l : List (ℕ × ℕ)) (lo hi : ℕ) : Prop :=
  ∀ b, lo ≤ b → b < hi → ∃ r ∈ l, r.1 ≤ b ∧ b < r.2

/-- Follow the sorted ranges from `reach`, stopping at the first gap or once `hi` is reached. -/
def sweep (hi : ℕ) : ℕ → List (ℕ × ℕ) → Bool
  | reach, [] => hi ≤ reach
  | reach, (start, stop) :: l =>
    if reach < start then false
    else if hi ≤ max reach stop then true
    else sweep hi (max reach stop) l

theorem covers_of_le {lo hi : ℕ} (h : hi ≤ lo) : Covers l lo hi :=
  fun _ hlo hhi => absurd (hhi.trans_le h) (Nat.not_lt.mpr hlo)

/-- A range that starts inside what is reached moves the reach to its end. -/
theorem covers_cons {start stop reach hi : ℕ} (h : start ≤ reach) :
    Covers ((start, stop) :: l) reach hi ↔ Covers l (max reach stop) hi := by
  constructor
  · intro hc b hlo hhi
    obtain ⟨r, hr, hb⟩ := hc b ((le_max_left _ _).trans hlo) hhi
    rcases List.mem_cons.mp hr with rfl | hr
    · exact absurd hb.2 (Nat.not_lt.mpr ((le_max_right _ _).trans hlo))
    · exact ⟨r, hr, hb⟩
  · intro hc b hlo hhi
    by_cases hb : b < stop
    · exact ⟨_, List.mem_cons_self, h.trans hlo, hb⟩
    · obtain ⟨r, hr, hrb⟩ := hc b (max_le hlo (Nat.not_lt.mp hb)) hhi
      exact ⟨r, List.mem_cons_of_mem _ hr, hrb⟩

/-- The sweep is exact on a list sorted by start, as long as it has not reached the bound. -/
theorem sweep_eq_true_iff {hi : ℕ} (hs : l.Pairwise fun a b => a.1 ≤ b.1) :
    ∀ {reach}, reach < hi → (sweep hi reach l = true ↔ Covers l reach hi) := by
  induction l with
  | nil =>
    intro reach hlt
    rw [sweep, decide_eq_true_eq]
    refine ⟨covers_of_le, fun h => ?_⟩
    obtain ⟨r, hr, -⟩ := h reach le_rfl hlt
    cases hr
  | cons r l ih =>
    obtain ⟨start, stop⟩ := r
    obtain ⟨hfirst, hrest⟩ := List.pairwise_cons.mp hs
    intro reach hlt
    rw [sweep]
    split_ifs with hgap hdone
    · -- a gap: everything that starts later starts after it too
      refine ⟨False.elim, fun h => ?_⟩
      obtain ⟨r, hr, hb⟩ := h reach le_rfl hlt
      rcases List.mem_cons.mp hr with rfl | hr
      · exact absurd hb.1 (Nat.not_le.mpr hgap)
      · exact absurd (hgap.trans_le (hfirst r hr)) (Nat.not_lt.mpr hb.1)
    · rw [covers_cons (Nat.not_lt.mp hgap)]
      exact ⟨fun _ => covers_of_le hdone, fun _ => rfl⟩
    · rw [covers_cons (Nat.not_lt.mp hgap)]
      exact ih hrest (Nat.not_le.mp hdone)

end Ranges
