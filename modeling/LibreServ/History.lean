import Mathlib

/-! Histories: lists that grow at their end, in which every mark is allowed by the marks before it. -/

namespace History

open List

variable {μ : Type} {allowed : List μ → μ → Prop} {h : List μ} {m : μ}

/-- Every mark is allowed by what precedes it. -/
def Proper (allowed : List μ → μ → Prop) (h : List μ) : Prop := ∀ before m after, h = before ++ m :: after → allowed before m

/-- A new mark has to be allowed by all the others. -/
theorem Proper.snoc (hp : Proper allowed h) (hm : allowed h m) : Proper allowed (h ++ [m]) := by
  intro before m' after heq
  rcases eq_nil_or_concat after with rfl | ⟨after', last, rfl⟩
  · obtain ⟨rfl, hsame⟩ := append_inj' heq rfl
    cases hsame
    exact hm
  · rw [concat_eq_append, ← cons_append, ← append_assoc] at heq
    obtain ⟨hinit, -⟩ := append_inj' heq rfl
    exact hp before m' after' hinit

end History
