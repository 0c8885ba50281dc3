import Mathlib

/-! Loops over a list: what every turn keeps holds at the end, and what one turn makes and no later one undoes holds
of each element. -/

namespace Loops

open List

variable {ν σ ε : Type} {xs : List ν} {P : σ → Prop}

section Pure

variable {f : σ → ν → σ} {s : σ}

theorem foldl_keeps (hkeep : ∀ x ∈ xs, ∀ s, P s → P (f s x)) (hs : P s) : P (xs.foldl f s) := by
  induction xs generalizing s with
  | nil => exact hs
  | cons x xs ih =>
    apply ih fun y hy => hkeep y (mem_cons_of_mem x hy)
    exact hkeep x mem_cons_self s hs

theorem foldl_each {Q : ν → σ → Prop} (hkeep : ∀ x ∈ xs, ∀ s, P s → P (f s x))
    (hmake : ∀ x ∈ xs, ∀ s, P s → Q x (f s x)) (hhold : ∀ x ∈ xs, ∀ y s, P s → Q y s → Q y (f s x)) (hs : P s) :
    ∀ x ∈ xs, Q x (xs.foldl f s) := by
  induction xs generalizing s with
  | nil => simp
  | cons x xs ih =>
    have hs₁ : P (f s x) := hkeep x mem_cons_self s hs
    intro y hy
    rcases mem_cons.mp hy with rfl | hy
    · have hhave : P (xs.foldl f (f s y)) ∧ Q y (xs.foldl f (f s y)) := by
        apply foldl_keeps (P := fun s => P s ∧ Q y s) _ ⟨hs₁, hmake y mem_cons_self s hs⟩
        intro z hz t ht
        exact ⟨hkeep z (mem_cons_of_mem y hz) t ht.1, hhold z (mem_cons_of_mem y hz) y t ht.1 ht.2⟩
      exact hhave.2
    · exact ih (fun z hz => hkeep z (mem_cons_of_mem x hz)) (fun z hz => hmake z (mem_cons_of_mem x hz))
        (fun z hz => hhold z (mem_cons_of_mem x hz)) hs₁ y hy

/-- Rounds until one leaves the size as it is, and no more than so many. -/
def rounds (pass : σ → σ) (size : σ → Nat) : Nat → σ → σ
  | 0, s => s
  | n + 1, s => if size (pass s) = size s then pass s else rounds pass size n (pass s)

/-- What `n` rounds come to, the rounds that were left out included. -/
theorem rounds_reach (stage : Nat → σ → Prop) {pass : σ → σ} {size : σ → Nat}
    (hstep : ∀ k s, stage k s → stage (k + 1) (pass s)) (hstill : ∀ s, size (pass s) = size s → pass s = s) {k : Nat}
    {s : σ} (hs : stage k s) (n : Nat) : stage (k + n) (rounds pass size n s) := by
  induction n generalizing k s with
  | zero => exact hs
  | succ n ih =>
    rw [rounds]
    split
    · rename_i hsize
      have hsame := hstill s hsize
      rw [hsame]
      generalize n + 1 = m
      induction m with
      | zero => exact hs
      | succ m ihm =>
        have hnext := hstep _ _ ihm
        rwa [hsame] at hnext
    · have hnext := ih (hstep k s hs)
      rwa [Nat.add_assoc, Nat.add_comm 1 n] at hnext

end Pure

section Failing

variable {f : σ → ν → Except ε σ} {s s' : σ}

section

variable (hkeep : ∀ x ∈ xs, ∀ s s', P s → f s x = .ok s' → P s')

include hkeep

/-- What every turn of a loop keeps. -/
theorem foldlM_keeps (hs : P s)
    (hrun : xs.foldlM f s = .ok s') : P s' := by
  induction xs generalizing s with
  | nil =>
    cases hrun
    exact hs
  | cons x xs ih =>
    rw [foldlM_cons] at hrun
    cases hstep : f s x with
    | error err =>
      rw [hstep] at hrun
      cases hrun
    | ok s₁ =>
      rw [hstep] at hrun
      apply ih (fun y hy => hkeep y (mem_cons_of_mem x hy)) _ hrun
      exact hkeep x mem_cons_self s s₁ hs hstep

/-- What each turn does for its element, and no later turn undoes. -/
theorem foldlM_each {Q : ν → σ → Prop} (hmake : ∀ x ∈ xs, ∀ s s', P s → f s x = .ok s' → Q x s')
    (hhold : ∀ x ∈ xs, ∀ y s s', P s → Q y s → f s x = .ok s' → Q y s') (hs : P s)
    (hrun : xs.foldlM f s = .ok s') : ∀ x ∈ xs, Q x s' := by
  induction xs generalizing s with
  | nil => simp
  | cons x xs ih =>
    rw [foldlM_cons] at hrun
    cases hstep : f s x with
    | error err =>
      rw [hstep] at hrun
      cases hrun
    | ok s₁ =>
      rw [hstep] at hrun
      have hs₁ : P s₁ := hkeep x mem_cons_self s s₁ hs hstep
      intro y hy
      rcases mem_cons.mp hy with rfl | hy
      · have hhave : P s' ∧ Q y s' := by
          apply foldlM_keeps (P := fun s => P s ∧ Q y s) _ ⟨hs₁, hmake y mem_cons_self s s₁ hs hstep⟩ hrun
          intro z hz t t' ht hturn
          exact ⟨hkeep z (mem_cons_of_mem y hz) t t' ht.1 hturn,
            hhold z (mem_cons_of_mem y hz) y t t' ht.1 ht.2 hturn⟩
        exact hhave.2
      · exact ih (fun z hz => hkeep z (mem_cons_of_mem x hz)) (fun z hz => hmake z (mem_cons_of_mem x hz))
          (fun z hz => hhold z (mem_cons_of_mem x hz)) hs₁ hrun y hy

/-- A loop fails in one of its turns. -/
theorem foldlM_fails {err : ε} (hs : P s)
    (hrun : xs.foldlM f s = .error err) : ∃ x ∈ xs, ∃ t, P t ∧ f t x = .error err := by
  induction xs generalizing s with
  | nil => cases hrun
  | cons x xs ih =>
    rw [foldlM_cons] at hrun
    cases hstep : f s x with
    | error err' =>
      rw [hstep] at hrun
      cases hrun
      exact ⟨x, mem_cons_self, s, hs, hstep⟩
    | ok s₁ =>
      rw [hstep] at hrun
      obtain ⟨y, hy, t, ht, hfail⟩ := ih (fun y hy => hkeep y (mem_cons_of_mem x hy))
        (hkeep x mem_cons_self s s₁ hs hstep) hrun
      exact ⟨y, mem_cons_of_mem x hy, t, ht, hfail⟩

end

/-- A loop of checks is passed if each check is. -/
theorem forM_ok_iff {check : ν → Except ε Unit} : forM xs check = .ok () ↔ ∀ x ∈ xs, check x = .ok () := by
  induction xs with
  | nil => simp [pure, Except.pure]
  | cons x xs ih =>
    rw [forM_cons, forall_mem_cons, ← ih]
    cases check x <;> simp [bind, Except.bind]

theorem forM_fails {check : ν → Except ε Unit} {err : ε} (h : forM xs check = .error err) :
    ∃ x ∈ xs, check x = .error err := by
  induction xs with
  | nil => cases h
  | cons x xs ih =>
    rw [forM_cons] at h
    cases hx : check x with
    | error err' =>
      rw [hx] at h
      cases h
      exact ⟨x, mem_cons_self, hx⟩
    | ok u =>
      rw [hx] at h
      obtain ⟨y, hy, hfail⟩ := ih h
      exact ⟨y, mem_cons_of_mem x hy, hfail⟩

end Failing

end Loops
