import LibreServ.Paths

/-! How far a typed word is from another, from `files/search_rank.rs`: letters put in, left out, changed, and pairs of
neighbours swapped. The search computes row after row and gives up early. -/

namespace LibreServ.Typos

open Files (Text)

/-- The distance of the first `i` letters of `a` and the first `j` of `b`. -/
def distance (a b : Text) : ℕ → ℕ → ℕ
  | 0, j => j
  | i + 1, 0 => i + 1
  | i + 1, j + 1 =>
    let cost := if a[i]? = b[j]? then 0 else 1
    let v := min (min (distance a b i (j + 1) + 1) (distance a b (i + 1) j + 1)) (distance a b i j + cost)
    if 0 < i ∧ 0 < j ∧ a[i]? = b[j - 1]? ∧ a[i - 1]? = b[j]? then min v (distance a b (i - 1) (j - 1) + 1) else v
termination_by i j => i + j

/-- Row `i` up to column `j`, from the two rows before it. -/
def cell (a b : Text) (i : ℕ) (prev2 prev : ℕ → ℕ) : ℕ → ℕ
  | 0 => i
  | j + 1 =>
    let cost := if a[i - 1]? = b[j]? then 0 else 1
    let v := min (min (prev (j + 1) + 1) (cell a b i prev2 prev j + 1)) (prev j + cost)
    if 1 < i ∧ 0 < j ∧ a[i - 1]? = b[j - 1]? ∧ a[i - 2]? = b[j]? then min v (prev2 (j - 1) + 1) else v

/-- `row_min`, over the columns up to `m`. -/
def rowMin (cur : ℕ → ℕ) : ℕ → ℕ
  | 0 => cur 0
  | j + 1 => min (rowMin cur j) (cur (j + 1))

/-- The rows from `i` on, as many as are `left`; the last one. -/
def rows (a b : Text) (max : ℕ) : ℕ → ℕ → (ℕ → ℕ) → (ℕ → ℕ) → Option (ℕ → ℕ)
  | 0, _, _, prev => some prev
  | left + 1, i, prev2, prev =>
    let cur := cell a b i prev2 prev
    if max < rowMin cur b.length then none else rows a b max left (i + 1) prev cur

def osa (a b : Text) (max : ℕ) : Option ℕ :=
  if max < (a.length - b.length) + (b.length - a.length) then none
  else
    match rows a b max a.length 1 (fun _ => 0) id with
    | none => none
    | some prev => if prev b.length ≤ max then some (prev b.length) else none

variable {a b : Text} {max : ℕ}

/-- Every entry of a row is at least as far as the smallest one. -/
theorem lt_rowMin {cur : ℕ → ℕ} {m : ℕ} : max < rowMin cur m ↔ ∀ j ≤ m, max < cur j := by
  induction m with
  | zero => simp [rowMin]
  | succ m ih =>
    rw [rowMin, Nat.lt_min, ih]
    constructor
    · rintro ⟨hrow, hlast⟩ j hj
      rcases Nat.lt_or_eq_of_le hj with hlt | rfl
      · exact hrow j (Nat.le_of_lt_succ hlt)
      · exact hlast
    · intro h
      exact ⟨fun j hj => h j (Nat.le_succ_of_le hj), h _ (Nat.le_refl _)⟩

theorem cell_eq {i : ℕ} {prev2 prev : ℕ → ℕ} (hprev : ∀ j, prev j = distance a b i j)
    (hprev2 : 0 < i → ∀ j, prev2 j = distance a b (i - 1) j) (j : ℕ) :
    cell a b (i + 1) prev2 prev j = distance a b (i + 1) j := by
  induction j with
  | zero => rw [cell, distance]
  | succ j ih =>
    have hback : i + 1 - 2 = i - 1 := by omega
    have hpos : 1 < i + 1 ↔ 0 < i := by omega
    rw [cell, distance, ih, hprev, hprev, Nat.add_sub_cancel, hback]
    simp only [hpos]
    by_cases hi : 0 < i
    · rw [hprev2 hi]
    · simp only [hi, false_and, if_false]

theorem distance_zero (i : ℕ) : distance a b i 0 = i := by
  cases i <;> rw [distance]

/-- Words of different length are at least that far apart. -/
theorem length_le_distance (i j : ℕ) : (i - j) + (j - i) ≤ distance a b i j := by
  induction i, j using distance.induct a b with
  | case1 j => rw [distance]; omega
  | case2 i => rw [distance]; omega
  | case3 i j hswap =>
    rw [distance, if_pos hswap]
    obtain ⟨hi, hj, -⟩ := hswap
    omega
  | case4 i j hswap =>
    rw [distance, if_neg hswap]
    omega

theorem distance_le_change (i j : ℕ) : distance a b (i + 1) (j + 1) ≤ distance a b i j + 1 := by
  have hcost : (if a[i]? = b[j]? then 0 else 1) ≤ 1 := by split <;> omega
  rw [distance]
  split <;> omega

/-- A row that is too far leaves no way back: a swap that skips it is no better than a change in it. -/
theorem row_lost {i m : ℕ} (h : ∀ j ≤ m, max < distance a b i j) : ∀ j ≤ m, max < distance a b (i + 1) j := by
  intro j hj
  induction j with
  | zero =>
    have hfirst := h 0 hj
    rw [distance_zero] at hfirst ⊢
    omega
  | succ j ih =>
    have hleft := ih (Nat.le_of_succ_le hj)
    have habove := h (j + 1) hj
    have hbefore := h j (Nat.le_of_succ_le hj)
    rw [distance]
    split
    · rename_i hswap
      have hskip := distance_le_change (a := a) (b := b) (i - 1) (j - 1)
      rw [Nat.sub_add_cancel hswap.1, Nat.sub_add_cancel hswap.2.1] at hskip
      omega
    · omega

theorem rows_lost {i m : ℕ} (h : ∀ j ≤ m, max < distance a b i j) (k : ℕ) : ∀ j ≤ m, max < distance a b (i + k) j := by
  induction k with
  | zero => exact h
  | succ k ih => exact row_lost ih

/-- The last row, or a reason why it is too far. -/
theorem rows_spec (left i : ℕ) {prev2 prev : ℕ → ℕ} (hprev : ∀ j, prev j = distance a b i j)
    (hprev2 : 0 < i → ∀ j, prev2 j = distance a b (i - 1) j) :
    match rows a b max left (i + 1) prev2 prev with
    | none => ∀ j ≤ b.length, max < distance a b (i + left) j
    | some last => ∀ j, last j = distance a b (i + left) j := by
  induction left generalizing i prev2 prev with
  | zero => exact hprev
  | succ left ih =>
    have hcur := cell_eq hprev hprev2
    have hrow : i + (left + 1) = i + 1 + left := by omega
    rw [rows, hrow]
    by_cases hlt : max < rowMin (cell a b (i + 1) prev2 prev) b.length
    · rw [if_pos hlt]
      exact rows_lost (fun j hj => hcur j ▸ lt_rowMin.mp hlt j hj) left
    · rw [if_neg hlt]
      exact ih (i + 1) hcur fun _ => hprev

/-- The distance is found exactly as far as it is asked for. -/
theorem osa_exact {d : ℕ} : osa a b max = some d ↔ distance a b a.length b.length = d ∧ d ≤ max := by
  have hlen := length_le_distance (a := a) (b := b) a.length b.length
  have hfirst : ∀ j, id j = distance a b 0 j := fun j => by rw [distance, id]
  have hrows := @rows_spec a b max a.length 0 (fun _ => 0) id hfirst (fun h => absurd h (Nat.lt_irrefl 0))
  rw [Nat.zero_add] at hrows
  unfold osa
  split
  · constructor
    · intro h
      cases h
    · omega
  · split
    · rename_i hnone
      rw [Nat.zero_add, hnone] at hrows
      have hfar := hrows b.length (Nat.le_refl _)
      constructor
      · intro h
        cases h
      · omega
    · rename_i prev hsome
      rw [Nat.zero_add, hsome] at hrows
      rw [hrows b.length]
      split
      · rw [Option.some.injEq]
        omega
      · constructor
        · intro h
          cases h
        · omega

end LibreServ.Typos
