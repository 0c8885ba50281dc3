import LibreServ.Table

/-! Sums over the rows of a table, as `SELECT SUM(…)` takes them, and what one row's change does to them. -/

namespace Table

variable {κ ν M : Type} [AddCommMonoid M]

def tally (t : Table κ ν) (f : κ → ν → M) : M := (t.rows.map fun r => f r.1 r.2).sum

@[simp] theorem tally_empty (f : κ → ν → M) : (empty : Table κ ν).tally f = 0 := rfl

variable [DecidableEq κ] {t : Table κ ν} {k : κ} {v : ν}

private theorem filter_other {rows : List (κ × ν)} (h : k ∉ rows.map Prod.fst) :
    rows.filter (fun r => r.1 ≠ k) = rows := by
  rw [List.filter_eq_self]
  intro r hr
  apply decide_eq_true
  intro heq
  exact h (heq ▸ List.mem_map_of_mem hr)

private theorem sum_filter_other {rows : List (κ × ν)} (hn : (rows.map Prod.fst).Nodup)
    (h : (k, v) ∈ rows) (g : κ × ν → M) :
    ((rows.filter fun r => r.1 ≠ k).map g).sum + g (k, v) = (rows.map g).sum := by
  induction rows with
  | nil => cases h
  | cons r rows ih =>
    rw [List.map_cons, List.nodup_cons] at hn
    rcases List.mem_cons.mp h with heq | hmem
    · subst heq
      have hfilter : ((k, v) :: rows).filter (fun r => r.1 ≠ k) = rows := by
        rw [List.filter_cons_of_neg (by simp), filter_other hn.1]
      rw [hfilter, List.map_cons, List.sum_cons, add_comm]
    · have hne : r.1 ≠ k := by
        intro heq
        exact hn.1 (heq ▸ List.mem_map_of_mem hmem)
      rw [List.filter_cons_of_pos (by simpa using hne), List.map_cons, List.sum_cons, List.map_cons, List.sum_cons,
        add_assoc, ih hn.2 hmem]

/-- A row's part is what goes with it. -/
theorem tally_erase (h : t.get? k = some v) (f : κ → ν → M) :
    (t.erase k).tally f + f k v = t.tally f := by
  have hmem := mem_rows.mpr h
  exact sum_filter_other t.nodup hmem fun r => f r.1 r.2

theorem tally_erase_of_none (h : t.get? k = none) (f : κ → ν → M) :
    (t.erase k).tally f = t.tally f := by
  have hkeep : t.erase k = t := by
    apply keep_eq_self
    intro k' v hk'
    apply decide_eq_true
    intro heq
    rw [heq, h] at hk'
    cases hk'
  rw [hkeep]

theorem tally_put (t : Table κ ν) (k : κ) (v : ν) (f : κ → ν → M) :
    (t.put k v).tally f = (t.erase k).tally f + f k v := by
  show (((t.rows.filter fun r => r.1 ≠ k) ++ [(k, v)]).map fun r => f r.1 r.2).sum = _
  rw [List.map_append, List.sum_append, List.map_singleton, List.sum_singleton]
  rfl

theorem tally_put_of_none (h : t.get? k = none) (v : ν) (f : κ → ν → M) :
    (t.put k v).tally f = t.tally f + f k v := by
  rw [tally_put, tally_erase_of_none h]

theorem tally_nonneg {f : κ → ν → Int} (h : ∀ k v, t.get? k = some v → 0 ≤ f k v) : 0 ≤ t.tally f := by
  apply List.sum_nonneg
  intro x hx
  obtain ⟨⟨k, v⟩, hr, rfl⟩ := List.mem_map.mp hx
  exact h k v (mem_rows.mp hr)

/-- A row is replaced: its part goes and the new one comes. -/
theorem tally_replace (h : t.get? k = some v) (v' : ν) (f : κ → ν → Nat) :
    (t.put k v').tally f + f k v = t.tally f + f k v' := by
  have herase := tally_erase h f
  have hput := tally_put t k v' f
  omega

theorem tally_erase_le (t : Table κ ν) (k : κ) (f : κ → ν → Nat) : (t.erase k).tally f ≤ t.tally f := by
  cases h : t.get? k with
  | none => exact (tally_erase_of_none h f).le
  | some v =>
    have herase := tally_erase h f
    omega

theorem tally_put_le (t : Table κ ν) (k : κ) (v : ν) (f : κ → ν → Nat) : (t.put k v).tally f ≤ t.tally f + f k v := by
  have herase := tally_erase_le t k f
  have hput := tally_put t k v f
  omega

omit [DecidableEq κ] in
theorem tally_mono (t : Table κ ν) {f g : κ → ν → Nat} (h : ∀ k v, f k v ≤ g k v) : t.tally f ≤ t.tally g :=
  List.sum_le_sum fun r _ => h r.1 r.2

theorem le_tally (h : t.get? k = some v) (f : κ → ν → Nat) : f k v ≤ t.tally f := by
  have herase := tally_erase h f
  omega

/-- Two rows together. -/
theorem add_le_tally {k' : κ} {v' : ν} (h : t.get? k = some v) (h' : t.get? k' = some v')
    (hne : k' ≠ k) (f : κ → ν → Nat) : f k v + f k' v' ≤ t.tally f := by
  have hrest : (t.erase k).get? k' = some v' := by
    rw [get?_erase, if_neg hne]
    exact h'
  have herase := tally_erase h f
  have hother := le_tally hrest f
  omega

end Table
