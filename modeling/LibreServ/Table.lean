import Mathlib

/-! Tables with a primary key, as SQL has them: a list of rows in which no key stands twice. The
operations are the statements' own (`INSERT OR REPLACE`, `UPDATE … WHERE`, `DELETE … WHERE`, `SELECT`);
the lemmas read each of them through `get?`, so proofs about a table never look at its rows. -/

/-- Rows `(key, value)`, no key twice. -/
structure Table (κ ν : Type) where
  rows : List (κ × ν)
  nodup : (rows.map Prod.fst).Nodup

namespace Table

open Option List

variable {κ ν : Type}

def empty : Table κ ν := ⟨[], List.nodup_nil⟩

/-- The keys, in row order. -/
def keys (t : Table κ ν) : List κ := t.rows.map Prod.fst

/-- `UPDATE`: every row's value, changed by `f`. -/
def update (t : Table κ ν) (f : κ → ν → ν) : Table κ ν where
  rows := t.rows.map fun r => (r.1, f r.1 r.2)
  nodup := by
    have h : (t.rows.map fun r => (r.1, f r.1 r.2)).map Prod.fst = t.rows.map Prod.fst := by
      rw [List.map_map]
      rfl
    exact h ▸ t.nodup

/-- `DELETE`, by the rows that stay. -/
def keep (t : Table κ ν) (p : κ → ν → Bool) : Table κ ν where
  rows := t.rows.filter fun r => p r.1 r.2
  nodup := t.nodup.sublist (List.filter_sublist.map Prod.fst)

/-- `SELECT`: the rows for which `p` holds, in row order. -/
def select (t : Table κ ν) (p : κ → ν → Bool) : List (κ × ν) := t.rows.filter fun r => p r.1 r.2

/-- Some row satisfies `p`. -/
def any (t : Table κ ν) (p : κ → ν → Bool) : Bool := t.rows.any fun r => p r.1 r.2

variable [DecidableEq κ] {rows : List (κ × ν)} {v : ν}

def get? (t : Table κ ν) (k : κ) : Option ν := t.rows.lookup k

/-- `INSERT OR REPLACE`. -/
def put (t : Table κ ν) (k : κ) (v : ν) : Table κ ν where
  rows := t.rows.filter (fun r => r.1 ≠ k) ++ [(k, v)]
  nodup := by
    rw [List.map_append, List.nodup_append]
    refine ⟨t.nodup.sublist (List.filter_sublist.map Prod.fst), List.nodup_singleton _, ?_⟩
    intro a ha b hb hab
    obtain ⟨r, hr, rfl⟩ := List.mem_map.mp ha
    rw [List.map_singleton, List.mem_singleton] at hb
    simp only [decide_not, List.mem_filter, Bool.not_eq_true', decide_eq_false_iff_not] at hr
    exact hr.2 (hab.trans hb)

/-- `DELETE` of one key. -/
def erase (t : Table κ ν) (k : κ) : Table κ ν := t.keep fun k' _ => k' ≠ k

omit [DecidableEq κ] in
private theorem value_unique (hn : (rows.map Prod.fst).Nodup) {k : κ}
    {v' : ν} (h : (k, v) ∈ rows) (h' : (k, v') ∈ rows) : v = v' := by
  have hpair := List.inj_on_of_nodup_map hn h h' rfl
  exact (Prod.mk.inj hpair).2

variable {k : κ}

private theorem mem_of_lookup (h : rows.lookup k = some v) :
    (k, v) ∈ rows := by
  induction rows with
  | nil => cases h
  | cons r rows ih =>
    obtain ⟨k', v'⟩ := r
    rw [List.lookup_cons] at h
    by_cases hk : k = k'
    · subst hk
      simp only [beq_self_eq_true, some.injEq] at h
      subst h
      exact mem_cons_self
    · simp only [beq_eq_false_iff_ne.mpr hk] at h
      exact mem_cons_of_mem _ (ih h)

private theorem lookup_isSome (h : (k, v) ∈ rows) :
    (rows.lookup k).isSome := by
  induction rows with
  | nil => cases h
  | cons r rows ih =>
    obtain ⟨k', v'⟩ := r
    rw [List.lookup_cons]
    by_cases hk : k = k'
    · subst hk
      simp
    · simp only [beq_eq_false_iff_ne.mpr hk]
      rcases mem_cons.mp h with heq | hmem
      · exact absurd (Prod.mk.inj heq).1 hk
      · exact ih hmem

variable {t : Table κ ν} {p : κ → ν → Bool}

theorem mem_rows : (k, v) ∈ t.rows ↔ t.get? k = some v := by
  refine ⟨fun h => ?_, mem_of_lookup⟩
  obtain ⟨v', hv'⟩ := isSome_iff_exists.mp (lookup_isSome h)
  rw [get?, hv', value_unique t.nodup h (mem_of_lookup hv')]

private theorem get?_congr {t t' : Table κ ν} {k k' : κ}
    (h : ∀ v, (k, v) ∈ t.rows ↔ (k', v) ∈ t'.rows) : t.get? k = t'.get? k' := by
  apply Option.ext
  intro v
  rw [← mem_rows, ← mem_rows]
  exact h v

theorem mem_keys : k ∈ t.keys ↔ ∃ v, t.get? k = some v := by
  rw [keys, List.mem_map]
  constructor
  · rintro ⟨⟨k', v⟩, h, rfl⟩
    exact ⟨v, mem_rows.mp h⟩
  · rintro ⟨v, h⟩
    exact ⟨(k, v), mem_rows.mpr h, rfl⟩

theorem get?_eq_none (h : k ∉ t.keys) : t.get? k = none := by
  by_contra hne
  exact h (mem_keys.mpr (Option.ne_none_iff_exists'.mp hne))

@[simp] theorem get?_empty (k : κ) : (empty : Table κ ν).get? k = none := rfl

theorem get?_put (t : Table κ ν) (k : κ) (v : ν) (k' : κ) :
    (t.put k v).get? k' = if k' = k then some v else t.get? k' := by
  by_cases hk : k' = k
  · rw [if_pos hk, ← mem_rows]
    subst hk
    exact mem_append_right _ (List.mem_singleton.mpr rfl)
  · rw [if_neg hk]
    apply get?_congr
    intro v'
    simp [put, hk]

@[simp] theorem get?_put_self (t : Table κ ν) (k : κ) (v : ν) : (t.put k v).get? k = some v := by
  rw [get?_put, if_pos rfl]

theorem get?_put_of_ne (t : Table κ ν) {k k' : κ} (v : ν) (h : k' ≠ k) :
    (t.put k v).get? k' = t.get? k' := by
  rw [get?_put, if_neg h]

@[simp] theorem get?_update (t : Table κ ν) (f : κ → ν → ν) (k : κ) :
    (t.update f).get? k = (t.get? k).map (f k) := by
  apply Option.ext
  intro v
  rw [← mem_rows, map_eq_some_iff]
  simp only [update, List.mem_map, Prod.exists, Prod.mk.injEq]
  constructor
  · rintro ⟨k', v', h, rfl, rfl⟩
    exact ⟨v', mem_rows.mp h, rfl⟩
  · rintro ⟨v', h, rfl⟩
    exact ⟨k, v', mem_rows.mpr h, rfl, rfl⟩

@[simp] theorem get?_keep (t : Table κ ν) (p : κ → ν → Bool) (k : κ) :
    (t.keep p).get? k = (t.get? k).filter (p k) := by
  apply Option.ext
  intro v
  rw [← mem_rows, filter_eq_some_iff, ← mem_rows]
  simp [keep]

omit [DecidableEq κ] in
theorem eq_of_rows {t t' : Table κ ν} (h : t.rows = t'.rows) : t = t' := by
  cases t
  cases t'
  subst h
  rfl

/-- Nothing is deleted where every row stays. -/
theorem keep_eq_self (h : ∀ k v, t.get? k = some v → p k v = true) :
    t.keep p = t := by
  apply eq_of_rows
  show t.rows.filter _ = t.rows
  rw [List.filter_eq_self]
  intro r hr
  exact h r.1 r.2 (mem_rows.mp hr)

@[simp] theorem get?_erase (t : Table κ ν) (k k' : κ) :
    (t.erase k).get? k' = if k' = k then none else t.get? k' := by
  rw [erase, get?_keep]
  by_cases hk : k' = k
  · simp [hk]
  · cases t.get? k' <;> simp [hk]

/-! A row that is found after a change, and where it comes from. -/

theorem get?_put_some {w : ν} {k' : κ} : (t.put k v).get? k' = some w ↔ k' = k ∧ v = w ∨ k' ≠ k ∧ t.get? k' = some w := by
  rw [get?_put]
  split <;> simp_all

theorem get?_erase_some {w : ν} {k' : κ} : (t.erase k).get? k' = some w ↔ k' ≠ k ∧ t.get? k' = some w := by
  rw [get?_erase]
  split <;> simp_all

theorem get?_update_some {f : κ → ν → ν} {w : ν} : (t.update f).get? k = some w ↔ ∃ v, t.get? k = some v ∧ f k v = w := by
  rw [get?_update, map_eq_some_iff]

theorem get?_keep_some {w : ν} : (t.keep p).get? k = some w ↔ t.get? k = some w ∧ p k w = true := by
  rw [get?_keep, filter_eq_some_iff]

omit [DecidableEq κ] in
theorem length_keep_le (t : Table κ ν) (p : κ → ν → Bool) : (t.keep p).rows.length ≤ t.rows.length :=
  List.length_filter_le _ _

/-- A new key is one row more. -/
theorem length_put_of_none (h : t.get? k = none) (v : ν) :
    (t.put k v).rows.length = t.rows.length + 1 := by
  have hkeep : t.rows.filter (fun r => r.1 ≠ k) = t.rows := by
    rw [List.filter_eq_self]
    intro r hr
    apply decide_eq_true
    intro heq
    have hget : t.get? r.1 = some r.2 := mem_rows.mp hr
    rw [heq, h] at hget
    cases hget
  show (t.rows.filter _ ++ [(k, v)]).length = _
  rw [hkeep, length_append, List.length_singleton]

/-- A key that is there keeps the number of rows. -/
theorem length_put_of_some {v' : ν} (h : t.get? k = some v') (v : ν) :
    (t.put k v).rows.length = t.rows.length := by
  have hmem : k ∈ t.rows.map Prod.fst := mem_keys.mpr ⟨v', h⟩
  have hmap : (t.rows.filter fun r => r.1 ≠ k).map Prod.fst = (t.rows.map Prod.fst).erase k := by
    rw [t.nodup.erase_eq_filter, List.filter_map]
    congr 1
    apply List.filter_congr
    intro r _
    by_cases hk : r.1 = k
    · simp [hk]
    · simp [hk]
  have hlen : (t.rows.filter fun r => r.1 ≠ k).length = t.rows.length - 1 := by
    rw [← List.length_map Prod.fst, hmap, List.length_erase_of_mem hmem, List.length_map]
  have hpos : 0 < t.rows.length := by
    rw [← List.length_map Prod.fst]
    exact List.length_pos_of_mem hmem
  show (t.rows.filter _ ++ [(k, v)]).length = _
  rw [length_append, List.length_singleton]
  omega

theorem mem_select :
    (k, v) ∈ t.select p ↔ t.get? k = some v ∧ p k v = true := by
  rw [select, mem_filter, mem_rows]

theorem any_iff :
    t.any p = true ↔ ∃ k v, t.get? k = some v ∧ p k v = true := by
  simp only [any, List.any_eq_true, Prod.exists, mem_rows]

end Table
