import LibreServ.FileTree

/-! Branches of a table keyed by paths. A branch is everything at or beneath one path; it is moved to another
path or taken out as a whole. The lemmas read both through `get?`. -/

namespace Table

open List

variable {ν α : Type} [DecidableEq ν]

/-- The path with `dst` in the place of the `src` it ends with. -/
def rebase (src dst p : List ν) : List ν := p.take (p.length - src.length) ++ dst

omit [DecidableEq ν] in
theorem rebase_append (src dst q : List ν) : rebase src dst (q ++ src) = q ++ dst := by
  rw [rebase, length_append, Nat.add_sub_cancel, List.take_left]

/-- The branch at `src`, moved to `dst`. -/
def relocate (src dst : List ν) (t : Table (List ν) α) : Table (List ν) α :=
  ofList (t.select (fun p _ => !src.isSuffixOf p) ++
    (t.select fun p _ => src.isSuffixOf p).map fun r => (rebase src dst r.1, r.2))

/-- The table without the branch at `src`. -/
def prune (src : List ν) (t : Table (List ν) α) : Table (List ν) α := t.keep fun p _ => !src.isSuffixOf p

theorem get?_prune (src : List ν) (t : Table (List ν) α) (p : List ν) :
    (t.prune src).get? p = if src <:+ p then none else t.get? p := by
  rw [prune, get?_keep]
  by_cases h : src <:+ p
  · have hb : src.isSuffixOf p = true := List.isSuffixOf_iff_suffix.mpr h
    rw [if_pos h]
    simp [hb]
  · have hb : src.isSuffixOf p = false := by
      rw [← Bool.not_eq_true, List.isSuffixOf_iff_suffix]
      exact h
    rw [if_neg h]
    cases t.get? p <;> simp [hb]

/-- An empty branch leaves the table as it is. -/
theorem prune_eq_self {src : List ν} {t : Table (List ν) α} (h : ∀ p v, t.get? p = some v → ¬ src <:+ p) :
    t.prune src = t := by
  apply keep_eq_self
  intro p v hp
  rw [Bool.not_eq_true', ← Bool.not_eq_true, List.isSuffixOf_iff_suffix]
  exact h p v hp

/-- Nothing but the branch itself lies where the branch goes. -/
def Vacant (src dst : List ν) (t : Table (List ν) α) : Prop :=
  ∀ p v, t.get? p = some v → dst <:+ p → src <:+ p

variable {src dst p : List ν} {t : Table (List ν) α}

private theorem mem_moved {v : α} :
    (p, v) ∈ ((t.select fun p _ => src.isSuffixOf p).map fun r => (rebase src dst r.1, r.2)) ↔
      ∃ q, p = q ++ dst ∧ t.get? (q ++ src) = some v := by
  constructor
  · intro h
    obtain ⟨⟨p', v'⟩, hmem, heq⟩ := mem_map.mp h
    obtain ⟨hp, rfl⟩ := Prod.mk.inj heq
    obtain ⟨hget, hsuf⟩ := mem_select.mp hmem
    obtain ⟨q, rfl⟩ := List.isSuffixOf_iff_suffix.mp hsuf
    exact ⟨q, by rw [← hp, rebase_append], hget⟩
  · rintro ⟨q, rfl, hget⟩
    refine mem_map.mpr ⟨(q ++ src, v), mem_select.mpr ⟨hget, ?_⟩, by rw [rebase_append]⟩
    exact List.isSuffixOf_iff_suffix.mpr (List.suffix_append q src)

private theorem mem_stayed {v : α} :
    (p, v) ∈ t.select (fun p _ => !src.isSuffixOf p) ↔ t.get? p = some v ∧ ¬ src <:+ p := by
  rw [mem_select, Bool.not_eq_true', ← Bool.not_eq_true, List.isSuffixOf_iff_suffix]

section

variable (hvacant : Vacant src dst t)

include hvacant

theorem get?_relocate_some {v : α} : (t.relocate src dst).get? p = some v ↔
      (t.get? p = some v ∧ ¬ src <:+ p) ∨ ∃ q, p = q ++ dst ∧ t.get? (q ++ src) = some v := by
  have huniq : ∀ k v v', (k, v) ∈ t.select (fun p _ => !src.isSuffixOf p) ++
      ((t.select fun p _ => src.isSuffixOf p).map fun r => (rebase src dst r.1, r.2)) →
      (k, v') ∈ t.select (fun p _ => !src.isSuffixOf p) ++
      ((t.select fun p _ => src.isSuffixOf p).map fun r => (rebase src dst r.1, r.2)) → v = v' := by
    intro k v v' h h'
    rw [mem_append, mem_stayed, mem_moved] at h h'
    rcases h with ⟨hk, hout⟩ | ⟨q, rfl, hq⟩
    · rcases h' with ⟨hk', -⟩ | ⟨q', rfl, -⟩
      · exact Option.some.inj (hk.symm.trans hk')
      · exact absurd (hvacant _ _ hk (List.suffix_append q' dst)) hout
    · rcases h' with ⟨hk', hout'⟩ | ⟨q', hqq, hq'⟩
      · exact absurd (hvacant _ _ hk' (List.suffix_append q dst)) hout'
      · obtain rfl := List.append_cancel_right hqq
        exact Option.some.inj (hq.symm.trans hq')
  rw [relocate, get?_ofList huniq, mem_append, mem_stayed, mem_moved]

/-- What was beneath `src` is found beneath `dst`. -/
theorem get?_relocate_moved (q : List ν) :
    (t.relocate src dst).get? (q ++ dst) = t.get? (q ++ src) := by
  apply Option.ext
  intro v
  rw [get?_relocate_some hvacant]
  constructor
  · rintro (⟨hget, hout⟩ | ⟨q', hqq, hget⟩)
    · exact absurd (hvacant _ _ hget (List.suffix_append q dst)) hout
    · obtain rfl := List.append_cancel_right hqq
      exact hget
  · exact fun hget => .inr ⟨q, rfl, hget⟩

/-- Away from both paths nothing changes. -/
theorem get?_relocate_other (hsrc : ¬ src <:+ p) (hdst : ¬ dst <:+ p) :
    (t.relocate src dst).get? p = t.get? p := by
  apply Option.ext
  intro v
  rw [get?_relocate_some hvacant]
  constructor
  · rintro (⟨hget, -⟩ | ⟨q, rfl, -⟩)
    · exact hget
    · exact absurd (List.suffix_append q dst) hdst
  · exact fun hget => .inl ⟨hget, hsrc⟩

end

/-- A branch that is empty moves nothing. -/
theorem get?_relocate_of_empty (hempty : ∀ p v, t.get? p = some v → ¬ src <:+ p) (p : List ν) :
    (t.relocate src dst).get? p = t.get? p := by
  have hnone : (t.select fun p _ => src.isSuffixOf p) = [] := by
    rw [List.eq_nil_iff_forall_not_mem]
    rintro ⟨p, v⟩ hmem
    obtain ⟨hget, hsuf⟩ := mem_select.mp hmem
    exact hempty p v hget (List.isSuffixOf_iff_suffix.mp hsuf)
  rw [relocate, hnone, List.map_nil, List.append_nil]
  apply Option.ext
  intro v
  have huniq : ∀ k v v', (k, v) ∈ t.select (fun p _ => !src.isSuffixOf p) →
      (k, v') ∈ t.select (fun p _ => !src.isSuffixOf p) → v = v' := by
    intro k v v' h h'
    exact Option.some.inj ((mem_stayed.mp h).1.symm.trans (mem_stayed.mp h').1)
  rw [get?_ofList huniq, mem_stayed]
  exact ⟨fun h => h.1, fun h => ⟨h, hempty p v h⟩⟩

/-- What lies beneath `src` is found beneath `dst`, whatever lay there. -/
theorem get?_relocate_ne_none {q : List ν} {v : α} (h : t.get? (q ++ src) = some v) :
    (t.relocate src dst).get? (q ++ dst) ≠ none := by
  exact get?_ofList_ne_none (mem_append_right _ (mem_moved.mpr ⟨q, rfl, h⟩))

/-- A branch that goes to a free place and back is where it was. -/
theorem get?_relocate_back (hfree : ∀ p v, t.get? p = some v → ¬ dst <:+ p) (p : List ν) :
    ((t.relocate src dst).relocate dst src).get? p = t.get? p := by
  have hvacant : Vacant src dst t := fun p v hp hsuf => absurd hsuf (hfree p v hp)
  have hback : Vacant dst src (t.relocate src dst) := by
    intro p v hp hsuf
    rcases (get?_relocate_some hvacant).mp hp with ⟨-, hnot⟩ | ⟨q, rfl, -⟩
    · exact absurd hsuf hnot
    · exact List.suffix_append q dst
  apply Option.ext
  intro v
  rw [get?_relocate_some hback]
  constructor
  · rintro (⟨hp, hnot⟩ | ⟨q, rfl, hq⟩)
    · rcases (get?_relocate_some hvacant).mp hp with ⟨hp, -⟩ | ⟨q, rfl, -⟩
      · exact hp
      · exact absurd (List.suffix_append q dst) hnot
    · rwa [get?_relocate_moved hvacant] at hq
  · intro hp
    by_cases hsuf : src <:+ p
    · obtain ⟨q, rfl⟩ := hsuf
      exact .inr ⟨q, rfl, by rw [get?_relocate_moved hvacant, hp]⟩
    · exact .inl ⟨(get?_relocate_some hvacant).mpr (.inl ⟨hp, hsuf⟩), hfree p v hp⟩

end Table

namespace FileTree

variable {ν φ : Type} [DecidableEq ν]

/-- Every entry lies in a folder. -/
abbrev Grown (t : Tree ν φ) : Prop := Rooted (fun _ => True) t

namespace Grown

variable {t : Tree ν φ}

variable (h : Grown t)

include h

theorem dir_above {p q : List ν} {e : Entry φ} (hp : t.get? p = some e) (hq : q <:+ p)
    (hne : q ≠ p) : q = [] ∨ t.get? q = some .dir := by
  induction p generalizing e with
  | nil => exact absurd (List.suffix_nil.mp hq) hne
  | cons n d ih =>
    rcases List.suffix_cons_iff.mp hq with rfl | hq
    · exact absurd rfl hne
    rcases h n d e trivial hp with rfl | hd
    · exact .inl (List.suffix_nil.mp hq)
    · by_cases hqd : q = d
      · rw [hqd]
        exact .inr hd
      · exact ih hd hq hqd

theorem taken_above {p q : List ν} {e : Entry φ} (hp : t.get? p = some e) (hq : q <:+ p)
    (hq0 : q ≠ []) : ∃ e, t.get? q = some e := by
  by_cases hne : q = p
  · exact ⟨e, hne ▸ hp⟩
  · exact ⟨.dir, (h.dir_above hp hq hne).resolve_left hq0⟩

/-- Nothing lies beneath a path that is free. -/
theorem vacant {src dst : List ν} (hdst0 : dst ≠ []) (hdst : t.get? dst = none) :
    Table.Vacant src dst t := by
  intro p e hp hsuf
  obtain ⟨e', he'⟩ := h.taken_above hp hsuf hdst0
  rw [hdst] at he'
  cases he'

theorem put {n : ν} {d : List ν} (hd : d = [] ∨ t.get? d = some .dir)
    (hfree : t.get? (n :: d) = none) (e : Entry φ) : Grown (t.put (n :: d) e) := by
  have hkeep : ∀ q, t.get? q = some .dir → (t.put (n :: d) e).get? q = some .dir := by
    intro q hq
    have hne : q ≠ n :: d := by
      rintro rfl
      rw [hfree] at hq
      cases hq
    rw [Table.get?_put_of_ne _ _ hne, hq]
  intro m p e' _ he'
  by_cases hmp : m :: p = n :: d
  · obtain ⟨-, rfl⟩ := List.cons.inj hmp
    exact hd.imp id (hkeep p)
  · rw [Table.get?_put_of_ne _ _ hmp] at he'
    exact (h m p e' trivial he').imp id (hkeep p)

theorem prune (src : List ν) : Grown (t.prune src) := by
  intro n d e _ he
  rw [Table.get?_prune] at he
  split at he
  · cases he
  · rename_i hout
    refine (h n d e trivial he).imp id fun hd => ?_
    rw [Table.get?_prune, if_neg fun hsuf => hout (hsuf.trans (List.suffix_cons n d)), hd]

theorem relocate {src dd : List ν} {m : ν} (hsrc : src ≠ [])
    (hdd : dd = [] ∨ t.get? dd = some .dir) (hinto : ¬ src <:+ dd) (hvacant : Table.Vacant src (m :: dd) t) :
    Grown (t.relocate src (m :: dd)) := by
  intro n d e _ he
  rcases (Table.get?_relocate_some hvacant).mp he with ⟨hget, hout⟩ | ⟨q, hq, hget⟩
  · have hsrcd : ¬ src <:+ d := fun hsuf => hout (hsuf.trans (List.suffix_cons n d))
    have hdstd : ¬ m :: dd <:+ d := fun hsuf => hout (hvacant _ _ hget (hsuf.trans (List.suffix_cons n d)))
    refine (h n d e trivial hget).imp id fun hd => ?_
    rw [Table.get?_relocate_other hvacant hsrcd hdstd, hd]
  · cases q with
    | nil =>
      obtain ⟨-, rfl⟩ := List.cons.inj hq
      refine hdd.imp id fun hd => ?_
      have hdstd : ¬ m :: d <:+ d := fun hsuf => by
        have := hsuf.length_le
        rw [List.length_cons] at this
        omega
      rw [Table.get?_relocate_other hvacant hinto hdstd, hd]
    | cons n' q =>
      rw [List.cons_append] at hq
      obtain ⟨-, rfl⟩ := List.cons.inj hq
      refine .inr ?_
      rw [Table.get?_relocate_moved hvacant]
      exact (h n' (q ++ src) e trivial hget).resolve_left (by simp [hsrc])

end Grown

end FileTree
