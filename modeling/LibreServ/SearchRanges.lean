import Mathlib

/-! The ranges of time that a gallery query asks for, from `search_query.rs`: those that must all hold collapse to one,
and those of which one must hold are merged where they overlap or touch. -/

namespace LibreServ.Search

open List

/-- From the first instant up to, and without, the second; nothing where they are the wrong way round. -/
abbrev Range := Int × Int

def Range.Has (r : Range) (t : Int) : Prop := r.1 ≤ t ∧ t < r.2

/-- The order of `sort_unstable` on pairs. -/
def Range.le (r s : Range) : Bool := r.1 < s.1 || r.1 = s.1 && r.2 ≤ s.2

/-- An empty intersection stays empty. -/
def collapse : List Range → List Range
  | [] => []
  | r :: rest =>
    let lo := (rest.map Prod.fst).foldl max r.1
    let hi := (rest.map Prod.snd).foldl min r.2
    [(lo, max hi lo)]

/-- The last merged range grows as long as the next one starts inside it or where it ends. -/
def mergeFrom (last : Range) : List Range → List Range
  | [] => [last]
  | r :: rest => if r.1 ≤ last.2 then mergeFrom (last.1, max last.2 r.2) rest else last :: mergeFrom r rest

def merge (anyRanges : List Range) : List Range :=
  if 1 < anyRanges.length then
    match anyRanges.mergeSort Range.le with
    | [] => []
    | r :: rest => mergeFrom r rest
  else anyRanges

/-- The next range comes later, behind the end of this one. -/
def Range.Before (r s : Range) : Prop := r.le s = true ∧ r.2 < s.1

variable {r last : Range} {rest ranges : List Range} {t : Int}

theorem foldl_max_le {a : Int} {xs : List Int} : xs.foldl max a ≤ t ↔ a ≤ t ∧ ∀ x ∈ xs, x ≤ t := by
  induction xs generalizing a with
  | nil => simp
  | cons x xs ih => simp only [foldl_cons, ih, forall_mem_cons, Int.max_le, and_assoc]

theorem lt_foldl_min {a : Int} {xs : List Int} : t < xs.foldl min a ↔ t < a ∧ ∀ x ∈ xs, t < x := by
  induction xs generalizing a with
  | nil => simp
  | cons x xs ih => simp only [foldl_cons, ih, forall_mem_cons, Int.lt_min, and_assoc]

theorem collapse_has : (∀ r ∈ collapse ranges, r.Has t) ↔ ∀ r ∈ ranges, r.Has t := by
  cases ranges with
  | nil => rfl
  | cons r rest =>
    have hlo := @foldl_max_le t r.1 (rest.map Prod.fst)
    have hhi := @lt_foldl_min t r.2 (rest.map Prod.snd)
    rw [forall_mem_map] at hlo hhi
    simp only [collapse, mem_singleton, forall_eq, Range.Has, forall_mem_cons]
    constructor
    · rintro ⟨hle, hlt⟩
      have hin : t < (rest.map Prod.snd).foldl min r.2 := by omega
      exact ⟨⟨(hlo.mp hle).1, (hhi.mp hin).1⟩, fun s hs => ⟨(hlo.mp hle).2 s hs, (hhi.mp hin).2 s hs⟩⟩
    · rintro ⟨hr, hrest⟩
      have hle := hlo.mpr ⟨hr.1, fun s hs => (hrest s hs).1⟩
      have hlt := hhi.mpr ⟨hr.2, fun s hs => (hrest s hs).2⟩
      omega

theorem Range.le_iff {s : Range} : r.le s = true ↔ r.1 < s.1 ∨ r.1 = s.1 ∧ r.2 ≤ s.2 := by
  simp [Range.le]

theorem mergeFrom_has (hrest : ∀ r ∈ rest, last.1 ≤ r.1) (hsorted : rest.Pairwise (Range.le · ·)) :
    (∃ r ∈ mergeFrom last rest, r.Has t) ↔ last.Has t ∨ ∃ r ∈ rest, r.Has t := by
  induction rest generalizing last with
  | nil => simp [mergeFrom]
  | cons r rest ih =>
    obtain ⟨hfirst, hsorted⟩ := pairwise_cons.mp hsorted
    have hlast := hrest r mem_cons_self
    rw [mergeFrom, exists_mem_cons_iff, ← or_assoc]
    split
    · rename_i hin
      rw [@ih (last.1, max last.2 r.2) (fun s hs => hrest s (mem_cons_of_mem _ hs)) hsorted]
      refine or_congr_left ?_
      simp only [Range.Has]
      omega
    · rw [exists_mem_cons_iff, ih (fun s hs => ?_) hsorted, or_assoc]
      have hle := Range.le_iff.mp (hfirst s hs)
      omega

/-- A range that has not grown is still in order with the others; one that has is not empty. -/
theorem mergeFrom_before (hrest : ∀ r ∈ rest, last.le r = true ∨ last.1 ≤ last.2 ∧ last.1 ≤ r.1)
    (hsorted : rest.Pairwise (Range.le · ·)) :
    ∃ stop tail, mergeFrom last rest = (last.1, stop) :: tail ∧ last.2 ≤ stop ∧ (mergeFrom last rest).IsChain Range.Before := by
  induction rest generalizing last with
  | nil => exact ⟨last.2, [], rfl, Int.le_refl _, .singleton _⟩
  | cons r rest ih =>
    obtain ⟨hfirst, hsorted⟩ := pairwise_cons.mp hsorted
    have hlast := hrest r mem_cons_self
    rw [Range.le_iff] at hlast
    rw [mergeFrom]
    split
    · rename_i hin
      have hgrown : ∀ s ∈ rest, Range.le (last.1, max last.2 r.2) s = true ∨
          last.1 ≤ max last.2 r.2 ∧ last.1 ≤ s.1 := by
        intro s hs
        have hnext := hrest s (mem_cons_of_mem _ hs)
        rw [Range.le_iff] at hnext
        omega
      obtain ⟨stop, tail, heq, hle, hchain⟩ := ih hgrown hsorted
      exact ⟨stop, tail, heq, by omega, hchain⟩
    · rename_i hout
      obtain ⟨stop, tail, heq, hle, hchain⟩ := ih (fun s hs => .inl (hfirst s hs)) hsorted
      refine ⟨last.2, mergeFrom r rest, rfl, Int.le_refl _, ?_⟩
      rw [heq] at hchain ⊢
      exact .cons_cons ⟨Range.le_iff.mpr (by dsimp only; omega), by dsimp only; omega⟩ hchain

theorem sort_sorted (anyRanges : List Range) : (anyRanges.mergeSort Range.le).Pairwise (Range.le · ·) := by
  apply pairwise_mergeSort
  · intro a b c hab hbc
    rw [Range.le_iff] at *
    omega
  · intro a b
    rw [Bool.or_eq_true, Range.le_iff, Range.le_iff]
    omega

/-- The collected ranges mean the same after they are combined, and the merged ones stand apart, in order. -/
theorem combine_exact (ranges anyRanges : List Range) :
    (collapse ranges).length ≤ 1 ∧ (∀ t, (∀ r ∈ collapse ranges, r.Has t) ↔ ∀ r ∈ ranges, r.Has t) ∧
    (∀ t, (∃ r ∈ merge anyRanges, r.Has t) ↔ ∃ r ∈ anyRanges, r.Has t) ∧ (merge anyRanges).IsChain Range.Before := by
  refine ⟨by cases ranges <;> simp [collapse], fun t => collapse_has, ?_⟩
  unfold merge
  split
  · have hmem := @mem_mergeSort _ Range.le (l := anyRanges)
    have hsorted := sort_sorted anyRanges
    split
    · rename_i hnil
      refine ⟨fun t => ?_, .nil⟩
      simp only [← @mem_mergeSort _ Range.le _ anyRanges, hnil]
    · rename_i r rest hcons
      rw [hcons] at hsorted
      obtain ⟨hfirst, hsorted⟩ := pairwise_cons.mp hsorted
      obtain ⟨-, -, -, -, hchain⟩ := @mergeFrom_before r rest (fun s hs => .inl (hfirst s hs)) hsorted
      refine ⟨fun t => ?_, hchain⟩
      rw [mergeFrom_has (fun s hs => ?_) hsorted]
      · simp only [← @mem_mergeSort _ Range.le _ anyRanges, hcons, exists_mem_cons_iff]
      · have hle := Range.le_iff.mp (hfirst s hs)
        omega
  · rename_i hshort
    refine ⟨fun _ => .rfl, ?_⟩
    match anyRanges, hshort with
    | [], _ => exact .nil
    | [r], _ => exact .singleton _
    | _ :: _ :: _, h => simp at h

end LibreServ.Search
