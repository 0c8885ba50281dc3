import Mathlib

/-! A list whose elements are numbered 1, 2, 3 and so on. What lies above a number is the list without its beginning,
and a beginning of the list ends with its own length. -/

namespace LibreServ

open List

variable {α : Type} {num : α → Int} {l l' : List α}

def Numbered (num : α → Int) (l : List α) : Prop := ∀ i (h : i < l.length), num (l[i]) = i + 1

namespace Numbered

theorem nil : Numbered num [] := by
  intro i h
  exact absurd h (Nat.not_lt_zero i)

section

variable (h : Numbered num l)

include h

/-- The numbers go on where the list ended. -/
theorem append (h' : ∀ i (hi : i < l'.length), num (l'[i]) = l.length + i + 1) :
    Numbered num (l ++ l') := by
  intro i hi
  rw [getElem_append]
  split
  · rename_i hlt
    exact h i hlt
  rename_i hge
  have hi' : i - l.length < l'.length := by
    rw [length_append] at hi
    omega
  rw [h' (i - l.length) hi']
  omega

theorem of_mem_drop {k : Nat} {a : α} (ha : a ∈ l.drop k) : (k : Int) < num a := by
  obtain ⟨i, hi, rfl⟩ := getElem_of_mem ha
  rw [getElem_drop, h]
  omega

theorem of_mem_take {k : Nat} {a : α} (ha : a ∈ l.take k) : num a ≤ k := by
  obtain ⟨i, hi, rfl⟩ := getElem_of_mem ha
  rw [length_take] at hi
  rw [getElem_take, h]
  omega

theorem filter_drop {b k : Nat} (hle : b ≤ k) :
    ((l.drop b).filter fun a => (k : Int) < num a) = l.drop k := by
  have hsplit : l.drop b = (l.drop b).take (k - b) ++ l.drop k := by
    have hdrop : (l.drop b).drop (k - b) = l.drop k := by
      rw [drop_drop]
      congr 1
      omega
    rw [← hdrop, take_append_drop]
  have hlow : (((l.drop b).take (k - b)).filter fun a => (k : Int) < num a) = [] := by
    apply filter_eq_nil_iff.mpr
    intro a ha
    have hmem : a ∈ l.take k := by
      rw [← drop_take] at ha
      exact mem_of_mem_drop ha
    have hnum := h.of_mem_take hmem
    rw [decide_eq_true_eq]
    omega
  have hhigh : ((l.drop k).filter fun a => (k : Int) < num a) = l.drop k := by
    apply filter_eq_self.mpr
    intro a ha
    exact decide_eq_true (h.of_mem_drop ha)
  rw [hsplit, filter_append, hlow, hhigh, nil_append]

theorem last_take {k : Nat} (hle : k ≤ l.length) : ((l.take k).getLast?.map num).getD 0 = k := by
  cases k with
  | zero => rfl
  | succ n =>
    have hlen : (l.take (n + 1)).length = n + 1 := by
      rw [length_take]
      omega
    have hget : (l.take (n + 1)).getLast? = some (l[n]) := by
      rw [getLast?_eq_getElem?, hlen, Nat.add_sub_cancel, getElem?_take_of_lt (Nat.lt_succ_self n)]
      exact getElem?_eq_getElem hle
    rw [hget]
    show num (l[n]) = _
    rw [h n hle]
    omega

end

/-- What ends a beginning of the list says how long it is. -/
theorem last_of_append (h : Numbered num (l ++ l')) : (l.getLast?.map num).getD 0 = l.length := by
  have htake : (l ++ l').take l.length = l := take_left
  have hlast := h.last_take (k := l.length) (by rw [length_append]; omega)
  rw [htake] at hlast
  exact hlast

end Numbered

end LibreServ
