import Mathlib

/-! Listing in pages by key. The keys come in order; a page holds the keys after a cursor, at most `limit` of them,
and one more is read to see whether others follow. The last key of a full page is the next cursor. Where the keys are
strictly ordered, a cursor leaves exactly the keys that no earlier page had. -/

namespace Keyset

open List

variable {α : Type} [LinearOrder α]

/-- The keys after a cursor. -/
def rest (keys : List α) (after : α) : List α := keys.filter fun k => after < k

structure Page (α : Type) where
  keys : List α
  next : Option α
  deriving DecidableEq

/-- `found` has up to one key too many. -/
def cut (limit : Nat) (found : List α) : Page α :=
  if limit < found.length then ⟨found.take limit, (found.take limit).getLast?⟩ else ⟨found, none⟩

def page (keys : List α) (limit : Nat) (after : α) : Page α := cut limit ((rest keys after).take (limit + 1))

variable {keys : List α} {limit : Nat} {after : α}

theorem mem_rest {k : α} : k ∈ rest keys after ↔ k ∈ keys ∧ after < k := by
  rw [rest, mem_filter, decide_eq_true_eq]

theorem page_of_le (h : (rest keys after).length ≤ limit) : page keys limit after = ⟨rest keys after, none⟩ := by
  have htake : (rest keys after).take (limit + 1) = rest keys after := take_of_length_le (by omega)
  rw [page, htake, cut, if_neg (by omega)]

theorem page_of_lt (h : limit < (rest keys after).length) :
    page keys limit after = ⟨(rest keys after).take limit, ((rest keys after).take limit).getLast?⟩ := by
  have hlen : limit < ((rest keys after).take (limit + 1)).length := by
    rw [length_take]
    omega
  rw [page, cut, if_pos hlen, take_take, Nat.min_eq_left (Nat.le_succ limit)]

theorem page_keys_sublist : (page keys limit after).keys.Sublist (rest keys after) := by
  obtain hlt | hle := Nat.lt_or_ge limit (rest keys after).length
  · rw [page_of_lt hlt]
    exact take_sublist limit (rest keys after)
  · rw [page_of_le hle]

theorem length_page_le : (page keys limit after).keys.length ≤ limit := by
  obtain hlt | hle := Nat.lt_or_ge limit (rest keys after).length
  · rw [page_of_lt hlt, length_take]
    omega
  · rw [page_of_le hle]
    exact hle

/-- Only a full page has a next cursor, and that is its last key. -/
theorem page_next {a : α} (h : (page keys limit after).next = some a) :
    (page keys limit after).keys.length = limit ∧ (page keys limit after).keys.getLast? = some a := by
  obtain hlt | hle := Nat.lt_or_ge limit (rest keys after).length
  · rw [page_of_lt hlt] at h ⊢
    refine ⟨?_, h⟩
    rw [length_take]
    omega
  · rw [page_of_le hle] at h
    cases h

theorem rest_sorted (hkeys : keys.Pairwise (· < ·)) : (rest keys after).Pairwise (· < ·) :=
  hkeys.sublist filter_sublist

/-- A later cursor leaves what it leaves of the rest. -/
theorem rest_rest {a : α} (ha : after < a) : rest (rest keys after) a = rest keys a := by
  rw [rest, rest, filter_filter]
  apply filter_congr
  intro k _
  rw [Bool.and_eq_left_iff_imp]
  intro hk
  exact decide_eq_true (ha.trans (of_decide_eq_true hk))

/-- In an ordered list, a key leaves what stands behind it. -/
theorem rest_append_cons {front back : List α} {a : α} (h : (front ++ a :: back).Pairwise (· < ·)) :
    rest (front ++ a :: back) a = back := by
  rw [pairwise_append] at h
  obtain ⟨_, hback, hfront⟩ := h
  have hfront' : front.filter (fun k => a < k) = [] := by
    rw [filter_eq_nil_iff]
    intro k hk
    have hlt := hfront k hk a mem_cons_self
    simpa using hlt.le
  have hback' : back.filter (fun k => a < k) = back := by
    rw [filter_eq_self]
    intro k hk
    exact decide_eq_true (rel_of_pairwise_cons hback hk)
  rw [rest, filter_append, hfront', filter_cons_of_neg (by simp), hback', nil_append]

/-- The next cursor of a full page leaves what the page left. -/
theorem rest_next (hkeys : keys.Pairwise (· < ·)) (hlimit : 0 < limit) (h : limit < (rest keys after).length) :
    ∃ a, ((rest keys after).take limit).getLast? = some a ∧ a ∈ rest keys after ∧
      rest keys a = (rest keys after).drop limit := by
  obtain ⟨n, rfl⟩ : ∃ n, limit = n + 1 := ⟨limit - 1, by omega⟩
  have hn : n < (rest keys after).length := by omega
  obtain ⟨a, hget⟩ : ∃ a, (rest keys after)[n]? = some a := ⟨_, getElem?_eq_getElem hn⟩
  have htake : (rest keys after).take (n + 1) = (rest keys after).take n ++ [a] := by
    rw [take_add_one, hget, Option.toList_some]
  have hsplit : (rest keys after).take n ++ a :: (rest keys after).drop (n + 1) = rest keys after := by
    conv => rhs; rw [← take_append_drop (n + 1) (rest keys after), htake, append_assoc]
    rfl
  have hmem : a ∈ rest keys after := mem_of_getElem? hget
  have hafter : after < a := (mem_rest.mp hmem).2
  refine ⟨a, by rw [htake, getLast?_concat], hmem, ?_⟩
  have hsorted : (rest keys after).Pairwise (· < ·) := rest_sorted hkeys
  rw [← hsplit] at hsorted
  have hbehind := rest_append_cons hsorted
  rwa [hsplit, rest_rest hafter] at hbehind

/-- To follow the cursors is to go through the keys: what holds where no page follows, and before a page where it
holds after it, holds from any cursor on. -/
theorem cursor_induction (hkeys : keys.Pairwise (· < ·)) (hlimit : 0 < limit) {motive : α → Prop}
    (last : ∀ after, (rest keys after).length ≤ limit → motive after)
    (full : ∀ after a, limit < (rest keys after).length → ((rest keys after).take limit).getLast? = some a →
      a ∈ rest keys after → rest keys a = (rest keys after).drop limit → motive a → motive after)
    (after : α) : motive after := by
  obtain hlt | hle := Nat.lt_or_ge limit (rest keys after).length
  · obtain ⟨a, hlast, hmem, hdrop⟩ := rest_next hkeys hlimit hlt
    exact full after a hlt hlast hmem hdrop (cursor_induction hkeys hlimit last full a)
  · exact last after hle
termination_by (rest keys after).length
decreasing_by
  rw [hdrop, List.length_drop]
  omega

end Keyset
