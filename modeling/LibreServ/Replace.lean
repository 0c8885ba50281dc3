import Mathlib

/-! Replacement of a text in a text, from the left and without overlaps. -/

namespace Replace

open List

variable {α : Type} [DecidableEq α] {old new : List α}

/-- The text after the first `skip` characters, with every `old` replaced. -/
def after (old new : List α) : Nat → List α → List α
  | _, [] => []
  | skip + 1, _ :: rest => after old new skip rest
  | 0, c :: rest => if old <+: c :: rest then new ++ after old new (old.length - 1) rest else c :: after old new 0 rest

def replaceAll (old new l : List α) : List α := after old new 0 l

theorem after_eq_drop (skip : Nat) (l : List α) : after old new skip l = replaceAll old new (l.drop skip) := by
  induction l generalizing skip with
  | nil =>
    cases skip <;> rfl
  | cons c rest ih =>
    cases skip with
    | zero => rfl
    | succ skip => exact ih skip

theorem replaceAll_append (h : old ≠ []) (rest : List α) :
    replaceAll old new (old ++ rest) = new ++ replaceAll old new rest := by
  obtain ⟨c, tail, rfl⟩ := exists_cons_of_ne_nil h
  have hprefix : c :: tail <+: c :: (tail ++ rest) := prefix_append (c :: tail) rest
  rw [replaceAll, cons_append, after, after_eq_drop]
  simp

theorem replaceAll_cons {c : α} {rest : List α} (h : ¬ old <+: c :: rest) :
    replaceAll old new (c :: rest) = c :: replaceAll old new rest := by
  rw [replaceAll, after, if_neg h]
  rfl

/-- A text without `old` stays. -/
theorem replaceAll_eq_self {l : List α} (h : ¬ old <:+: l) : replaceAll old new l = l := by
  induction l with
  | nil => rfl
  | cons c rest ih =>
    rw [infix_cons_iff, not_or] at h
    rw [replaceAll_cons h.1, ih h.2]

/-- The length goes the way in which `new` differs from `old`. -/
theorem length_replaceAll (new : List α) (h : old ≠ []) (l : List α) :
    (old.length ≤ new.length → l.length ≤ (replaceAll old new l).length) ∧
      (new.length ≤ old.length → (replaceAll old new l).length ≤ l.length) := by
  induction hn : l.length using Nat.strong_induction_on generalizing l with
  | _ n ih =>
    subst hn
    cases l with
    | nil => exact ⟨fun _ => Nat.le_refl _, fun _ => Nat.le_refl _⟩
    | cons c rest =>
      by_cases hprefix : old <+: c :: rest
      · obtain ⟨tail, htail⟩ := hprefix
        have hpos : 0 < old.length := length_pos_of_ne_nil h
        rw [← htail, replaceAll_append h]
        have hlen : (c :: rest).length = old.length + tail.length := by rw [← htail, length_append]
        obtain ⟨hup, hdown⟩ := ih tail.length (by omega) tail rfl
        simp only [length_append]
        exact ⟨fun hle => by have := hup hle; omega, fun hle => by have := hdown hle; omega⟩
      · obtain ⟨hup, hdown⟩ := ih rest.length (by simp) rest rfl
        rw [replaceAll_cons hprefix]
        simp only [length_cons]
        exact ⟨fun hle => by have := hup hle; omega, fun hle => by have := hdown hle; omega⟩

/-- A text with `old` changes. -/
theorem replaceAll_ne (h : old ≠ []) (hne : old ≠ new) {l : List α} (hin : old <:+: l) : replaceAll old new l ≠ l := by
  induction l with
  | nil => exact absurd (infix_nil.mp hin) h
  | cons c rest ih =>
    by_cases hprefix : old <+: c :: rest
    · obtain ⟨tail, htail⟩ := hprefix
      rw [← htail, replaceAll_append h]
      intro heq
      obtain ⟨hup, hdown⟩ := length_replaceAll new h tail
      have hlen := congrArg length heq
      simp only [length_append] at hlen
      have hsame : new.length = old.length := by
        rcases Nat.le_total old.length new.length with hle | hle
        · have := hup hle
          omega
        · have := hdown hle
          omega
      exact hne (append_inj_left heq hsame).symm
    · rw [replaceAll_cons hprefix]
      intro heq
      exact ih ((infix_cons_iff.mp hin).resolve_left hprefix) (cons.inj heq).2

end Replace
