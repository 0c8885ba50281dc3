import LibreServ.JsValue

/-! The smallest edit that turns one text into another: `setYText`, and the changes of a table cell and of a table. They
compare 16-bit units, two of which may be one character. -/

namespace LibreServ.TextEdits

open List Option

def units (c : Char) : List ℕ :=
  if c.toNat < 0x10000 then [c.toNat]
  else [0xD800 + (c.toNat - 0x10000) / 0x400, 0xDC00 + (c.toNat - 0x10000) % 0x400]

/-- A well-formed text as the engine holds it. -/
def utf16 (cs : List Char) : List ℕ := cs.flatMap units

/-- How many elements are the same from the start on. -/
def shared {α : Type} [DecidableEq α] : List α → List α → ℕ
  | x :: xs, y :: ys => if x = y then shared xs ys + 1 else 0
  | _, _ => 0

/-- `from` and `to` are `start` and `stop`. -/
structure Change where
  start : ℕ
  stop : ℕ
  insert : List ℕ
  deriving DecidableEq

/-- `prev` begins at `start`. The loop from the end stops at what the first loop has passed. -/
def changeOf (start : ℕ) (prev next : List Char) : Option Change :=
  if prev = next then none
  else
    let cur := utf16 prev
    let insert := utf16 next
    let pre := shared cur insert
    let suf := shared (cur.drop pre).reverse (insert.drop pre).reverse
    some ⟨start + pre, start + cur.length - suf, (insert.take (insert.length - suf)).drop pre⟩

def setYText (prev next : List Char) : Option Change := changeOf 0 prev next

/-- `TableController.apply`: the table begins at `start`. -/
def tableChange (start : ℕ) (cur insert : List Char) : Option Change := changeOf start cur insert

/-- `/\r\n|\r|\n/g` becomes a blank. -/
def flatten : List Char → List Char
  | '\r' :: '\n' :: cs | '\r' :: cs | '\n' :: cs => ' ' :: flatten cs
  | c :: cs => c :: flatten cs
  | [] => []

/-- `odd`: an odd run of backslashes has just ended. -/
def escapePipes (odd : Bool) : List Char → List Char
  | [] => []
  | c :: cs => (if c = '|' ∧ odd = false then ['\\', c] else [c]) ++ escapePipes (c = '\\' && !odd) cs

def encodeTableCell (value : List Char) : List Char := escapePipes false (flatten value)

/-- What a cell that was `raw` is to be. -/
def cellText (raw value : List Char) : List Char :=
  let enc := Js.trim (encodeTableCell value)
  let lead := raw.takeWhile Js.isSpace
  let trail := raw.rtakeWhile Js.isSpace
  if enc = [] then if lead ≠ [] ∨ trail ≠ [] then [' '] else [] else lead ++ enc ++ trail

/-- What is written for a missing cell of a row that ends with `before` and has `realCount` cells of `cols`. -/
def missingText (before enc : List Char) (cols realCount c : ℕ) : List Char :=
  (if before.getLast? = some '|' then [] else [' ', '|']) ++
    (List.range' realCount (cols - realCount)).flatMap fun j =>
      if j = c then ' ' :: enc ++ [' ', '|'] else [' ', ' ', '|']

/-- The table begins at `start`; `left` is what it has before the cell. A missing cell has no `raw`. -/
def cellChange (start : ℕ) (left : List Char) (raw : Option (List Char)) (cols realCount c : ℕ) (value : List Char) :
    Option Change :=
  match raw with
  | some raw => changeOf (start + (utf16 left).length) raw (cellText raw value)
  | none =>
    let enc := Js.trim (encodeTableCell value)
    if enc = [] then none
    else
      let before := left.rdropWhile [' ', '\t', '\r'].contains
      let insert := missingText before enc cols realCount c
      some ⟨start + (utf16 before).length, start + (utf16 before).length, utf16 insert⟩

/-! ### What an edit should be -/

/-- What lies before `i` is made of whole characters. -/
def Boundary (u : List ℕ) (i : ℕ) : Prop := ∃ cs, u.take i = utf16 cs

structure Change.Exact (e : Change) (prev next : List Char) : Prop where
  turns : (utf16 prev).take e.start ++ e.insert ++ (utf16 prev).drop e.stop = utf16 next
  deleted : Boundary (utf16 prev) e.start ∧ Boundary (utf16 prev) e.stop
  inserted : Boundary (utf16 next) e.start ∧ Boundary (utf16 next) (e.start + e.insert.length)

/-- Both begin with a character, and `f` gives the same first unit for both. -/
def Half (f : Char → List ℕ) (p q : List Char) : Prop := ∃ x ∈ p.head?, ∃ y ∈ q.head?, (f x).head? = (f y).head?

instance (f : Char → List ℕ) (p q : List Char) : Decidable (Half f p q) :=
  inferInstanceAs (Decidable (∃ x ∈ p.head?, ∃ y ∈ q.head?, _))

/-- Where the characters begin to differ, they differ in the first half; where they end to, in the second. -/
def Apart (p q : List Char) : Prop :=
  let p' := p.drop (shared p q)
  let q' := q.drop (shared p q)
  let n := shared p'.reverse q'.reverse
  ¬ Half units p' q' ∧ ¬ Half (fun c => (units c).reverse) (p'.reverse.drop n) (q'.reverse.drop n)

/-! ### What two lists share -/

section

variable {α : Type} [DecidableEq α]

theorem shared_append (s u v : List α) : shared (s ++ u) (s ++ v) = s.length + shared u v := by
  induction s with
  | nil => simp
  | cons x s ih =>
    simp only [cons_append, shared, ite_true, length_cons]
    omega

theorem shared_spec (p q : List α) : ∃ s p' q', p = s ++ p' ∧ q = s ++ q' ∧ shared p q = s.length ∧
    ∀ x ∈ p'.head?, ∀ y ∈ q'.head?, x ≠ y := by
  induction p generalizing q with
  | nil => exact ⟨[], [], q, by simp [shared]⟩
  | cons x p ih =>
    cases q with
    | nil => exact ⟨[], x :: p, [], by simp [shared]⟩
    | cons y q =>
      by_cases heq : x = y
      · obtain ⟨s, p', q', rfl, rfl, hs, hne⟩ := ih q
        exact ⟨x :: s, p', q', by simpa [shared, heq, hs] using hne⟩
      · exact ⟨[], x :: p, y :: q, by simp [shared, heq]⟩

end

/-- Of texts that `f` writes, one unit more is shared than the characters', if only the rest of the next two differs. -/
theorem shared_flatMap {f : Char → List ℕ} (hf : ∀ x y r r', x ≠ y →
      shared (f x ++ r) (f y ++ r') = if (f x).head? = (f y).head? then 1 else 0) (s : List Char) {p q : List Char}
    (hne : ∀ x ∈ p.head?, ∀ y ∈ q.head?, x ≠ y) :
    shared ((s ++ p).flatMap f) ((s ++ q).flatMap f) = (s.flatMap f).length + if Half f p q then 1 else 0 := by
  rw [flatMap_append, flatMap_append, shared_append]
  refine congrArg _ ?_
  cases p with
  | nil => simp [Half, shared]
  | cons x p =>
    cases q with
    | nil => simp [Half, shared]
    | cons y q => simpa [Half] using hf x y _ _ (hne x rfl y rfl)

/-! ### Characters -/

theorem toNat_valid (c : Char) : c.toNat < 0xD800 ∨ (0xDFFF < c.toNat ∧ c.toNat < 0x110000) := c.valid

section

variable {x y : Char} (hne : x ≠ y)
include hne

theorem shared_units (r r' : List ℕ) :
    (shared (units x ++ r) (units y ++ r') = if (units x).head? = (units y).head? then 1 else 0) ∧
      shared ((units x).reverse ++ r) ((units y).reverse ++ r') =
        if (units x).reverse.head? = (units y).reverse.head? then 1 else 0 := by
  have hne : x.toNat ≠ y.toNat := fun h => hne (Char.toNat_inj.mp h)
  have hx := toNat_valid x
  have hy := toNat_valid y
  unfold units
  constructor <;> split <;> split <;> simp [shared] <;> split_ifs <;> omega

/-- Only characters of two units share one. -/
theorem units_of_half (h : (units x).head? = (units y).head? ∨ (units x).reverse.head? = (units y).reverse.head?) :
    ∃ a b, units x = [a, b] ∧ 0xD800 ≤ a ∧ a < 0xDC00 := by
  have hne : x.toNat ≠ y.toNat := fun h => hne (Char.toNat_inj.mp h)
  have hx := toNat_valid x
  have hy := toNat_valid y
  by_cases hone : x.toNat < 0x10000
  · unfold units at h
    rw [if_pos hone] at h
    split at h <;> simp at h <;> omega
  · exact ⟨_, _, if_neg hone, by omega, by omega⟩

end

theorem utf16_append (p q : List Char) : utf16 (p ++ q) = utf16 p ++ utf16 q := flatMap_append

theorem utf16_reverse (p : List Char) : (utf16 p).reverse = p.reverse.flatMap fun c => (units c).reverse :=
  reverse_flatMap

theorem boundary_append (p q : List Char) : Boundary (utf16 (p ++ q)) (utf16 p).length :=
  ⟨p, by rw [utf16_append, take_left]⟩

/-- Nothing ends with a first half. -/
theorem not_boundary (p : List Char) {a : ℕ} (h : 0xD800 ≤ a ∧ a < 0xDC00) (u : List ℕ) :
    ¬ Boundary (utf16 p ++ a :: u) ((utf16 p).length + 1) := by
  rintro ⟨cs, hcs⟩
  have hlast : (utf16 cs).getLast? = some a := by
    rw [← hcs]
    simp [List.take_append]
  rcases eq_nil_or_concat cs with rfl | ⟨cs, c, rfl⟩
  · cases hlast
  · have hc := toNat_valid c
    rw [concat_eq_append, utf16_append] at hlast
    simp only [utf16, flatMap_singleton, units] at hlast
    split at hlast <;> simp at hlast <;> omega

/-! ### When an edit is what it should be -/

theorem exact_of_whole (a m n b : List Char) :
    Change.Exact ⟨(utf16 a).length, (utf16 (a ++ m)).length, utf16 n⟩ (a ++ m ++ b) (a ++ n ++ b) := by
  refine ⟨?_, ⟨?_, boundary_append ..⟩, ?_, ?_⟩
  · simp [utf16_append]
  · exact append_assoc a m b ▸ boundary_append ..
  · exact append_assoc a n b ▸ boundary_append ..
  · rw [← length_append, ← utf16_append]
    exact boundary_append ..

theorem exact_iff (a p q b : List Char) :
    (∀ e ∈ changeOf (utf16 a).length p q, e.Exact (a ++ p ++ b) (a ++ q ++ b)) ↔ Apart p q := by
  by_cases heq : p = q
  · have hself : shared q q = q.length := by simpa [shared] using shared_append q [] []
    simp [changeOf, heq, Apart, hself, Half]
  obtain ⟨s, p, q, rfl, rfl, hs, hne⟩ := shared_spec p q
  obtain ⟨t, m, n, hm, hn, ht, hne'⟩ := shared_spec p.reverse q.reverse
  rw [hm, hn] at ht
  have hpre : shared (utf16 (s ++ p)) (utf16 (s ++ q)) = (utf16 s).length + if Half units p q then 1 else 0 :=
    shared_flatMap (fun _ _ r r' h => (shared_units h r r').1) s hne
  have hsuf : shared (utf16 p).reverse (utf16 q).reverse =
      (utf16 t.reverse).length + if Half (fun c => (units c).reverse) m n then 1 else 0 := by
    have hlen := congrArg length (utf16_reverse t.reverse)
    rw [length_reverse, reverse_reverse] at hlen
    rw [utf16_reverse, utf16_reverse, hm, hn, shared_flatMap (fun _ _ r r' h => (shared_units h r r').2) t hne', hlen]
  have hapart : Apart (s ++ p) (s ++ q) ↔ ¬ Half units p q ∧ ¬ Half (fun c => (units c).reverse) m n := by
    simp only [Apart, hs, drop_left, ht, hm, hn]
  have hdrop : ∀ r, (utf16 (s ++ r)).drop (utf16 s).length = utf16 r := fun r => by rw [utf16_append, drop_left]
  have hp : p = m.reverse ++ t.reverse := reverse_injective (by simpa using hm)
  have hq : q = n.reverse ++ t.reverse := reverse_injective (by simpa using hn)
  rw [changeOf, if_neg heq, hapart]
  simp only [mem_some_iff, forall_eq', hpre]
  by_cases hfirst : Half units p q
  · refine iff_of_false (fun h => ?_) fun h => h.1 hfirst
    rw [if_pos hfirst] at h
    obtain ⟨x, hx, y, hy, hxy⟩ := hfirst
    obtain ⟨c, d, hunits, hc⟩ := units_of_half (hne x hx y hy) (.inl hxy)
    obtain ⟨p', rfl⟩ := head?_eq_some_iff.mp hx
    refine not_boundary (a ++ s) hc (d :: utf16 (p' ++ b)) ?_
    convert h.deleted.1 using 1
    · simp [utf16, hunits]
    · simp [utf16_append, Nat.add_assoc]
  rw [if_neg hfirst, Nat.add_zero, hdrop, hdrop, hsuf]
  by_cases hlast : Half (fun c => (units c).reverse) m n
  · refine iff_of_false (fun h => ?_) fun h => h.2 hlast
    rw [if_pos hlast] at h
    obtain ⟨x, hx, y, hy, hxy⟩ := hlast
    obtain ⟨c, d, hunits, hc⟩ := units_of_half (hne' x hx y hy) (.inr hxy)
    obtain ⟨m', rfl⟩ := head?_eq_some_iff.mp hx
    refine not_boundary (a ++ s ++ m'.reverse) hc (d :: utf16 (t.reverse ++ b)) ?_
    convert h.deleted.2 using 1
    · simp [utf16, hunits, hp]
    · simp [utf16, hunits, hp]
      omega
  · refine iff_of_true ?_ ⟨hfirst, hlast⟩
    have hstart : (utf16 a).length + (utf16 s).length = (utf16 (a ++ s)).length := by simp [utf16_append]
    have hstop : (utf16 a).length + (utf16 (s ++ p)).length - (utf16 t.reverse).length =
        (utf16 (a ++ s ++ m.reverse)).length := by
      simp [hp, utf16_append]
      omega
    have hinsert : ((utf16 (s ++ q)).take ((utf16 (s ++ q)).length - (utf16 t.reverse).length)).drop (utf16 s).length =
        utf16 n.reverse := by
      simp [hq, utf16_append, List.take_append, ← Nat.add_assoc]
    rw [if_neg hlast, Nat.add_zero, hstart, hstop, hinsert, hp, hq]
    simpa using exact_of_whole (a ++ s) m.reverse n.reverse (t.reverse ++ b)

/-- A missing cell is written between two characters. -/
theorem exact_missing (a left r value : List Char) (cols realCount c : ℕ) :
    ∀ e ∈ cellChange (utf16 a).length left none cols realCount c value,
      ∃ l' r' cs, left ++ r = l' ++ r' ∧ e.Exact (a ++ (l' ++ r')) (a ++ (l' ++ cs ++ r')) := by
  intro e he
  obtain ⟨-, he⟩ := ite_none_left_eq_some.mp he
  cases he
  obtain ⟨r', hr'⟩ := rdropWhile_prefix [' ', '\t', '\r'].contains left
  generalize left.rdropWhile [' ', '\t', '\r'].contains = before at hr' ⊢
  refine ⟨before, r' ++ r, missingText before (Js.trim (encodeTableCell value)) cols realCount c,
    by rw [← append_assoc, hr'], ?_⟩
  simpa [utf16_append] using exact_of_whole (a ++ before) [] (missingText before _ cols realCount c) (r' ++ r)

/-- **The smallest edit.** It turns one text into the other, and cuts no character, if and only if no two characters that
meet first or last in what differs share the half that comes first or last. -/
theorem edits_exact_iff (p q : List Char) : ((∀ e ∈ setYText p q, e.Exact p q) ↔ Apart p q) ∧ ∀ a b : List Char,
      (∀ cur next, (∀ e ∈ tableChange (utf16 a).length cur next, e.Exact (a ++ cur ++ b) (a ++ next ++ b)) ↔
        Apart cur next) ∧
      ∀ (left value : List Char) (cols realCount c : ℕ),
        (∀ raw, (∀ e ∈ cellChange (utf16 a).length left (some raw) cols realCount c value,
          e.Exact (a ++ left ++ raw ++ b) (a ++ left ++ cellText raw value ++ b)) ↔ Apart raw (cellText raw value)) ∧
        ∀ e ∈ cellChange (utf16 a).length left none cols realCount c value,
          ∃ l' r' cs, left ++ b = l' ++ r' ∧ e.Exact (a ++ (l' ++ r')) (a ++ (l' ++ cs ++ r')) := by
  refine ⟨?_, fun a b => ⟨fun cur next => exact_iff a cur next b, fun left value cols realCount c =>
    ⟨fun raw => ?_, exact_missing a left b value cols realCount c⟩⟩⟩
  · simpa [setYText, utf16] using exact_iff [] p q []
  · simpa [cellChange, utf16_append] using exact_iff (a ++ left) raw (cellText raw value) b

/-- Two faces of one first half. -/
theorem edit_not_exact : ¬ ∀ p q, ∀ e ∈ setYText p q, e.Exact p q := by
  intro h
  have hexact := h ['😀'] ['😁'] ⟨1, 2, [0xDE01]⟩ (by decide)
  exact not_boundary [] (by decide) [0xDE00] hexact.deleted.1

end LibreServ.TextEdits
