import Mathlib

/-! Texts that mark their own end: a writer, a reader that gives back what is behind the text, and the law
that ties the two. Codecs for records are put together from those of their parts. -/

/-- A writer and its reader. -/
structure Codec (α : Type) where
  write : α → List UInt8
  parse : List UInt8 → Option (α × List UInt8)
  parse_write (a : α) (rest : List UInt8) : parse (write a ++ rest) = some (a, rest)

namespace Codec

open List Option

variable {α β : Type}

def parseUnary : List UInt8 → Option (ℕ × List UInt8)
  | [] => none
  | b :: bytes => if b = 0 then some (0, bytes) else (parseUnary bytes).map fun r => (r.1 + 1, r.2)

/-- A number, as that many ones and a zero. -/
def unary : Codec ℕ where
  write n := List.replicate n 1 ++ [0]
  parse := parseUnary
  parse_write n rest := by
    induction n with
    | zero => rfl
    | succ n ih =>
      rw [List.replicate_succ, List.cons_append, List.cons_append, parseUnary, ih]
      rfl

/-- One value behind another. -/
def both (a : Codec α) (b : Codec β) : Codec (α × β) where
  write v := a.write v.1 ++ b.write v.2
  parse bytes := (a.parse bytes).bind fun r => (b.parse r.2).map fun r' => ((r.1, r'.1), r'.2)
  parse_write v rest := by
    rw [List.append_assoc, a.parse_write, Option.bind_some, b.parse_write, Option.map_some]

/-- A value that is written as another. -/
def via (a : Codec α) (f : β → α) (g : α → Option β) (h : ∀ v, g (f v) = some v) : Codec β where
  write v := a.write (f v)
  parse bytes := (a.parse bytes).bind fun r => (g r.1).map fun v => (v, r.2)
  parse_write v rest := by
    rw [a.parse_write, Option.bind_some, h, Option.map_some]

def parseMany (a : Codec α) : ℕ → List UInt8 → Option (List α × List UInt8)
  | 0, bytes => some ([], bytes)
  | n + 1, bytes => (a.parse bytes).bind fun r => (parseMany a n r.2).map fun r' => (r.1 :: r'.1, r'.2)

theorem parseMany_flatMap (a : Codec α) (vs : List α) (rest : List UInt8) :
    parseMany a vs.length (vs.flatMap a.write ++ rest) = some (vs, rest) := by
  induction vs with
  | nil => rfl
  | cons v vs ih =>
    rw [flatMap_cons, append_assoc, length_cons, parseMany, a.parse_write, bind_some, ih, map_some]

/-- A list, behind its length. -/
def many (a : Codec α) : Codec (List α) where
  write vs := unary.write vs.length ++ vs.flatMap a.write
  parse bytes := (unary.parse bytes).bind fun r => parseMany a r.1 r.2
  parse_write vs rest := by
    rw [List.append_assoc, unary.parse_write, Option.bind_some, parseMany_flatMap]

def parseByte : List UInt8 → Option (UInt8 × List UInt8)
  | [] => none
  | b :: bytes => some (b, bytes)

def byte : Codec UInt8 where
  write b := [b]
  parse := parseByte
  parse_write _ _ := rfl

def text : Codec String :=
  (many unary).via (fun s => s.toList.map Char.toNat) (fun ns => some (String.ofList (ns.map Char.ofNat)))
    fun s => by
      have h : (s.toList.map Char.toNat).map Char.ofNat = s.toList := by
        rw [List.map_map]
        exact (List.map_congr_left fun c _ => Char.ofNat_toNat c).trans (List.map_id _)
      rw [h, String.ofList_toList]

/-- An integer: its size, and whether it is negative. -/
def int : Codec ℤ :=
  (both unary unary).via (fun z => (z.toNat, (-z).toNat)) (fun n => some ((n.1 : ℤ) - n.2)) fun z => by
    rw [Option.some.injEq]
    omega

/-- What a codec writes on its own, it reads back. -/
def read (a : Codec α) (bytes : List UInt8) : Option α := (a.parse bytes).map Prod.fst

theorem read_write (a : Codec α) (v : α) : a.read (a.write v) = some v := by
  have h := a.parse_write v []
  rw [append_nil] at h
  rw [read, h, map_some]

end Codec
