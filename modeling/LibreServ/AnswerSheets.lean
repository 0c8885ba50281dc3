import Mathlib

/-! Answers as a table: `responsesToCsv` of `formDocument.js` writes them, and `parseDelimited` of `delimited.js` reads
such a table. A text is the list of its UTF-16 units. -/

namespace LibreServ.Csv

open List

abbrev Text := List UInt16

def quote : UInt16 := 34
def comma : UInt16 := 44
def lf : UInt16 := 10
def cr : UInt16 := 13
def apostrophe : UInt16 := 39

/-- `/^[=+\-@\t\r]/`: a program for tables takes such a text for a formula. -/
def IsFormula (text : Text) : Prop := ∃ u ∈ text.head?, u ∈ ([61, 43, 45, 64, 9, cr] : Text)

instance (text : Text) : Decidable (IsFormula text) := inferInstanceAs (Decidable (∃ u ∈ text.head?, _))

/-- `text.replace(/"/g, '""')`. -/
def doubled (text : Text) : Text := text.flatMap fun u => if u = quote then [quote, quote] else [u]

def csvCell (value : Text) : Text :=
  let text := if IsFormula value then apostrophe :: value else value
  if ∃ u ∈ text, u ∈ [quote, comma, lf, cr] then quote :: doubled text ++ [quote] else text

def join (sep : UInt16) : List Text → Text
  | [] => []
  | [text] => text
  | text :: rest => text ++ sep :: join sep rest

structure Column where
  id : Text
  label : Text

/-- A record of an answer. A time that is missing, or no number, is 0. -/
structure Response (V : Type) where
  sentAt : Int
  at_ : Int
  answers : Text → Option V

def responseSentAt {V : Type} (rec : Response V) : Int := if 0 < rec.sentAt then rec.sentAt else rec.at_

variable {V : Type} (toISOString : Int → Text) (formatValue : Column → Option V → Text)

def header (columns : List Column) : List Text :=
  [83, 117, 98, 109, 105, 116, 116, 101, 100] :: columns.map (·.label)

/-- The texts of a row: when the answer was sent, and what it says. -/
def texts (columns : List Column) (rec : Response V) : List Text :=
  let sent := responseSentAt rec
  (if sent = 0 then [] else toISOString (sent * 1000)) :: columns.map fun col => formatValue col (rec.answers col.id)

def responsesToCsv (columns : List Column) (responses : List (Response V)) : Text :=
  let lines := join comma ((header columns).map csvCell) ::
    responses.map fun rec => join comma ((texts toISOString formatValue columns rec).map csvCell)
  join lf lines ++ [lf]

structure Reader where
  rows : List (List Text)
  row : List Text
  field : Text
  quoted : Bool
  fieldStart : Bool

def endField (r : Reader) : Reader := { r with row := r.row ++ [r.field], field := [], fieldStart := true }

def endRow (r : Reader) : Reader :=
  let r := endField r
  { r with rows := r.rows ++ [r.row], row := [] }

def read (d : UInt16) : Text → Reader → Reader
  | [], r => r
  | ch :: rest, r =>
    if r.quoted then
      if ch = quote then
        if rest.head? = some quote then read d rest.tail { r with field := r.field ++ [quote] }
        else read d rest { r with quoted := false }
      else read d rest { r with field := r.field ++ [ch] }
    -- a quote opens a field at its start only
    else if ch = quote ∧ r.fieldStart then read d rest { r with quoted := true, fieldStart := false }
    else if ch = d then read d rest (endField r)
    else if ch = cr ∨ ch = lf then
      if ch = cr ∧ rest.head? = some lf then read d rest.tail (endRow r) else read d rest (endRow r)
    else read d rest { r with field := r.field ++ [ch], fieldStart := false }
termination_by text => text.length
decreasing_by all_goals simp only [length_tail, length_cons]; omega

def parseDelimited (text : Text) (d : UInt16) : List (List Text) :=
  let src := if text.head? = some 0xfeff then text.tail else text
  let r := read d src ⟨[], [], [], false, true⟩
  let r := if r.field ≠ [] ∨ r.row ≠ [] then endRow r else r
  r.rows.rdropWhile fun row => row.all (· = [])

/-- A cell as it reads: with an apostrophe where its text was a formula. -/
def shown (text : Text) : Text := if IsFormula text then apostrophe :: text else text

variable {rows : List (List Text)} {row : List Text} {field text rest : Text} {start : Bool}

theorem not_isFormula_shown : ¬ IsFormula (shown text) := by
  unfold shown
  split
  · rintro ⟨u, hu, hmark⟩
    cases Option.some.inj hu
    exact absurd hmark (by decide)
  · assumption

/-- Units that mean nothing to the reader. -/
theorem read_plain (hplain : ¬ ∃ u ∈ text, u ∈ [quote, comma, lf, cr]) :
    ∃ start', read comma (text ++ rest) ⟨rows, row, field, false, start⟩ =
      read comma rest ⟨rows, row, field ++ text, false, start'⟩ := by
  induction text generalizing field start with
  | nil => exact ⟨start, by rw [nil_append, append_nil]⟩
  | cons u text ih =>
    have hu : u ∉ [quote, comma, lf, cr] := fun h => hplain ⟨u, mem_cons_self, h⟩
    simp only [mem_cons, not_mem_nil, or_false, not_or] at hu
    obtain ⟨hquote, hcomma, hlf, hcr⟩ := hu
    obtain ⟨start', htext⟩ := @ih (field ++ [u]) false fun ⟨v, hv, h⟩ => hplain ⟨v, mem_cons_of_mem _ hv, h⟩
    refine ⟨start', ?_⟩
    rw [cons_append, read, if_neg Bool.false_ne_true, if_neg (fun h => hquote h.1), if_neg hcomma,
      if_neg (not_or.mpr ⟨hcr, hlf⟩), htext, append_assoc, singleton_append]

/-- A quoted text ends at the quote that no other one follows. -/
theorem read_doubled (hrest : rest.head? ≠ some quote) :
    read comma (doubled text ++ quote :: rest) ⟨rows, row, field, true, false⟩ =
      read comma rest ⟨rows, row, field ++ text, false, false⟩ := by
  induction text generalizing field with
  | nil => rw [doubled, flatMap_nil, nil_append, read, if_pos rfl, if_pos rfl, if_neg hrest, append_nil]
  | cons u text ih =>
    have hu : doubled (u :: text) = (if u = quote then [quote, quote] else [u]) ++ doubled text := flatMap_cons
    rw [hu]
    split
    · subst u
      simp only [cons_append, nil_append]
      rw [read, if_pos rfl, if_pos rfl, if_pos head?_cons, tail_cons, ih, append_assoc, singleton_append]
    · rename_i hne
      simp only [cons_append, nil_append]
      rw [read, if_pos rfl, if_neg hne, ih, append_assoc, singleton_append]

theorem read_cell (value : Text) (hrest : rest.head? ≠ some quote) :
    ∃ start', read comma (csvCell value ++ rest) ⟨rows, row, [], false, true⟩ =
      read comma rest ⟨rows, row, shown value, false, start'⟩ := by
  show ∃ start', read comma ((if ∃ u ∈ shown value, u ∈ [quote, comma, lf, cr] then
    quote :: doubled (shown value) ++ [quote] else shown value) ++ rest) _ = _
  split
  · refine ⟨false, ?_⟩
    rw [append_assoc, cons_append, singleton_append, read, if_neg Bool.false_ne_true, if_pos ⟨rfl, rfl⟩,
      read_doubled hrest, nil_append]
  · rename_i hplain
    exact read_plain hplain

theorem read_comma : read comma (comma :: rest) ⟨rows, row, field, false, start⟩ =
    read comma rest ⟨rows, row ++ [field], [], false, true⟩ := by
  rw [read, if_neg Bool.false_ne_true]
  rfl

theorem read_lf : read comma (lf :: rest) ⟨rows, row, field, false, start⟩ =
    read comma rest ⟨rows ++ [row ++ [field]], [], [], false, true⟩ := by
  rw [read, if_neg Bool.false_ne_true, if_neg fun h => absurd h.1 (by decide), if_neg (by decide), if_pos (by decide),
    if_neg fun h => absurd h.1 (by decide)]
  rfl

theorem read_line (cell : Text) (cells : List Text) :
    read comma (join comma ((cell :: cells).map csvCell) ++ lf :: rest) ⟨rows, row, [], false, true⟩ =
      read comma rest ⟨rows ++ [row ++ (cell :: cells).map shown], [], [], false, true⟩ := by
  induction cells generalizing cell row with
  | nil =>
    have hsep : (lf :: rest).head? ≠ some quote := fun h => absurd (Option.some.inj h) (by decide)
    obtain ⟨start, hcell⟩ := @read_cell rows row (lf :: rest) cell hsep
    show read comma (csvCell cell ++ lf :: rest) _ = _
    rw [hcell, read_lf]
    rfl
  | cons next cells ih =>
    have hsep : (comma :: (join comma ((next :: cells).map csvCell) ++ lf :: rest)).head? ≠ some quote :=
      fun h => absurd (Option.some.inj h) (by decide)
    obtain ⟨start, hcell⟩ := @read_cell rows row _ cell hsep
    show read comma ((csvCell cell ++ comma :: join comma ((next :: cells).map csvCell)) ++ lf :: rest) _ = _
    rw [append_assoc, cons_append, hcell, read_comma]
    refine (@ih (row ++ [shown cell]) next).trans ?_
    rw [append_assoc]
    rfl

/-- Rows of cells. -/
theorem read_lines (lines : List (List Text)) (hne : ∀ line ∈ lines, line ≠ []) (hl : lines ≠ []) :
    read comma (join lf (lines.map fun line => join comma (line.map csvCell)) ++ [lf]) ⟨rows, [], [], false, true⟩ =
      ⟨rows ++ lines.map (·.map shown), [], [], false, true⟩ := by
  induction lines generalizing rows with
  | nil => exact absurd rfl hl
  | cons line lines ih =>
    obtain ⟨cell, cells, rfl⟩ := exists_cons_of_ne_nil (hne line mem_cons_self)
    cases lines with
    | nil =>
      refine (@read_line rows [] [] cell cells).trans ?_
      rw [read]
      rfl
    | cons next lines =>
      show read comma ((join comma ((cell :: cells).map csvCell) ++
        lf :: join lf ((next :: lines).map fun line => join comma (line.map csvCell))) ++ [lf]) _ = _
      rw [append_assoc, cons_append, read_line, ih (fun l hl => hne l (mem_cons_of_mem _ hl)) (cons_ne_nil _ _),
        append_assoc]
      rfl

theorem rdropWhile_cons {α : Type} {p : α → Bool} {a : α} {l : List α} (ha : p a = false) :
    (a :: l).rdropWhile p = a :: l.rdropWhile p := by
  induction l using reverseRecOn with
  | nil => rw [rdropWhile_singleton, ha]; rfl
  | append_singleton l b ih =>
    rw [← cons_append, rdropWhile_concat, rdropWhile_concat, ih]
    split <;> rfl

end LibreServ.Csv
