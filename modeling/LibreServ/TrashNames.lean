import LibreServ.PurgeNames

/-! What the trash reads out of the name of an entry. A name that itself starts with a number and a dash loses them:
the entry looks like one that got a second number for a clash. -/

namespace LibreServ.Files

open Drive List

def startsNumbered (name : Text) : Bool :=
  match splitOnce name with
  | some (first, _) => first.all Char.isDigit && first ≠ []
  | none => false

/-- The generated part of an entry's name. -/
def entryLead (now n : Nat) : Text := trashEntryName now n []

/-- What is expected of an item's entry, and of the entry that is renamed to `newName`. -/
structure ReadsBack (l : Layout) (now n : Nat) (name newName : Text) : Prop where
  original : originalNameFromTrash (trashEntryName now n name) = name
  lead : renamedTo [trashEntryName now n name, l.trashName] newName = entryLead now n ++ newName
  renamed : originalNameFromTrash (renamedTo [trashEntryName now n name, l.trashName] newName) = newName

variable {l : Layout} {now n : Nat} {name newName : Text}

theorem entry_eq : trashEntryName now n name = entryLead now n ++ name := by
  unfold entryLead trashEntryName
  split <;> simp

theorem dash_not_mem_digits (k : Nat) : '-' ∉ Nat.toDigits 10 k := fun hmem =>
  absurd (Nat.isDigit_of_mem_toDigits (by decide) (by decide) hmem) (by decide)

theorem all_isDigit_digits (k : Nat) : (Nat.toDigits 10 k).all Char.isDigit = true :=
  all_eq_true.mpr fun _ hch => Nat.isDigit_of_mem_toDigits (by decide) (by decide) hch

theorem splitOnce_length {t first rest : Text} (h : splitOnce t = some (first, rest)) : rest.length < t.length := by
  unfold splitOnce at h
  split at h
  · cases h
  · rename_i hdrop
    obtain ⟨-, rfl⟩ := Prod.mk.inj (Option.some.inj h)
    have hsuffix := dropWhile_suffix (l := t) fun ch => decide (ch ≠ '-')
    rw [hdrop] at hsuffix
    exact hsuffix.length_le

theorem original_of_digits (rest : Text) : originalNameFromTrash (Nat.toDigits 10 now ++ '-' :: rest) =
    if startsNumbered rest then ((splitOnce rest).map Prod.snd).getD [] else rest := by
  rw [originalNameFromTrash, splitOnce_append (dash_not_mem_digits now), startsNumbered]
  dsimp only
  rw [if_neg (not_not.mpr (all_isDigit_digits now))]
  cases splitOnce rest <;> simp

theorem original_second (hn : n ≠ 0) : originalNameFromTrash (entryLead now n ++ name) = name := by
  have hsplit := splitOnce_append (dash_not_mem_digits n) name
  have hnumbered : startsNumbered (Nat.toDigits 10 n ++ '-' :: name) = true := by
    simp [startsNumbered, hsplit, all_isDigit_digits]
  rw [← entry_eq, trashEntryName, if_neg hn, append_assoc, cons_append, original_of_digits, if_pos hnumbered, hsplit]
  rfl

theorem original_first : originalNameFromTrash (entryLead now 0 ++ name) = name ↔ startsNumbered name = false := by
  rw [← entry_eq, trashEntryName, if_pos rfl, original_of_digits]
  cases hnumbered : startsNumbered name with
  | false => simp
  | true =>
    refine iff_of_false (fun hsame => ?_) Bool.true_eq_false.mp
    unfold startsNumbered at hnumbered
    split at hnumbered
    · rename_i first rest hsplit
      rw [hsplit] at hsame
      have hlt := splitOnce_length hsplit
      rw [← hsame] at hlt
      exact Nat.lt_irrefl _ hlt
    · cases hnumbered

/-- The name is read back with its lead: then a new name stands behind the same lead. -/
theorem renamedTo_of_original (h : originalNameFromTrash (trashEntryName now n name) = name) :
    renamedTo [trashEntryName now n name, l.trashName] newName = entryLead now n ++ newName := by
  have hparts := trashEntryParts_trash l [] (trashEntryName now n name)
  rw [nil_append] at hparts
  rw [renamedTo, hparts]
  simp only [ne_eq, not_true_eq_false, decide_false]
  rw [h, entry_eq, length_append, Nat.add_sub_cancel, take_left]

/-- Both names are read back where the entry has its second number, or neither looks as if it had. -/
theorem readsBack_iff :
    ReadsBack l now n name newName ↔ n ≠ 0 ∨ startsNumbered name = false ∧ startsNumbered newName = false := by
  constructor
  · intro h
    by_cases hn : n = 0
    · subst hn
      have hname := h.original
      have hnew := h.renamed
      rw [entry_eq] at hname
      rw [h.lead] at hnew
      exact .inr ⟨original_first.mp hname, original_first.mp hnew⟩
    · exact .inl hn
  · intro h
    have hread : ∀ name', n ≠ 0 ∨ startsNumbered name' = false → originalNameFromTrash (entryLead now n ++ name') = name' := by
      rintro name' (hn | hplain)
      · exact original_second hn
      · by_cases hn : n = 0
        · subst hn
          exact original_first.mpr hplain
        · exact original_second hn
    have hname : originalNameFromTrash (trashEntryName now n name) = name := by
      rw [entry_eq]
      exact hread name (h.imp_right And.left)
    have hlead : renamedTo [trashEntryName now n name, l.trashName] newName = entryLead now n ++ newName :=
      renamedTo_of_original hname
    exact ⟨hname, hlead, by rw [hlead]; exact hread newName (h.imp_right And.right)⟩

/-- A report of the year 2024 loses the year. -/
theorem number_lost :
    ¬ ∀ now n name, safeName name = .ok name → originalNameFromTrash (trashEntryName now n name) = name := by
  intro h
  have hreport := h 1710000000 0 "2024-report.txt".toList (by decide +kernel)
  revert hreport
  decide +kernel

end LibreServ.Files
