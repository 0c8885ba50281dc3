import LibreServ.PurgeSpares

/-! What a deletion forgets of the trash. An entry is forgotten by its path in the API, brought to one spelling first,
and that takes white space off its end. So an entry is forgotten exactly if its name ends in none. -/

namespace LibreServ.Files

open FileTree Drive List Table

variable {s : Drive} {entry t : Text} {p : Path} {segs : List Text}

/-! ### Segments of a trimmed path -/

theorem split_of_not_mem {seg : Text} (h : '/' ∉ seg) : split seg = [seg] := by
  have hsplit : splitOn '/' (['/'].intercalate [seg]) = [seg] :=
    splitOn_intercalate '/' (by simpa using h) (cons_ne_nil _ _)
  rwa [intercalate_singleton] at hsplit

/-- Behind a slash, only the last segment is trimmed. -/
theorem rdropWhile_after_slash (s seg : Text) :
    (s ++ '/' :: seg).rdropWhile isWhitespace = s ++ '/' :: seg.rdropWhile isWhitespace := by
  induction seg using reverseRecOn with
  | nil => exact rdropWhile_concat_neg _ _ _ (by decide)
  | append_singleton seg ch ih =>
    by_cases hch : isWhitespace ch = true
    · rw [← cons_append, ← append_assoc, rdropWhile_concat_pos _ _ _ hch, rdropWhile_concat_pos _ _ _ hch, ih]
    · rw [← cons_append, ← append_assoc, rdropWhile_concat_neg _ _ _ hch,
        rdropWhile_concat_neg _ _ _ hch, append_assoc, cons_append]

theorem infix_join_of_mem {seg : Text} (h : seg ∈ segs) : seg <:+: join segs := by
  induction segs with
  | nil => cases h
  | cons first segs ih =>
    by_cases hnil : segs = []
    · subst hnil
      rw [mem_singleton.mp h, join, intercalate_singleton]
    · rw [join_cons hnil]
      rcases mem_cons.mp h with rfl | h
      · exact (prefix_append _ _).isInfix
      · exact (ih h).trans ((suffix_cons _ _).trans (suffix_append _ _)).isInfix

/-- What has no `ch` in it lies on one side of it. -/
theorem infix_of_infix_append_cons {ch : Char} {x a b : Text} (hch : ch ∉ x) (h : x <:+: a ++ ch :: b) :
    x <:+: a ∨ x <:+: b := by
  obtain ⟨l, r, h⟩ := h
  rcases append_eq_append_iff.mp h with ⟨c, ha, -⟩ | ⟨c, hl, hrest⟩
  · exact .inl ⟨l, c, ha.symm⟩
  cases c with
  | nil =>
    rw [append_nil] at hl
    exact .inl (hl ▸ (suffix_append l x).isInfix)
  | cons first c =>
    rw [cons_append] at hrest
    obtain ⟨rfl, hb⟩ := cons.inj hrest
    rcases append_eq_append_iff.mp hl with ⟨d, -, hx⟩ | ⟨d, -, hd⟩
    · exact absurd (hx ▸ mem_append_right d mem_cons_self) hch
    cases d with
    | nil => exact absurd (hd ▸ mem_cons_self : ch ∈ [] ++ x) hch
    | cons first d =>
      rw [cons_append] at hd
      refine .inr ⟨d, r, ?_⟩
      rw [hb, (cons.inj hd).2]

/-- A name without a slash that is part of a path is part of one of its segments. -/
theorem exists_infix_of_infix_join {x : Text} (hx : '/' ∉ x) (hne : x ≠ []) (h : x <:+: join segs) :
    ∃ seg ∈ segs, x <:+: seg := by
  induction segs with
  | nil => exact absurd (infix_nil.mp h) hne
  | cons first segs ih =>
    by_cases hnil : segs = []
    · subst hnil
      rw [join, intercalate_singleton] at h
      exact ⟨first, mem_cons_self, h⟩
    · rw [join_cons hnil] at h
      rcases infix_of_infix_append_cons hx h with h | h
      · exact ⟨first, mem_cons_self, h⟩
      · obtain ⟨seg, hseg, h⟩ := ih h
        exact ⟨seg, mem_cons_of_mem _ hseg, h⟩

theorem trimMatches_isInfix (p : Char → Bool) (s : Text) : trimMatches p s <:+: s :=
  (List.rdropWhile_prefix _ _).isInfix.trans (dropWhile_suffix _).isInfix

theorem trim_isInfix (s : Text) : trim s <:+: s := trimMatches_isInfix isWhitespace s

/-! ### Paths of the API -/

theorem canonicalPath_ok {rel : Text} (h : canonicalPath rel = .ok p) :
    p.reverse = (split (trim rel)).filter kept := by
  obtain ⟨c, hc, h⟩ := bind_ok h
  obtain ⟨-, rfl, -⟩ := canonicalRel_ok hc
  have hfolded := folded_filter (trim rel)
  have hspelled : join ((split (trim rel)).filter kept) = spelled ((split (trim rel)).filter kept).reverse := by
    rw [spelled, reverse_reverse]
  rw [← Except.ok.inj h, hspelled, segments_spelled fun seg hseg => hfolded seg (mem_reverse.mp hseg), reverse_reverse]

/-- A path of the trash, as the API gives it, has the alias among its segments. -/
theorem alias_infix_of_isTrashApi {rel : Path} (h : canonicalPath (spelled p) = .ok rel) (htrash : isTrashApi rel = true) :
    ∃ seg ∈ p, trashApiAlias <:+: seg := by
  have hmem : trashApiAlias ∈ (split (trim (spelled p))).filter kept := by
    rw [← canonicalPath_ok h]
    exact mem_reverse.mpr (mem_of_getLast? (of_decide_eq_true htrash))
  have hjoin : join (split (trim (spelled p))) = trim (spelled p) := intercalate_splitOn '/'
  have hpart : trashApiAlias <:+: join (split (trim (spelled p))) := infix_join_of_mem (mem_filter.mp hmem).1
  rw [hjoin] at hpart
  obtain ⟨seg, hseg, h⟩ := exists_infix_of_infix_join (by decide) (by decide) (hpart.trans (trim_isInfix _))
  exact ⟨seg, mem_reverse.mp hseg, h⟩

/-- The name does not end in white space. -/
def EndsPlain (entry : Text) : Prop := entry.getLast?.any isWhitespace = false

instance (entry : Text) : Decidable (EndsPlain entry) := inferInstanceAs (Decidable (_ = _))

theorem endsPlain_rdropWhile (entry : Text) : EndsPlain (entry.rdropWhile isWhitespace) := by
  by_cases hnil : entry.rdropWhile isWhitespace = []
  · rw [hnil]
    rfl
  · have hlast := rdropWhile_last_not isWhitespace entry hnil
    rw [EndsPlain, getLast?_eq_some_getLast hnil]
    exact Bool.not_eq_true _ ▸ hlast

theorem spelled_cons {a : Text} (hp : p ≠ []) : spelled (a :: p) = spelled p ++ '/' :: a := by
  rw [spelled, reverse_cons, join_concat (by simpa using hp)]
  rfl

/-- A path of the trash starts with the alias, so it is trimmed at its end only. -/
theorem trim_spelled_alias (a : Text) (hp : isTrashApi p = true) :
    trim (spelled (a :: p)) = spelled p ++ '/' :: a.rdropWhile isWhitespace := by
  obtain ⟨q, rfl⟩ := getLast?_eq_some_iff.mp (of_decide_eq_true hp)
  have hstart : ∃ rest, spelled (a :: (q ++ [trashApiAlias])) = '.' :: rest := by
    rw [spelled, reverse_cons, reverse_append, reverse_singleton, append_assoc, singleton_append, join_cons (by simp)]
    exact ⟨_, rfl⟩
  obtain ⟨rest, hrest⟩ := hstart
  rw [trim, trimMatches, hrest, dropWhile_cons_of_neg (by decide), ← hrest, spelled_cons (by simp),
    rdropWhile_after_slash]

/-- What the API's path of something in the trash comes to, where it comes to a top-level entry. -/
theorem canonicalPath_alias {q : Path} {name : Text} (hfolded : Folded (q ++ [entry, trashApiAlias]))
    (h : canonicalPath (spelled (q ++ [entry, trashApiAlias])) = .ok [name, trashApiAlias]) :
    (q = [] ∧ EndsPlain name) ∨ (q ≠ [] ∧ name = entry) := by
  have hsegs := canonicalPath_ok h
  rw [reverse_cons, reverse_singleton, singleton_append] at hsegs
  have hslash : ∀ {seg}, seg ∈ q ++ [entry, trashApiAlias] → '/' ∉ seg.rdropWhile isWhitespace :=
    fun hseg hmem => (hfolded _ hseg).2 ((List.rdropWhile_prefix _ _).subset hmem)
  have hsplit : ∀ {a : Text} {p : Path}, a :: p <:+ q ++ [entry, trashApiAlias] → isTrashApi p = true →
      split (trim (spelled (a :: p))) = p.reverse ++ [a.rdropWhile isWhitespace] := by
    intro a p hsuf hp
    have hne : p ≠ [] := by
      rintro rfl
      cases hp
    have hp' : Folded p := hfolded.of_suffix ((suffix_cons a p).trans hsuf)
    have hjoin : split (spelled p) = p.reverse :=
      splitOn_intercalate '/' (fun seg hseg => (hp' seg (mem_reverse.mp hseg)).2) (by simpa using hne)
    rw [trim_spelled_alias a hp]
    show splitOn '/' _ = _
    rw [splitOn_append_cons_self]
    show split (spelled p) ++ split _ = _
    rw [hjoin, split_of_not_mem (hslash (hsuf.subset mem_cons_self))]
  cases q with
  | nil =>
    rw [nil_append, hsplit (suffix_refl _) rfl, reverse_singleton, singleton_append,
      filter_cons_of_pos (by decide)] at hsegs
    refine .inl ⟨rfl, ?_⟩
    have hmem : name ∈ [entry.rdropWhile isWhitespace].filter kept := by
      rw [← (cons.inj hsegs).2]
      exact mem_singleton_self name
    rw [mem_singleton.mp (mem_filter.mp hmem).1]
    exact endsPlain_rdropWhile entry
  | cons z q =>
    have hentry : kept entry = true := (hfolded entry (by simp)).1
    have hlast : split (trim (spelled (z :: (q ++ [entry, trashApiAlias])))) = _ :=
      hsplit (suffix_refl _) (isTrashApi_alias q entry)
    rw [cons_append, hlast, reverse_append, reverse_cons, reverse_singleton, append_assoc, append_assoc, singleton_append, singleton_append,
      filter_cons_of_pos (by decide), filter_cons_of_pos hentry] at hsegs
    exact .inr ⟨cons_ne_nil _ _, (cons.inj (cons.inj hsegs).2).1⟩

theorem canonicalPath_entry (hkept : kept entry = true) (hdots : entry ≠ ['.', '.']) (hslash : '/' ∉ entry)
    (hback : '\\' ∉ entry) (hplain : EndsPlain entry) :
    canonicalPath (spelled [entry, trashApiAlias]) = .ok [entry, trashApiAlias] := by
  have hfolded : Folded [trashApiAlias, entry] := by
    intro seg hseg
    rcases mem_cons.mp hseg with rfl | hseg
    · exact ⟨by decide, by decide⟩
    · rw [mem_singleton.mp hseg]
      exact ⟨hkept, hslash⟩
  have hspelled : spelled [entry, trashApiAlias] = join [trashApiAlias, entry] := rfl
  have hend : entry.rdropWhile isWhitespace = entry := by
    rw [rdropWhile_eq_self_iff]
    intro hne
    rw [EndsPlain, getLast?_eq_some_getLast hne] at hplain
    exact Bool.eq_false_iff.mp hplain
  have htrim : trim (join [trashApiAlias, entry]) = join [trashApiAlias, entry] := by
    rw [← hspelled, trim_spelled_alias entry rfl, hend, spelled_cons (cons_ne_nil _ _)]
  have hbackslash : '\\' ∉ join [trashApiAlias, entry] := by
    rw [join_cons (cons_ne_nil _ _), join, intercalate_singleton]
    simp only [mem_append, mem_cons, not_or]
    exact ⟨by decide, by decide, hback⟩
  have hdots' : ['.', '.'] ∉ [trashApiAlias, entry] := by
    simp only [mem_cons, not_mem_nil, not_or, or_false]
    exact ⟨by decide, Ne.symm hdots⟩
  rw [hspelled, canonicalPath, canonicalRel_join hfolded hdots' hbackslash htrim]
  show Except.ok (segments (join [trashApiAlias, entry])) = _
  rw [← hspelled, segments_spelled]
  intro seg hseg
  exact hfolded seg (mem_reverse.mp hseg)

/-! ### What is forgotten -/

/-- `forget_trash_entry`, where the statement goes through. -/
def forgotten (api : Path) (s : Drive) : Drive :=
  match canonicalPath (spelled api) with
  | .error _ => s
  | .ok rel => if isTrashApi rel then forgetOrigin (s.realRel rel) s else s

theorem forgetTrashEntry_calm {e : Steps} (he : e.Calm) (api : Path) (w : Stores) :
    forgetTrashEntry e api w = .ok () { w with drive := forgotten api w.drive } := by
  rw [forgetTrashEntry, forgotten]
  cases hrel : canonicalPath (spelled api) with
  | error err => rfl
  | ok rel =>
    have hget : (get : Act Stores) w = .ok w w := rfl
    dsimp only
    split
    · exact he.forgetOriginIn _ w
    · rfl

theorem forgotten_rows (api : Path) (s : Drive) :
    (forgotten api s).layout = s.layout ∧ (forgotten api s).disk = s.disk ∧ (forgotten api s).items = s.items := by
  unfold forgotten
  split
  · exact ⟨rfl, rfl, rfl⟩
  · split
    · exact forgetOrigin_rows _ s
    · exact ⟨rfl, rfl, rfl⟩

/-- Nothing is remembered anew, and what is forgotten is the entry that the API's path comes to. -/
theorem forgotten_cases (api : Path) (s : Drive) : (forgotten api s).trashMeta = s.trashMeta ∨
      ∃ entry, canonicalPath (spelled api) = .ok [entry, trashApiAlias] ∧
        (forgotten api s).trashMeta = s.trashMeta.erase entry := by
  unfold forgotten
  cases hrel : canonicalPath (spelled api) with
  | error err => exact .inl rfl
  | ok rel =>
    dsimp only
    by_cases htrash : isTrashApi rel = true
    · rw [if_pos htrash, forgetOrigin]
      rcases hparts : trashEntryParts (s.realRel rel) with _ | ⟨entry, _ | _⟩
      · exact .inl rfl
      · obtain ⟨root, hreal⟩ := trashEntryParts_top hparts
        refine .inr ⟨entry, ?_, rfl⟩
        rw [realRel, if_pos htrash] at hreal
        obtain ⟨q, rfl⟩ := getLast?_eq_some_iff.mp (of_decide_eq_true htrash)
        rw [dropLast_concat] at hreal
        have hq : q = [entry] := (append_inj' (show q ++ [s.layout.trashName] = [entry] ++ [root] from hreal) rfl).1
        rw [hq]
        rfl
      · exact .inl rfl
    · rw [if_neg htrash]
      exact .inl rfl

theorem forgotten_entry (h : canonicalPath (spelled [entry, trashApiAlias]) = .ok [entry, trashApiAlias]) :
    (forgotten [entry, trashApiAlias] s).trashMeta = s.trashMeta.erase entry := by
  have hreal : s.realRel [entry, trashApiAlias] = [entry, s.layout.trashName] := realRel_alias [] entry
  have hparts : trashEntryParts [entry, s.layout.trashName] = some (entry, false) := trashEntryParts_trash s.layout [] entry
  rw [forgotten, h]
  have htrash : isTrashApi [entry, trashApiAlias] = true := isTrashApi_alias [] entry
  dsimp only
  rw [if_pos htrash, hreal, forgetOrigin, hparts]

/-! ### Names of trash entries -/

section Named

variable {os : Os} {formHash : Text → Text} {s' : Drive}

/-- No slash of either kind. -/
def NoSlash (t : Text) : Prop := '/' ∉ t ∧ '\\' ∉ t

theorem noSlash_append {t' : Text} (h : NoSlash t) (h' : NoSlash t') : NoSlash (t ++ t') := by
  constructor
  · rw [mem_append, not_or]
    exact ⟨h.1, h'.1⟩
  · rw [mem_append, not_or]
    exact ⟨h.2, h'.2⟩

theorem noSlash_of_all {p : Char → Bool} (h : t.all p = true) (hp : p '/' = false) (hp' : p '\\' = false) :
    NoSlash t := by
  rw [all_eq_true] at h
  constructor
  · intro hmem
    rw [h _ hmem] at hp
    cases hp
  · intro hmem
    rw [h _ hmem] at hp'
    cases hp'

theorem noSlash_trim (h : NoSlash t) : NoSlash (trim t) :=
  ⟨fun hmem => h.1 ((trim_isInfix t).subset hmem), fun hmem => h.2 ((trim_isInfix t).subset hmem)⟩

theorem noSlash_pfx (l : Layout) : NoSlash l.pfx := by
  obtain ⟨hlead, huuid, htake⟩ := extractPrefix_eq_some l.valid
  obtain ⟨rest, hrest⟩ := isPrefixOf_iff_prefix.mp hlead
  rw [← hrest]
  refine noSlash_append ⟨by decide, by decide⟩ ?_
  rw [← hrest, drop_left' (by decide), isUuid, Bool.and_eq_true] at huuid
  have hlen : rest.length ≤ 36 := by
    have hlen := congrArg List.length htake
    rw [← hrest, length_take, length_append] at hlen
    have hshort : markerLead.length = 6 := by decide
    omega
  rw [take_of_length_le hlen] at huuid
  have hchar : ∀ ch ∈ rest, ch = '-' ∨ isHexDigit ch = true := by
    intro ch hch
    obtain ⟨i, hi, rfl⟩ := mem_iff_getElem.mp hch
    have hall := all_eq_true.mp huuid.2 (rest[i], i)
      (mem_zipIdx_iff_getElem?.mpr (List.getElem?_eq_some_iff.mpr ⟨hi, rfl⟩))
    split at hall
    · exact .inl (of_decide_eq_true hall)
    · exact .inr hall
  have hnone : ∀ ch, ch ≠ '-' → isHexDigit ch = false → ch ∉ rest := by
    intro ch hdash hhex hmem
    rcases hchar ch hmem with h | h
    · exact hdash h
    · rw [hhex] at h
      cases h
  exact ⟨hnone _ (by decide) (by decide), hnone _ (by decide) (by decide)⟩

theorem noSlash_trashName (l : Layout) : NoSlash l.trashName :=
  noSlash_append (noSlash_pfx l) ⟨by decide, by decide⟩

theorem noSlash_diskName (l : Layout) (id : ItemId) : NoSlash (l.diskName id) := by
  refine noSlash_append (noSlash_append (noSlash_pfx l) ⟨by decide, by decide⟩) ?_
  have hid := id.2
  rw [isDiskId, Bool.and_eq_true] at hid
  exact noSlash_of_all hid.2 (by decide) (by decide)

theorem noSlash_canonical {rel : Text} (h : canonicalPath rel = .ok p) : ∀ seg ∈ p, NoSlash seg := by
  intro seg hseg
  have hback : '\\' ∉ rel := by
    obtain ⟨c, hc, -⟩ := bind_ok h
    exact (canonicalRel_ok hc).1
  have hmem : seg ∈ split (trim rel) := by
    rw [← mem_reverse, canonicalPath_ok h] at hseg
    exact (mem_filter.mp hseg).1
  refine ⟨slash_not_mem_of_split hmem, fun hin => hback ?_⟩
  have hjoin : join (split (trim rel)) = trim rel := intercalate_splitOn '/'
  have hpart : seg <:+: trim rel := hjoin ▸ infix_join_of_mem hmem
  exact (trim_isInfix rel).subset (hpart.subset hin)

theorem noSlash_realRel (h : ∀ seg ∈ p, NoSlash seg) : ∀ seg ∈ s.realRel p, NoSlash seg := by
  intro seg hseg
  rw [realRel] at hseg
  split at hseg
  · rcases mem_append.mp hseg with hseg | hseg
    · exact h seg (mem_of_mem_dropLast hseg)
    · rw [mem_singleton.mp hseg]
      exact noSlash_trashName s.layout
  · exact h seg hseg

/-- A character of a path is a slash or stands in one of its segments. -/
theorem mem_join {ch : Char} (h : ch ∈ join segs) : ch = '/' ∨ ∃ seg ∈ segs, ch ∈ seg := by
  induction segs with
  | nil => cases h
  | cons first segs ih =>
    by_cases hnil : segs = []
    · subst hnil
      rw [join, intercalate_singleton] at h
      exact .inr ⟨first, mem_cons_self, h⟩
    rw [join_cons hnil] at h
    rcases mem_append.mp h with h | h
    · exact .inr ⟨first, mem_cons_self, h⟩
    · rcases mem_cons.mp h with h | h
      · exact .inl h
      · obtain h | ⟨seg, hseg, h⟩ := ih h
        · exact .inl h
        · exact .inr ⟨seg, mem_cons_of_mem first hseg, h⟩

theorem noSlash_entryTitle {n : Text} {dp : Path} (h : ∀ seg ∈ n :: dp, NoSlash seg) : NoSlash (entryTitle n dp s) := by
  have hdefault : NoSlash ((s.diskLeaf (n :: dp)).getD n) := by
    cases hrow : s.items.get? (n :: dp) with
    | none =>
      rw [diskLeaf_none hrow]
      exact h n mem_cons_self
    | some item =>
      rw [diskLeaf_some hrow]
      exact noSlash_diskName s.layout item.id
  unfold entryTitle
  split
  · cases hlast : (split (trashedRel (n :: dp))).getLast? with
    | none => exact hdefault
    | some seg =>
      have hmem : seg ∈ split (trashedRel (n :: dp)) := mem_of_getLast? hlast
      refine ⟨slash_not_mem_of_split hmem, fun hin => ?_⟩
      have hjoin : join (split (trashedRel (n :: dp))) = trashedRel (n :: dp) := intercalate_splitOn '/'
      have hpart : seg <:+: trashedRel (n :: dp) := hjoin ▸ infix_join_of_mem hmem
      have hspelled : '\\' ∈ spelled (n :: dp) :=
        (trim_isInfix _).subset ((trimMatches_isInfix isSlash _).subset (hpart.subset hin))
      obtain hslash | ⟨seg', hseg', hin'⟩ := mem_join hspelled
      · exact absurd hslash (by decide)
      · exact (h seg' (mem_reverse.mp hseg')).2 hin'
  · exact hdefault

theorem entryName_trash (now j : Nat) {n : Text} (h : NoSlash n) : EntryName (trashEntryName now j n) := by
  have hdigits : ∀ k : Nat, (Nat.toDigits 10 k).all Char.isDigit = true := fun k =>
    all_eq_true.mpr fun ch hch => Nat.isDigit_of_mem_toDigits (by decide) (by decide) hch
  have hdash : NoSlash ['-'] := ⟨by decide, by decide⟩
  have hplain : ∀ k, NoSlash (Nat.toDigits 10 k) := fun k => noSlash_of_all (hdigits k) (by decide) (by decide)
  have hspelled : NoSlash (trashEntryName now j n) := by
    unfold trashEntryName
    split
    · exact noSlash_append (hplain now) (noSlash_append hdash h)
    · refine noSlash_append (noSlash_append (hplain now) (noSlash_append hdash (hplain j))) (noSlash_append hdash h)
  refine ⟨?_, hspelled.1, hspelled.2⟩
  unfold trashEntryName
  split
  · exact ⟨_, n, Nat.toDigits_ne_nil, hdigits now, rfl⟩
  · exact ⟨_, Nat.toDigits 10 j ++ '-' :: n, Nat.toDigits_ne_nil, hdigits now, by rw [append_assoc, cons_append]⟩

theorem splitOnce_append {first : Text} (h : '-' ∉ first) (rest : Text) :
    splitOnce (first ++ '-' :: rest) = some (first, rest) := by
  have hall : ∀ ch ∈ first, (decide (ch ≠ '-')) = true := by
    intro ch hch
    rw [decide_eq_true_eq]
    rintro rfl
    exact h hch
  rw [splitOnce, dropWhile_append_of_pos hall, takeWhile_append_of_pos hall,
    dropWhile_cons_of_neg (by decide), takeWhile_cons_of_neg (by decide), append_nil]

theorem splitOnce_suffix {first rest : Text} (h : splitOnce t = some (first, rest)) : rest <:+ t := by
  unfold splitOnce at h
  split at h
  · cases h
  · rename_i hdrop
    obtain ⟨-, rfl⟩ := Prod.mk.inj (Option.some.inj h)
    exact (suffix_cons _ _).trans (hdrop ▸ dropWhile_suffix _)

/-- Behind the second of the deletion, an entry may be called anything. -/
theorem EntryName.renamed {newName : Text} (h : EntryName entry) (hnew : NoSlash newName) :
    EntryName (entry.take (entry.length - (originalNameFromTrash entry).length) ++ newName) := by
  obtain ⟨lead, rest, hne, hdigits, rfl⟩ := h.lead
  have hdash : '-' ∉ lead := by
    intro hmem
    have hdigit := all_eq_true.mp hdigits _ hmem
    exact absurd hdigit (by decide)
  have hsuffix : originalNameFromTrash (lead ++ '-' :: rest) <:+ rest := by
    rw [originalNameFromTrash, splitOnce_append hdash]
    dsimp only
    rw [if_neg (not_not.mpr hdigits)]
    cases hsplit : splitOnce rest with
    | none => exact suffix_refl _
    | some r =>
      dsimp only
      split
      · exact splitOnce_suffix hsplit
      · exact suffix_refl _
  obtain ⟨front, hfront⟩ := hsuffix
  have htake : (lead ++ '-' :: rest).take ((lead ++ '-' :: rest).length -
      (originalNameFromTrash (lead ++ '-' :: rest)).length) = lead ++ '-' :: front := by
    have hwhole : lead ++ '-' :: rest = (lead ++ '-' :: front) ++ originalNameFromTrash (lead ++ '-' :: rest) := by
      rw [append_assoc, cons_append, hfront]
    generalize originalNameFromTrash (lead ++ '-' :: rest) = original at hwhole
    rw [hwhole, length_append, Nat.add_sub_cancel, take_left]
  have hkeep : NoSlash (lead ++ '-' :: front) :=
    ⟨fun hmem => h.slash (mem_of_mem_take (htake ▸ hmem)), fun hmem => h.backslash (mem_of_mem_take (htake ▸ hmem))⟩
  have hspelled := noSlash_append hkeep hnew
  rw [htake]
  refine ⟨⟨lead, front ++ newName, hne, hdigits, ?_⟩, hspelled.1, hspelled.2⟩
  rw [append_assoc, cons_append]

section

variable (h : s.EntriesNamed)

include h

theorem Drive.EntriesNamed.erase (hm : s'.trashMeta = s.trashMeta.erase entry) :
    s'.EntriesNamed := by
  intro entry' found hfound
  rw [hm, get?_erase] at hfound
  split at hfound
  · cases hfound
  · exact h entry' found hfound

theorem Drive.EntriesNamed.put {origin : TrashMeta} (hentry : EntryName entry)
    (hm : s'.trashMeta = s.trashMeta.put entry origin) : s'.EntriesNamed := by
  intro entry' found hfound
  rw [hm, get?_put] at hfound
  split at hfound
  · rename_i heq
    rw [heq]
    exact hentry
  · exact h entry' found hfound

theorem Drive.EntriesNamed.of_meta (hm : s'.trashMeta = s.trashMeta) : s'.EntriesNamed := by
  intro entry found hfound
  rw [hm] at hfound
  exact h entry found hfound

theorem Drive.EntriesNamed.forgetOrigin (rel : Path) : (forgetOrigin rel s).EntriesNamed := by
  unfold Files.forgetOrigin
  split
  · exact h.erase rfl
  · exact h

theorem Drive.EntriesNamed.retitle (rel : Path) {newName : Text} (hnew : NoSlash newName) :
    (retitle rel newName s).EntriesNamed := by
  unfold Files.retitle
  split
  · rename_i entry hparts
    cases hfound : s.trashMeta.get? entry with
    | none => exact h
    | some found =>
      have hname : EntryName (renamedTo rel newName) := by
        rw [renamedTo, hparts]
        exact (h entry found hfound).renamed hnew
      exact EntriesNamed.erase (s := { s with trashMeta := s.trashMeta.put (renamedTo rel newName) _ }) (h.put hname rfl) rfl
  · exact h

end

theorem noSlash_of_safeName {name out : Text} (h : Files.safeName name = .ok out) : NoSlash out := by
  obtain ⟨hslash, -⟩ := of_ite_error h
  obtain ⟨rfl, -⟩ := safeName_ok h
  rw [not_or, not_or] at hslash
  exact noSlash_trim ⟨hslash.1, hslash.2.1⟩

theorem Call.run_named {env : Env} {c : Call} (ht : Tidy s) (hnamed : s.EntriesNamed) (hclean : c.Clean s)
    (h : c.run formHash env s = .ok s') : s'.EntriesNamed := by
  cases c with
  | mkdirAs rel owner => exact hnamed.of_meta (mkdirAs_ok ht h).2.2.1
  | create rel => exact hnamed.of_meta (create_ok ht h).2.2.2
  | rename rel newName =>
    obtain ⟨_, n, dp, _, _, _, _, _, hm⟩ := rename_shift ht h fun apiRel hapi => hclean apiRel (mem_toOption hapi)
    obtain ⟨name, hname, -⟩ := bind_ok h
    obtain ⟨hout, -⟩ := safeName_ok hname
    exact (hnamed.retitle (n :: dp) (hout ▸ noSlash_of_safeName hname)).of_meta hm
  | moveRel src dst =>
    obtain ⟨_, n, dp, _, _, _, _, _, _, _, hm⟩ := moveRel_shift ht h fun apiSrc apiDst hsrc hdst =>
      hclean apiSrc (mem_toOption hsrc) apiDst (mem_toOption hdst)
    exact (hnamed.forgetOrigin (n :: dp)).of_meta hm
  | deleteToTrash rel =>
    obtain ⟨out, hdelete⟩ := Call.run_deleteToTrash h
    obtain ⟨apiRel, n, dp, _, j, hapi, hreal, -, -, htrashed⟩ :=
      deleteToTrash_trashed ht hdelete fun apiRel hapi => hclean apiRel (mem_toOption hapi)
    have hsegs : ∀ seg ∈ n :: dp, NoSlash seg := hreal ▸ noSlash_realRel (noSlash_canonical hapi)
    exact hnamed.put (entryName_trash env.now j (noSlash_entryTitle hsegs)) htrashed.origins
  | restoreFromTrash trashRel dest =>
    obtain ⟨_, _, _, _, _, _, _, _, _, _, _, _, hm⟩ :=
      restoreFromTrash_shift ht h fun trashApi name parent htrash hdest =>
        hclean trashApi (mem_toOption htrash) (name :: parent) (mem_toOption hdest) name rfl
    exact hnamed.erase hm
  | purgeTrash trashRel =>
    obtain ⟨trashApi, _, _, _, _, _, hm⟩ := purgeTrash_purged ht h
    exact (hnamed.forgetOrigin (s.realRel trashApi)).of_meta hm

/-- **Every run keeps the names of trash entries.** -/
theorem runCalls_named {calls : List (Env × Call)} (ht : Tidy s) (hnamed : s.EntriesNamed)
    (hclean : CleanRun formHash calls s) (h : runCalls formHash calls s = .ok s') : s'.EntriesNamed := by
  induction calls generalizing s with
  | nil =>
    obtain rfl := Except.ok.inj h
    exact hnamed
  | cons first rest ih =>
    obtain ⟨env, c⟩ := first
    obtain ⟨s₁, hs₁, h⟩ := bind_ok h
    obtain ⟨hfirst, hrest⟩ := hclean
    rw [hs₁] at hrest
    exact ih (c.run_tidy ht hfirst hs₁).1 (c.run_named ht hnamed hfirst hs₁) hrest h

end Named

end LibreServ.Files
